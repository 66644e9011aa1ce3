import Bourse.Store.Record

/-!
# `Bourse.Deal` — settled trades

A deal is made once, between the owner of an offer that rested in the book (the maker) and the owner of
one just posted (the taker), and never changes afterwards. The time of a deal is left out: it comes from the
clock, and nothing reads it. Deals that are equal here are equal up to that time.
-/

namespace Bourse

/-- A trade of `quantity` units at `price`. -/
structure Deal where
  id : DealId
  seller : UserId
  buyer : UserId
  /-- The offer that rested in the book. -/
  maker : OfferId
  /-- The offer that was posted against it. -/
  taker : OfferId
  price : Price
  quantity : Quantity
deriving DecidableEq, Repr

namespace Deal

/-- What the buyer pays the seller, if it is in range. -/
def notional? (deal : Deal) : Option Int := Amount.notional? deal.price deal.quantity

/-- The buyer and the seller are the same user. -/
def isSelfTrade (deal : Deal) : Bool := deal.buyer = deal.seller

/-- The row that a store keeps of the deal. -/
def toRecord (deal : Deal) : Record :=
  .deal deal.id deal.seller deal.buyer deal.quantity deal.price

end Deal

end Bourse
