import Bourse.Deal
import Bourse.Error

/-!
# `Bourse.Offer` — limit offers and the trade between two of them

An offer is active until its remaining quantity reaches zero. `Offer.trade` makes one deal between an
incoming offer and a resting one of the other side: the smaller of the two remaining quantities, at the
resting offer's price. At least one of the two is fulfilled by it (`trade_fulfils`).

The time at which an offer was posted is left out, as is that of a deal: nothing reads it, and the age of
offers is their order in the book. So two states that are equal here may still differ in what the clock said.
-/

namespace Bourse

/-- Whether an offer can still trade. -/
inductive OfferStatus
  | active
  | fulfilled
deriving DecidableEq, Repr

/-- The status in plain text. -/
def OfferStatus.name : OfferStatus → String
  | .active => "Active"
  | .fulfilled => "Fulfilled"

/-- An offer to trade up to `quantity` units at `price` or better. -/
structure Offer where
  id : OfferId
  owner : UserId
  side : Side
  price : Price
  /-- The quantity as posted. -/
  quantity : Quantity
  /-- What has not been traded yet. -/
  remaining : Quantity
  status : OfferStatus
deriving DecidableEq, Repr

namespace Offer

/-- A new offer, nothing of it traded. -/
def post (id : OfferId) (owner : UserId) (side : Side) (price : Price) (quantity : Quantity) :
    Offer :=
  { id, owner, side, price, quantity, remaining := quantity, status := .active }

/-- What has been traded. -/
def filled (offer : Offer) : Quantity := offer.quantity - offer.remaining

/-- The offer can trade no more. -/
def isFulfilled (offer : Offer) : Bool := offer.status = .fulfilled

/-- The row that a store keeps of the offer: as posted, with its whole quantity. -/
def toRecord (offer : Offer) : Record :=
  .offer offer.id offer.owner offer.side offer.quantity offer.price

/-- The offer after `quantity` more units of it were traded. -/
def fill (offer : Offer) (quantity : Quantity) : Offer :=
  let remaining := offer.remaining - quantity
  { offer with
    remaining
    status := if remaining = 0 then .fulfilled else offer.status }

/-- What a trade leads to: the deal and both offers after it. -/
structure Trade where
  deal : Deal
  taker : Offer
  maker : Offer
deriving DecidableEq, Repr

/-- Trades the incoming offer `taker` with the resting offer `maker`; two offers of one side do not
    trade. -/
def trade (taker maker : Offer) (id : DealId) : Except TradeError Trade :=
  if taker.side = maker.side then .error (.sameSide taker.side)
  else
    let quantity := min taker.remaining maker.remaining
    .ok {
      deal := {
        id
        seller := taker.side.seller taker.owner maker.owner
        buyer := taker.side.buyer taker.owner maker.owner
        maker := maker.id
        taker := taker.id
        price := maker.price
        quantity }
      taker := taker.fill quantity
      maker := maker.fill quantity }

/-! ## What a trade does to the two offers -/

theorem isFulfilled_fill_of_le {offer : Offer} {quantity : Quantity}
    (h : offer.remaining ≤ quantity) : (offer.fill quantity).isFulfilled = true := by
  have : offer.remaining - quantity = 0 := Nat.sub_eq_zero_of_le h
  simp [fill, isFulfilled, this]

/-- A trade leaves the taker on its side. -/
theorem side_trade {taker maker : Offer} {id : DealId} {t : Trade}
    (h : taker.trade maker id = .ok t) : t.taker.side = taker.side := by
  unfold trade at h
  split at h
  · cases h
  · cases h
    rfl

/-- A trade fulfils the taker or the maker. -/
theorem trade_fulfils {taker maker : Offer} {id : DealId} {t : Trade}
    (h : taker.trade maker id = .ok t) :
    t.taker.isFulfilled = true ∨ t.maker.isFulfilled = true := by
  unfold trade at h
  split at h
  · cases h
  · cases h
    rcases Nat.le_total taker.remaining maker.remaining with hle | hle
    · exact .inl (isFulfilled_fill_of_le (by simp [Nat.min_eq_left hle]))
    · exact .inr (isFulfilled_fill_of_le (by simp [Nat.min_eq_right hle]))

end Offer

end Bourse
