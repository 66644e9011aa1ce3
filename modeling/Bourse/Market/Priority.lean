import Bourse.Market

/-!
# `Bourse.Market.Priority` — who trades with whom, said without the books

An incoming offer trades with the active offers of the other side that its limit admits, the best price
first and the oldest first at one price, and takes from each in turn what it still wants. Here this rule
is stated over the accounts alone: `counterparts` is the queue that an offer meets, `allot` deals its
quantity out to the queue, and `dealsOf` are the deals that come of it.

Whether those deals can be settled is a matter of the balances alone. `balancesAfter` follows them in
exact arithmetic, and `firstOutOfRange?` names the first party whose balance leaves the range.
-/

namespace Bourse

/-! ## The queue -/

namespace Offer

/-- Of two resting offers of one side, `a` comes first or they are the same: it has the better price for
    the other side, or the same price and the smaller id. -/
def isAhead (a b : Offer) : Bool :=
  a.side.isBetter a.price b.price || (a.price = b.price && a.id ≤ b.id)

/-- The shares of a wanted quantity, dealt out to a queue of offers: each gives what it has until nothing
    more is wanted. -/
def allot : Quantity → List Offer → List (Offer × Quantity)
  | _, [] => []
  | wanted, maker :: rest =>
    if wanted = 0 then []
    else (maker, min wanted maker.remaining) :: allot (wanted - maker.remaining) rest

/-- The deals of an incoming offer with the makers of its shares, numbered from `first` on. -/
def dealsOf (taker : Offer) (first : DealId) : List (Offer × Quantity) → List Deal
  | [] => []
  | (maker, quantity) :: rest =>
    { id := first
      seller := taker.side.seller taker.owner maker.owner
      buyer := taker.side.buyer taker.owner maker.owner
      maker := maker.id
      taker := taker.id
      price := maker.price
      quantity } :: dealsOf taker (first + 1) rest

end Offer

namespace Ledger

/-- The active offers of all users. -/
def activeOffers (ledger : Ledger) : List Offer :=
  ledger.values.flatMap fun account => account.activeOffers.values

/-- The active offers that an offer of the given side and limit may trade with, in the order in which it
    meets them. -/
def counterparts (ledger : Ledger) (side : Side) (limit : Price) : List Offer :=
  (ledger.activeOffers.filter fun offer =>
    offer.side = side.opposite && side.crosses limit offer.price).mergeSort Offer.isAhead

end Ledger

namespace Market

variable {σ : Type}

/-- The deals that an offer makes if it is posted now. -/
def dueDeals (market : Market σ) (user : UserId) (side : Side) (price : Price)
    (quantity : Quantity) : List Deal :=
  (Offer.post market.offerIds.next user side price quantity).dealsOf market.dealIds.next
    (Offer.allot quantity (market.accounts.counterparts side price))

end Market

/-! ## The balances -/

namespace Deal

/-- The balances of all users after a deal, in exact arithmetic. -/
def balancesAfter (deal : Deal) (balances : UserId → Balance) (user : UserId) : Balance :=
  let before := balances user
  if deal.isSelfTrade then before
  else if user = deal.buyer then
    { usd := before.usd + deal.quantity, rub := before.rub - deal.price * deal.quantity }
  else if user = deal.seller then
    { usd := before.usd - deal.quantity, rub := before.rub + deal.price * deal.quantity }
  else before

/-- The first party whose balance leaves the range as the deals are settled one after the other; of one
    deal the buyer is looked at first. -/
def firstOutOfRange? (balances : UserId → Balance) : List Deal → Option UserId
  | [] => none
  | deal :: rest =>
    let after := deal.balancesAfter balances
    if ¬(after deal.buyer).InRange then some deal.buyer
    else if ¬(after deal.seller).InRange then some deal.seller
    else firstOutOfRange? after rest

end Deal

namespace Market

variable {σ : Type}

/-- The balance of a user, or an empty one if there is no such user. -/
def balanceOf (market : Market σ) (user : UserId) : Balance :=
  ((market.accounts.get? user).map (·.balance)).getD {}

/-- Why an offer may not be posted, if it may not: the first that applies of an unknown owner, no
    quantity, a cost out of range, and a deal that cannot be settled. -/
def objection? (market : Market σ) (user : UserId) (side : Side) (price : Price)
    (quantity : Quantity) : Option TradeError :=
  if (market.accounts.get? user).isNone then some (.unknownUser user)
  else if quantity = 0 then some .noQuantity
  else if ¬(Amount.InRange quantity ∧ Amount.InRange (price * quantity)) then
    some (.costOutOfRange price quantity)
  else
    (Deal.firstOutOfRange? market.balanceOf (market.dueDeals user side price quantity)).map
      .balanceOutOfRange

end Market

end Bourse
