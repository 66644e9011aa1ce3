import Bourse.Market.Matching

/-!
# `Bourse.Market.Posting` — posting an offer

A posting is checked as a whole before anything changes: `vet` walks the deals the offer is about to
make and follows the balances of everyone in them (`foresee`). An offer that passes gets the next offer id,
is reported to the store, matched, and what is left of it rests in the book.
-/

namespace Bourse

/-- What became of a posted offer. -/
structure Posting where
  offer : OfferId
  /-- The deals it made, in order. -/
  deals : List Deal
  /-- What is left of it and rests in the book. -/
  remaining : Quantity
deriving DecidableEq, Repr

/-- The offer was traded entirely. -/
def Posting.isFulfilled (posting : Posting) : Bool := posting.remaining = 0

/-- The balances that users will have after deals that are not settled yet. -/
abbrev Projection := SortedMap UserId Balance

namespace Ledger

/-- The balance of a user after the deals foreseen so far. -/
def projected (ledger : Ledger) (projection : Projection) (user : UserId) :
    Except TradeError Balance :=
  match projection.get? user with
  | some balance => .ok balance
  | none => (ledger.account user).map (·.balance)

/-- The projection after the balance of one user was changed. -/
def project (ledger : Ledger) (projection : Projection) (user : UserId)
    (change : Balance → Option Balance) : Except TradeError Projection :=
  match ledger.projected projection user with
  | .error cause => .error cause
  | .ok balance =>
    match change balance with
    | none => .error (.balanceOutOfRange user)
    | some changed => .ok (projection.insert user changed)

/-- The projection after a deal between two users, the buyer's balance first. -/
def projectDeal (ledger : Ledger) (projection : Projection) (buyer seller : UserId) (price : Price)
    (quantity : Quantity) : Except TradeError Projection :=
  match Amount.notional? price quantity with
  | none => .error (.balanceOutOfRange buyer)
  | some cost =>
    match ledger.project projection buyer (·.bought? quantity cost) with
    | .error cause => .error cause
    | .ok projection => ledger.project projection seller (·.sold? quantity cost)

/-- Walks the entries that an offer of `wanted` units is about to meet, and fails if one of its deals
    would take a balance out of range. -/
def foresee (ledger : Ledger) (user : UserId) (side : Side) (limit : Price) :
    List (Price × QueueEntry) → Quantity → Projection → Except TradeError Unit
  | [], _, _ => .ok ()
  | (price, entry) :: rest, wanted, projection =>
    if wanted = 0 ∨ side.crosses limit price = false then .ok ()
    else
      match ledger.activeOffer? entry with
      | none => ledger.foresee user side limit rest wanted projection
      | some maker =>
        let quantity := min wanted maker.remaining
        let buyer := side.buyer user maker.owner
        let seller := side.seller user maker.owner
        -- a user's trade with themselves moves no money, so it can always be settled
        if buyer = seller then
          ledger.foresee user side limit rest (wanted - quantity) projection
        else
          match ledger.projectDeal projection buyer seller price quantity with
          | .error cause => .error cause
          | .ok projection =>
            ledger.foresee user side limit rest (wanted - quantity) projection

end Ledger

namespace Market

variable {σ : Type}

/-- Tells whether an offer may be posted, and why not. Nothing changes. -/
def vet (market : Market σ) (user : UserId) (side : Side) (price : Price) (quantity : Quantity) :
    Except TradeError Unit :=
  match market.account user with
  | .error cause => .error cause
  | .ok _ =>
    if quantity = 0 then .error .noQuantity
    else if (Amount.notional? price quantity).isNone then .error (.costOutOfRange price quantity)
    else
      market.accounts.foresee user side price (market.book side.opposite).ranked quantity
        .empty

/-- Lets an offer rest: active in its owner's account, and last in the level of its price. -/
def rest (market : Market σ) (offer : Offer) : Attempt (Market σ) Unit :=
  match market.accounts.update offer.owner fun account => .ok (account.addOffer offer) with
  | (.error cause, accounts) => (.error cause, { market with accounts })
  | (.ok (), accounts) =>
    let entry := { offer := offer.id, owner := offer.owner }
    (.ok (), { market.withBook ((market.book offer.side).insert offer.price entry) with accounts })

/-- Posts an offer. -/
def post [RecordStore σ] (market : Market σ) (user : UserId) (side : Side) (price : Price)
    (quantity : Quantity) : Attempt (Market σ) Posting :=
  match market.vet user side price quantity with
  | .error cause => (.error cause, market)
  | .ok () =>
    let offer := Offer.post market.offerIds.next user side price quantity
    -- the store hears of the offer as posted, before any deal of it
    let announced := { market with
      offerIds := market.offerIds.advance
      store := RecordStore.notify market.store offer.toRecord }
    (announced.matchTaker offer).andThen fun (last, deals) matched =>
      let posting := { offer := offer.id, deals, remaining := last.remaining }
      if last.isFulfilled then (.ok posting, matched)
      else (matched.rest last).andThen fun _ rested => (.ok posting, rested)

end Market

end Bourse
