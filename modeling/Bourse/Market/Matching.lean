import Bourse.Market.Settlement

/-!
# `Bourse.Market.Matching` — an incoming offer against the book

`meet` looks at the front of the best level of the other side: it drops an expired entry or makes one
deal. `matchTaker` meets one entry after the other until the incoming offer is fulfilled or nothing
crosses its limit. It ends because every meeting but the last takes an entry out of the book: a trade
that leaves the maker in place has fulfilled the taker (`Offer.trade_fulfils`).
-/

namespace Bourse

/-- What an incoming offer finds at the front of the other side. -/
inductive Encounter (σ : Type)
  /-- No resting price crosses the limit. -/
  | nothing
  /-- The best level has no entry. -/
  | emptyLevel
  /-- The front entry had expired and was dropped. -/
  | expired (after : Market σ)
  /-- A deal was made and could not be settled. -/
  | refused (cause : TradeError) (after : Market σ)
  /-- A deal was made and settled; `taker` is the incoming offer after it. -/
  | traded (deal : Deal) (taker : Offer) (after : Market σ)

namespace Market

variable {σ : Type}

@[simp] theorem book_withBook (market : Market σ) {side : Side} (book : Book side) :
    (market.withBook book).book side = book := market.books.get_set book

/-- Puts the maker of a trade back into its account or, once it is fulfilled, takes it out of its
    account and the front of its level. -/
def returnMaker (market : Market σ) (price : Price) (entry : QueueEntry) (maker : Offer)
    (side : Side) : Market σ :=
  if maker.isFulfilled then
    { market.withBook ((market.book side).pop price) with
      accounts := market.accounts.modify entry.owner (·.removeOffer entry.offer) }
  else
    { market with
      accounts := market.accounts.modify entry.owner (·.updateOffer entry.offer maker) }

/-- Of the books only the maker's side changes, and only when the maker is fulfilled. -/
theorem books_returnMaker (market : Market σ) (price : Price) (entry : QueueEntry) (maker : Offer)
    (side : Side) :
    (market.returnMaker price entry maker side).books =
      if maker.isFulfilled then market.books.set ((market.book side).pop price)
      else market.books := by
  unfold returnMaker
  split <;> rfl

variable [RecordStore σ]

/-- Trades an incoming offer with the maker behind the front entry at `price` and settles the deal. -/
def strike (market : Market σ) (taker : Offer) (price : Price) (entry : QueueEntry) (maker : Offer) :
    Encounter σ :=
  -- the deal has its number whether or not it can be made
  let numbered := { market with dealIds := market.dealIds.advance }
  match taker.trade maker market.dealIds.next with
  | .error cause => .refused cause numbered
  | .ok trade =>
    let returned := numbered.returnMaker price entry trade.maker taker.side.opposite
    match returned.settle trade.deal with
    | (.error cause, after) => .refused cause after
    | (.ok (), after) => .traded trade.deal trade.taker { after with quote := some trade.deal.price }

/-- Meets the front entry of the best level on the other side. -/
def meet (market : Market σ) (taker : Offer) : Encounter σ :=
  let book := market.book taker.side.opposite
  match book.bestPrice? with
  | none => .nothing
  | some price =>
    if taker.side.crosses taker.price price then
      match book.front? price with
      | none => .emptyLevel
      | some entry =>
        match market.accounts.activeOffer? entry with
        | none => .expired (market.withBook (book.pop price))
        | some maker => market.strike taker price entry maker
    else .nothing

/-! ## Progress -/

/-- The entries an incoming offer may still meet, and one for the offer itself while it is open. -/
def work (market : Market σ) (taker : Offer) : Nat :=
  (market.book taker.side.opposite).size + if taker.isFulfilled then 0 else 1

theorem not_expired_strike {market after : Market σ} {taker maker : Offer} {price : Price}
    {entry : QueueEntry} : market.strike taker price entry maker ≠ .expired after := by
  intro h
  unfold strike at h
  split at h
  · cases h
  · dsimp only at h
    split at h <;> cases h

/-- A deal takes the maker's entry out of the book or fulfils the incoming offer. -/
theorem work_strike {market after : Market σ} {taker maker left : Offer} {price : Price}
    {entry found : QueueEntry} {deal : Deal} (hopen : taker.isFulfilled = false)
    (hfront : (market.book taker.side.opposite).front? price = some found)
    (h : market.strike taker price entry maker = .traded deal left after) :
    after.work left < market.work taker := by
  unfold strike at h
  split at h
  · cases h
  case h_2 trade htrade =>
    dsimp only at h
    split at h
    · cases h
    case h_2 settled hsettle =>
      cases h
      -- the settlement left the books as returning the maker made them
      have hbooks := (congrArg (·.2.books) hsettle).symm.trans (books_settle _ trade.deal)
      rw [books_returnMaker] at hbooks
      have hpop : ((market.books.get taker.side.opposite).pop price).size + 1 =
          (market.books.get taker.side.opposite).size := Book.size_pop hfront
      show (settled.books.get trade.taker.side.opposite).size +
          (if trade.taker.isFulfilled then 0 else 1) <
        (market.books.get taker.side.opposite).size + (if taker.isFulfilled then 0 else 1)
      rw [Offer.side_trade htrade, show settled.books = _ from hbooks, hopen]
      have hdone := Offer.trade_fulfils htrade
      cases hmaker : trade.maker.isFulfilled
      -- the maker stays, so the incoming offer is fulfilled and no longer counts
      · simp [hdone.resolve_right (by simp [hmaker])]
      -- the maker is fulfilled, so its entry has gone
      · simp only [if_true, Books.get_set, book, Bool.false_eq_true, if_false]
        split <;> omega

/-- A meeting with an expired entry takes it out of the book. -/
theorem work_expired {market after : Market σ} {taker : Offer}
    (h : market.meet taker = .expired after) : after.work taker < market.work taker := by
  unfold meet at h
  dsimp only at h
  split at h
  · cases h
  · split at h
    · split at h
      · cases h
      case h_2 entry hfront =>
        split at h
        · cases h
          have := Book.size_pop hfront
          simp only [work, book_withBook]
          omega
        · exact absurd h not_expired_strike
    · cases h

/-- A meeting that makes a deal takes the maker's entry out of the book or is the last. -/
theorem work_traded {market after : Market σ} {taker left : Offer} {deal : Deal}
    (hopen : taker.isFulfilled = false) (h : market.meet taker = .traded deal left after) :
    after.work left < market.work taker := by
  unfold meet at h
  dsimp only at h
  split at h
  · cases h
  · split at h
    · split at h
      · cases h
      case h_2 entry hfront =>
        split at h
        · cases h
        · exact work_strike hopen hfront h
    · cases h

/-- Matches an incoming offer until it is fulfilled or nothing crosses its limit; gives what is left of
    it and the deals in the order in which they were made. -/
def matchTaker (market : Market σ) (taker : Offer) : Attempt (Market σ) (Offer × List Deal) :=
  if _hopen : taker.isFulfilled then (.ok (taker, []), market)
  else
    match _h : market.meet taker with
    | .nothing => (.ok (taker, []), market)
    | .emptyLevel => (.ok (taker, []), market)
    | .expired after => after.matchTaker taker
    | .refused cause after => (.error cause, after)
    | .traded deal left after =>
      (after.matchTaker left).andThen fun (last, deals) market =>
        (.ok (last, deal :: deals), market)
termination_by market.work taker
decreasing_by
  · exact work_expired ‹_›
  · exact work_traded (by simpa using _hopen) ‹_›

end Market

end Bourse
