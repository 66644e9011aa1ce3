import Bourse.Proofs.Settlement

/-!
# `Bourse.Proofs.ActiveOffers` — which operations touch the active offers

Of all that happens in a market only three things change what the accounts list as active: a withdrawal, a
trade, and an offer that comes to rest. This module says so for the parts of an operation that are about
accounts, whatever the market and whether or not the part is refused.

* Money moves without touching an offer: `Ledger.activeOffer?_settle`, `Market.activeOffer?_deposit`.
* `Market.activeOffer?_cancel` and `Market.activeOffer?_register`: a withdrawal takes one offer away, and a
  new account has none.
-/

namespace Bourse

namespace Attempt

variable {σ α β : Type}

/-- What holds of the state that the first part leaves, and is kept by the second, holds at the end. -/
theorem snd_andThen {P : σ → Prop} {attempt : Attempt σ α} {next : α → σ → Attempt σ β}
    (h : P attempt.2) (hnext : ∀ answer state, P state → P (next answer state).2) :
    P (attempt.andThen next).2 := by
  obtain ⟨result, state⟩ := attempt
  cases result with
  | error cause => exact h
  | ok answer => exact hnext answer state h

end Attempt

/-! ## Accounts -/

namespace Ledger

theorem activeOffer?_eq_some_iff {ledger : Ledger} {entry : QueueEntry} {offer : Offer} :
    ledger.activeOffer? entry = some offer ↔ ∃ account, ledger.get? entry.owner = some account ∧
      account.activeOffers.get? entry.offer = some offer :=
  Option.bind_eq_some_iff

theorem isLive_eq_true_iff {ledger : Ledger} {entry : QueueEntry} :
    ledger.isLive entry = true ↔ ∃ offer, ledger.activeOffer? entry = some offer :=
  Option.isSome_iff_exists

/-- A change of one account that keeps its offers keeps all offers. -/
theorem activeOffer?_update (ledger : Ledger) (user : UserId)
    {change : Account → Except TradeError Account}
    (hkeep : ∀ {account changed : Account}, change account = .ok changed →
      changed.activeOffers = account.activeOffers) (entry : QueueEntry) :
    (ledger.update user change).2.activeOffer? entry = ledger.activeOffer? entry := by
  rcases ledger.update_cases user change with ⟨cause, hu⟩ | ⟨account, changed, hget, hchange, hu⟩
  · rw [hu]
  · rw [hu]
    unfold activeOffer?
    rw [SortedMap.get?_insert]
    by_cases howner : entry.owner = user
    · rw [if_pos howner, howner, hget]
      show changed.activeOffers.get? entry.offer = account.activeOffers.get? entry.offer
      rw [hkeep hchange]
    · rw [if_neg howner]

theorem activeOffers_withBalance {account changed : Account} {balance : Option Balance}
    (h : account.withBalance balance = .ok changed) :
    changed.activeOffers = account.activeOffers := by
  unfold Account.withBalance at h
  split at h
  · cases h
    rfl
  · cases h

theorem activeOffer?_transfer (ledger : Ledger) (deal : Deal) (entry : QueueEntry) :
    (ledger.transfer deal).2.activeOffer? entry = ledger.activeOffer? entry := by
  unfold transfer
  split
  · rfl
  · split
    · rfl
    · split
      · rfl
      · refine Attempt.snd_andThen (P := fun l : Ledger => l.activeOffer? entry = _)
          (ledger.activeOffer?_update _ activeOffers_withBalance entry) ?_
        intro _ paid hpaid
        exact (activeOffer?_update paid _ activeOffers_withBalance entry).trans hpaid

theorem activeOffer?_enter (ledger : Ledger) (deal : Deal) (entry : QueueEntry) :
    (ledger.enter deal).2.activeOffer? entry = ledger.activeOffer? entry := by
  have hadd : ∀ {account changed : Account},
      (.ok (account.addDeal deal) : Except TradeError Account) = .ok changed →
        changed.activeOffers = account.activeOffers := by
    intro account changed h
    cases h
    rfl
  refine Attempt.snd_andThen (P := fun l : Ledger => l.activeOffer? entry = _)
    (ledger.activeOffer?_update _ hadd entry) ?_
  intro _ entered hentered
  exact (activeOffer?_update entered _ hadd entry).trans hentered

/-- **A settlement leaves the offers alone**, even one that is refused half way. -/
theorem activeOffer?_settle (ledger : Ledger) (deal : Deal) (entry : QueueEntry) :
    (ledger.settle deal).2.activeOffer? entry = ledger.activeOffer? entry := by
  unfold settle
  split
  · exact ledger.activeOffer?_enter deal entry
  · refine Attempt.snd_andThen (P := fun l : Ledger => l.activeOffer? entry = _)
      (ledger.activeOffer?_transfer deal entry) ?_
    intro _ moved hmoved
    exact (activeOffer?_enter moved deal entry).trans hmoved

end Ledger

/-! ## Markets -/

namespace Market

variable {σ : Type}

theorem activeOffer?_deposit (market : Market σ) (user : UserId) (currency : Currency) (amount : Nat)
    (entry : QueueEntry) :
    (market.deposit user currency amount).2.accounts.activeOffer? entry =
      market.accounts.activeOffer? entry := by
  unfold Market.deposit
  split
  · refine market.accounts.activeOffer?_update user ?_ entry
    intro account changed h
    cases currency <;> exact Ledger.activeOffers_withBalance h
  · rfl

/-- A deposit touches neither the books nor the numbers of the offers. -/
theorem books_offerIds_deposit (market : Market σ) (user : UserId) (currency : Currency) (amount : Nat) :
    (market.deposit user currency amount).2.books = market.books ∧
      (market.deposit user currency amount).2.offerIds = market.offerIds := by
  unfold Market.deposit
  split
  · exact ⟨rfl, rfl⟩
  · exact ⟨rfl, rfl⟩

/-- Nor does a withdrawal. -/
theorem books_offerIds_cancel (market : Market σ) (user : UserId) (offer : OfferId) :
    (market.cancel user offer).2.books = market.books ∧
      (market.cancel user offer).2.offerIds = market.offerIds := by
  unfold Market.cancel
  split
  · exact ⟨rfl, rfl⟩
  · exact ⟨rfl, rfl⟩

/-- A withdrawal takes away the offer that it names, if the user has it, and no other. -/
theorem activeOffer?_cancel (market : Market σ) (user : UserId) (offer : OfferId)
    (entry : QueueEntry) :
    (market.cancel user offer).2.accounts.activeOffer? entry =
      if entry = ⟨offer, user⟩ then none else market.accounts.activeOffer? entry := by
  unfold Market.cancel Ledger.activeOffer?
  cases hget : market.accounts.get? user with
  | none =>
    by_cases he : entry = ⟨offer, user⟩
    · simp [he, hget]
    · simp [he]
  | some account =>
    dsimp only
    rw [SortedMap.get?_modify]
    obtain ⟨id, owner⟩ := entry
    by_cases howner : owner = user
    · subst howner
      by_cases hid : id = offer
      · simp [hid, hget, Account.activeOffer?, Account.removeOffer, SortedMap.get?_erase]
      · simp [hid, hget, Account.activeOffer?, Account.removeOffer, SortedMap.get?_erase]
    · simp [howner]

/-- A new account has no offers. -/
theorem activeOffer?_register (market : Market σ) (username : String) (entry : QueueEntry) :
    (market.register username).2.accounts.activeOffer? entry =
      if entry.owner = market.userIds.next then none else market.accounts.activeOffer? entry := by
  unfold Market.register Ledger.activeOffer?
  dsimp only
  rw [SortedMap.get?_insert]
  by_cases hnew : entry.owner = market.userIds.next
  · rw [if_pos hnew, if_pos hnew]
    rfl
  · rw [if_neg hnew, if_neg hnew]

variable [RecordStore σ]

theorem activeOffer?_settle (market : Market σ) (deal : Deal) (entry : QueueEntry) :
    (market.settle deal).2.accounts.activeOffer? entry = market.accounts.activeOffer? entry := by
  rw [← market.accounts.activeOffer?_settle deal entry]
  unfold Market.settle
  split
  case h_1 cause accounts hs => rw [hs]
  case h_2 accounts hs => rw [hs]

theorem offerIds_settle (market : Market σ) (deal : Deal) :
    (market.settle deal).2.offerIds = market.offerIds := by
  unfold Market.settle
  split <;> rfl

end Market

end Bourse
