import Bourse.Proofs.Matching
import Bourse.Proofs.Simulation
import Bourse.Store.Memory

/-!
# `Bourse.Proofs.Independence` — the store has no say

A market tells its store of users, offers and deals, in the middle of registrations, postings and
settlements, and the store may decline any of it. Nothing the market does depends on the answer. Here this is
said by forgetting the store: `Market.forget` puts one that keeps nothing in its place, and every operation,
up to the loop of a matching and its refusals, commutes with that (`Market.forget_apply`). No state is
assumed to be in order.
-/

namespace Bourse

variable {σ : Type}

/-! ## Forgetting the store -/

namespace Market

/-- The market with a store that keeps nothing in place of its own. -/
def forget (market : Market σ) : Market VoidStore where
  accounts := market.accounts
  books := market.books
  quote := market.quote
  userIds := market.userIds
  offerIds := market.offerIds
  dealIds := market.dealIds
  store := {}

@[simp] theorem accounts_forget (market : Market σ) : market.forget.accounts = market.accounts := rfl

@[simp] theorem book_forget (market : Market σ) (side : Side) :
    market.forget.book side = market.book side := rfl

@[simp] theorem dealIds_forget (market : Market σ) : market.forget.dealIds = market.dealIds := rfl

@[simp] theorem vet_forget (market : Market σ) (user : UserId) (side : Side) (price : Price)
    (quantity : Quantity) :
    market.forget.vet user side price quantity = market.vet user side price quantity := rfl

/-- What an operation answers, and the market that it leaves without its store. -/
def forgetIn {α : Type} (result : α × Market σ) : α × Market VoidStore := (result.1, result.2.forget)

theorem forget_andThen {α β : Type} {attempt : Attempt (Market σ) α}
    {next : α → Market σ → Attempt (Market σ) β}
    {next' : α → Market VoidStore → Attempt (Market VoidStore) β}
    (hnext : ∀ answer market, next' answer market.forget = forgetIn (next answer market)) :
    Attempt.andThen (forgetIn attempt) next' = forgetIn (attempt.andThen next) := by
  obtain ⟨result, after⟩ := attempt
  cases result with
  | error cause => rfl
  | ok answer => exact hnext answer after

end Market

/-- The encounter on a market without its store. -/
def Encounter.forget : Encounter σ → Encounter VoidStore
  | .nothing => .nothing
  | .emptyLevel => .emptyLevel
  | .expired after => .expired after.forget
  | .refused cause after => .refused cause after.forget
  | .traded deal taker after => .traded deal taker after.forget

namespace Market

/-! ## Matching -/

theorem forget_returnMaker (market : Market σ) (price : Price) (entry : QueueEntry) (left : Offer)
    (side : Side) :
    market.forget.returnMaker price entry left side =
      (market.returnMaker price entry left side).forget := by
  unfold returnMaker
  split <;> rfl

theorem forget_rest (market : Market σ) (offer : Offer) :
    market.forget.rest offer = forgetIn (market.rest offer) := by
  unfold rest
  rw [accounts_forget]
  generalize market.accounts.update offer.owner _ = updated
  obtain ⟨result, accounts⟩ := updated
  cases result <;> rfl

theorem forget_deposit (market : Market σ) (user : UserId) (currency : Currency) (amount : Nat) :
    market.forget.deposit user currency amount = forgetIn (market.deposit user currency amount) := by
  unfold deposit
  split <;> rfl

theorem forget_cancel (market : Market σ) (user : UserId) (offer : OfferId) :
    market.forget.cancel user offer = forgetIn (market.cancel user offer) := by
  unfold cancel
  rw [accounts_forget]
  cases market.accounts.get? user <;> rfl

variable [RecordStore σ]

theorem forget_settle (market : Market σ) (deal : Deal) :
    market.forget.settle deal = forgetIn (market.settle deal) := by
  unfold settle
  rw [accounts_forget]
  generalize market.accounts.settle deal = settled
  obtain ⟨result, accounts⟩ := settled
  cases result <;> rfl

/-- A trade is made or refused whatever the store says to its deal. -/
theorem forget_strike (market : Market σ) (taker : Offer) (price : Price) (entry : QueueEntry)
    (maker : Offer) :
    market.forget.strike taker price entry maker =
      (market.strike taker price entry maker).forget := by
  have hnumbered : { market.forget with dealIds := market.dealIds.advance } =
      { market with dealIds := market.dealIds.advance }.forget := rfl
  unfold strike
  rw [dealIds_forget]
  cases taker.trade maker market.dealIds.next with
  | error cause => rfl
  | ok trade =>
    dsimp only
    dsimp only at hnumbered
    rw [hnumbered, forget_returnMaker, forget_settle]
    generalize (returnMaker { market with dealIds := market.dealIds.advance } price entry trade.maker
      taker.side.opposite).settle trade.deal = settled
    obtain ⟨result, after⟩ := settled
    cases result <;> rfl

theorem forget_meet (market : Market σ) (taker : Offer) :
    market.forget.meet taker = (market.meet taker).forget := by
  unfold meet
  dsimp only
  rw [book_forget, accounts_forget]
  cases (market.book taker.side.opposite).bestPrice? with
  | none => rfl
  | some price =>
    dsimp only
    split
    · cases (market.book taker.side.opposite).front? price with
      | none => rfl
      | some entry =>
        dsimp only
        cases market.accounts.activeOffer? entry with
        | none => rfl
        | some maker => exact market.forget_strike taker price entry maker
    · rfl

/-- **A matching goes its way whatever the store says**, also where it is refused in the middle. -/
theorem forget_matchTaker (market : Market σ) (taker : Offer) :
    market.forget.matchTaker taker = forgetIn (market.matchTaker taker) := by
  fun_induction market.matchTaker taker with
  | case1 market taker hdone =>
    rw [matchTaker, dif_pos hdone]
    rfl
  | case2 market taker hopen hfound =>
    have hmeet := market.forget_meet taker
    rw [hfound] at hmeet
    exact matchTaker_of_nothing hmeet
  | case3 market taker hopen hfound =>
    have hmeet := market.forget_meet taker
    rw [hfound] at hmeet
    exact matchTaker_of_emptyLevel hmeet
  | case4 market taker hopen after hfound ih =>
    have hmeet := market.forget_meet taker
    rw [hfound] at hmeet
    rw [matchTaker_of_expired (Bool.eq_false_iff.mpr hopen) hmeet]
    exact ih
  | case5 market taker hopen cause after hfound =>
    have hmeet := market.forget_meet taker
    rw [hfound] at hmeet
    exact matchTaker_of_refused (Bool.eq_false_iff.mpr hopen) hmeet
  | case6 market taker hopen deal left after hfound ih =>
    have hmeet := market.forget_meet taker
    rw [hfound] at hmeet
    rw [matchTaker_of_traded (Bool.eq_false_iff.mpr hopen) hmeet, ih]
    exact forget_andThen fun _ _ => rfl

/-! ## Operations -/

theorem forget_post (market : Market σ) (user : UserId) (side : Side) (price : Price)
    (quantity : Quantity) :
    market.forget.post user side price quantity = forgetIn (market.post user side price quantity) := by
  unfold post
  rw [vet_forget]
  cases market.vet user side price quantity with
  | error cause => rfl
  | ok done =>
    have hmatched := forget_matchTaker { market with
      offerIds := market.offerIds.advance
      store := RecordStore.notify market.store
        (Offer.post market.offerIds.next user side price quantity).toRecord }
      (Offer.post market.offerIds.next user side price quantity)
    refine (congrArg (Attempt.andThen · _) hmatched).trans (forget_andThen ?_)
    rintro ⟨last, deals⟩ matched
    dsimp only
    split
    · rfl
    · rw [forget_rest]
      exact forget_andThen fun _ _ => rfl

/-- **An operation on a market does the same whatever store the market has.** -/
theorem forget_apply (market : Market σ) (operation : Operation) :
    market.forget.apply operation = forgetIn (market.apply operation) := by
  cases operation with
  | register username => rfl
  | deposit user currency amount =>
    unfold apply
    dsimp only
    rw [forget_deposit]
    rfl
  | post user side price quantity =>
    unfold apply
    dsimp only
    rw [forget_post]
    rfl
  | cancel user offer =>
    unfold apply
    dsimp only
    rw [forget_cancel]
    rfl
  | quotes => rfl

/-- Without their stores, markets that differ in nothing else are the same and do the same. -/
theorem forgetIn_apply {τ : Type} [RecordStore τ] {market : Market σ} {other : Market τ}
    (h : market.forget = other.forget) (operation : Operation) :
    forgetIn (market.apply operation) = forgetIn (other.apply operation) := by
  rw [← forget_apply, ← forget_apply, h]

/-- Markets that differ in their stores only move in step. -/
theorem lockstep_forget {τ : Type} [RecordStore τ] :
    Lockstep fun (market : Market σ) (other : Market τ) => market.forget = other.forget where
  answer_eq h operation := congrArg (·.1) (forgetIn_apply h operation)
  apply h operation := congrArg (·.2) (forgetIn_apply h operation)
  reported h _ := h
  accounts_eq h := congrArg (·.accounts) h
  quote_eq h := congrArg (·.quote) h

end Market

/-! ## Exchanges -/

namespace Exchange

/-- The exchange with a store that keeps nothing in place of its own. -/
def forget (exchange : Exchange σ) : Exchange VoidStore where
  market := exchange.market.forget
  credentials := exchange.credentials

theorem forget_eq_iff {τ : Type} {exchange : Exchange σ} {other : Exchange τ} :
    exchange.forget = other.forget ↔
      Lifted (fun market market' => market.forget = market'.forget) exchange other := by
  constructor
  · intro h
    exact ⟨congrArg (·.market) h, congrArg (·.credentials) h⟩
  · rintro ⟨hmarket, hcredentials⟩
    unfold forget
    rw [hmarket, hcredentials]

/-- **The store cannot influence the exchange.** Of two exchanges with the same market and the same names,
    each with a store of its own that takes or declines whatever it likes, every event gets the same answer,
    whichever they go through, and they are left with the same market and the same names again. -/
theorem run_eq_of_forget_eq {τ : Type} [RecordStore σ] [RecordStore τ] {exchange : Exchange σ}
    {other : Exchange τ} (h : exchange.forget = other.forget) (events : List Event) :
    (exchange.run events).1 = (other.run events).1 ∧
      (exchange.run events).2.forget = (other.run events).2.forget := by
  obtain ⟨hanswers, hafter⟩ := (forget_eq_iff.mp h).run Market.lockstep_forget events
  exact ⟨hanswers, forget_eq_iff.mpr hafter⟩

/-- One store keeps everything, the other cannot be reached. -/
theorem run_eq_of_forget_eq_of_closed :
    let kept : Exchange MemoryStore := { market := { store := {} } }
    let lost : Exchange ClosedStore := { market := { store := ⟨"offline", .ok none⟩ } }
    let events : List Exchange.Event := [.request (.register "a" 1), .register "b" 2,
      .request (.postOffer 0 .sell 5 3), .market (.post 1 .buy 6 4), .request (.closedDeals 1)]
    (kept.run events).1 = (lost.run events).1 ∧
      (kept.run events).2.forget = (lost.run events).2.forget ∧
      (lost.run events).1[3]? =
        some (.market (.posted (.ok ⟨1, [⟨0, 0, 1, 0, 1, 5, 3⟩], 1⟩))) ∧
      (kept.run events).2.market.store.log.length = 5 := by
  intro kept lost events
  have hsame : kept.forget = lost.forget := rfl
  obtain ⟨hanswers, hafter⟩ := run_eq_of_forget_eq hsame events
  exact ⟨hanswers, hafter, by decide +kernel, by decide +kernel⟩

end Exchange

end Bourse
