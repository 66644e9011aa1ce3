import Bourse.Exchange.Run
import Bourse.Proofs.Posting
import Bourse.Store.Memory

/-!
# `Bourse.Proofs.Refusal` — a refused request leaves no trace

An attempt gives the state that it leaves even when it is refused, and most operations could be refused
after they have changed something. `Attempt.Clean` says that this does not happen. A posting is clean on a
sound market only, where none of its late refusals can occur; the market of an exchange is always sound
(`Exchange.Reachable.sound`).
-/

namespace Bourse

/-! ## Clean attempts -/

namespace Attempt

variable {σ α β : Type}

/-- The attempt, made in `state`, leaves `state` when it is refused. -/
def Clean (attempt : Attempt σ α) (state : σ) : Prop :=
  ∀ cause, attempt.1 = .error cause → attempt.2 = state

/-- A question changes nothing, whatever the answer. -/
theorem clean_mk (result : Except TradeError α) (state : σ) : Clean (result, state) state :=
  fun _ _ => rfl

theorem clean_ok (answer : α) (after state : σ) : Clean (.ok answer, after) state := nofun

theorem Clean.map {attempt : Attempt σ α} {state : σ} (h : attempt.Clean state) (f : α → β) :
    Clean (attempt.1.map f, attempt.2) state := by
  intro cause hmap
  refine h cause ?_
  dsimp only at hmap
  cases hresult : attempt.1 with
  | error c =>
    rw [hresult] at hmap
    exact congrArg _ (Except.error.inj hmap)
  | ok a =>
    rw [hresult] at hmap
    cases hmap

end Attempt

/-! ## Markets -/

namespace Market

variable {σ : Type}

theorem clean_deposit (market : Market σ) (user : UserId) (currency : Currency) (amount : Nat) :
    (market.deposit user currency amount).Clean market := by
  rcases market.deposit_cases user currency amount with ⟨cause, hd⟩ | ⟨account, -, -, hd⟩
  · rw [hd]
    exact Attempt.clean_mk _ _
  · rw [hd]
    exact Attempt.clean_ok _ _ _

theorem clean_cancel (market : Market σ) (user : UserId) (offer : OfferId) :
    (market.cancel user offer).Clean market := by
  unfold cancel
  cases market.accounts.get? user with
  | none => exact Attempt.clean_mk _ _
  | some account => exact Attempt.clean_ok _ _ _

variable [RecordStore σ]

/-- **A posting on a sound market is refused before it changes anything.** -/
theorem Sound.clean_post {market : Market σ} (h : market.Sound) (user : UserId) (side : Side)
    (price : Price) (quantity : Quantity) :
    (market.post user side price quantity).Clean market := by
  rcases h.post_cases user side price quantity with
    ⟨cause, -, hp⟩ | ⟨-, last, matched, after, -, -, hp⟩
  · rw [hp]
    exact Attempt.clean_mk _ _
  · rw [hp]
    exact Attempt.clean_ok _ _ _

end Market

/-- The operation was refused. -/
def Answer.IsRefusal : Answer → Prop
  | .registered _ => False
  | .deposited result => ∃ cause, result = .error cause
  | .posted result => ∃ cause, result = .error cause
  | .canceled result => ∃ cause, result = .error cause
  | .quoted _ => False

theorem Market.Sound.apply_eq_of_isRefusal {σ : Type} [RecordStore σ] {market : Market σ}
    (h : market.Sound) {operation : Operation} (hrefusal : (market.apply operation).1.IsRefusal) :
    (market.apply operation).2 = market := by
  cases operation with
  | register username => exact hrefusal.elim
  | deposit user currency amount =>
    obtain ⟨cause, hcause⟩ := hrefusal
    exact market.clean_deposit user currency amount cause hcause
  | post user side price quantity =>
    obtain ⟨cause, hcause⟩ := hrefusal
    exact h.clean_post user side price quantity cause hcause
  | cancel user offer =>
    obtain ⟨cause, hcause⟩ := hrefusal
    exact market.clean_cancel user offer cause hcause
  | quotes => exact hrefusal.elim

/-! ## Exchanges -/

namespace Exchange

variable {σ : Type}

/-- What is clean on the market is clean on the exchange. -/
theorem clean_onMarket {α : Type} {exchange : Exchange σ}
    {operation : Market σ → Attempt (Market σ) α}
    (h : (operation exchange.market).Clean exchange.market) :
    Attempt.Clean (exchange.onMarket operation) exchange := by
  intro cause hcause
  unfold onMarket
  dsimp only
  rw [h cause hcause]

variable [RecordStore σ]

/-- **A request that is refused has changed nothing.** -/
theorem clean_perform {exchange : Exchange σ} (h : exchange.market.Sound) (request : Request) :
    (exchange.perform request).Clean exchange := by
  cases request with
  | register username passwordHash => exact Attempt.clean_ok _ _ _
  | login username passwordHash => exact Attempt.clean_mk _ _
  | balance user => exact Attempt.clean_mk _ _
  | activeOffers user => exact Attempt.clean_mk _ _
  | closedDeals user => exact Attempt.clean_mk _ _
  | postOffer user side price amount =>
    exact (clean_onMarket (h.clean_post user side price amount)).map _
  | quotes user =>
    unfold perform
    dsimp only
    cases exchange.market.account user with
    | error cause => exact Attempt.clean_mk _ _
    | ok account => exact Attempt.clean_ok _ _ _
  | cancel user offer => exact (clean_onMarket (exchange.market.clean_cancel user offer)).map _
  | deposit user currency amount =>
    unfold perform onMarket
    dsimp only
    rcases exchange.market.deposit_cases user currency amount with
      ⟨cause, hd⟩ | ⟨account, hget, -, hd⟩
    · rw [hd]
      exact Attempt.clean_mk _ _
    · -- a user who has made a deposit has a balance that can be told
      have hafter : ∃ changed, (exchange.market.accounts.modify user fun account =>
          { account with balance := account.balance.plus currency amount }).get? user =
            some changed := by
        rw [SortedMap.modify_eq_insert hget, SortedMap.get?_insert, if_pos rfl]
        exact ⟨_, rfl⟩
      obtain ⟨changed, hafter⟩ := hafter
      rw [hd, Attempt.andThen_ok]
      unfold Market.balance Market.account Ledger.account
      dsimp only
      rw [hafter]
      exact Attempt.clean_ok _ _ _

/-- A request that is carried out is not answered with an error. -/
theorem ne_error_of_perform {exchange after : Exchange σ} {request : Request} {response : Response}
    (h : exchange.perform request = (.ok response, after)) (message : String) :
    response ≠ .error message := by
  rintro rfl
  -- an answer that is made out of another is none
  have hmap : ∀ {α : Type} (result : Except TradeError α) (f : α → Response),
      (∀ a, f a ≠ .error message) → result.map f ≠ .ok (.error message) := by
    intro α result f hf he
    cases result with
    | error cause => cases he
    | ok a => exact hf a (Except.ok.inj he)
  have hfirst := congrArg (·.1) h
  cases request with
  | register username passwordHash => cases hfirst
  | login username passwordHash => cases hfirst
  | balance user => exact hmap _ (fun b : Balance => .balance b.usd b.rub) (fun _ => nofun) hfirst
  | activeOffers user => exact hmap _ .ofOffers (fun _ => nofun) hfirst
  | closedDeals user => exact hmap _ (.ofDeals user) (fun _ => nofun) hfirst
  | postOffer user side price amount =>
    exact hmap _ (fun posting : Posting => .postOffer posting.offer) (fun _ => nofun) hfirst
  | quotes user =>
    unfold perform at hfirst
    dsimp only at hfirst
    cases hget : exchange.market.account user with
    | error cause =>
      rw [hget] at hfirst
      cases hfirst
    | ok account =>
      rw [hget] at hfirst
      cases hfirst
  | cancel user offer => exact hmap _ .cancel (fun _ => nofun) hfirst
  | deposit user currency amount =>
    unfold perform onMarket at hfirst
    dsimp only at hfirst
    rcases exchange.market.deposit_cases user currency amount with ⟨cause, hd⟩ | ⟨account, -, -, hd⟩
    · rw [hd] at hfirst
      cases hfirst
    · rw [hd, Attempt.andThen_ok] at hfirst
      exact hmap _ (fun b : Balance => .deposit b.usd b.rub) (fun _ => nofun) hfirst

theorem handle_snd (exchange : Exchange σ) (request : Request) :
    (exchange.handle request).2 = (exchange.perform request).2 := by
  unfold handle
  split
  case h_1 hp => rw [hp]
  case h_2 hp => rw [hp]

/-! ### Reachable exchanges -/

theorem sound_register {exchange : Exchange σ} (h : exchange.market.Sound) (username : String)
    (passwordHash : Nat) : (exchange.register username passwordHash).2.market.Sound := by
  unfold register
  split
  · exact h
  · exact (h.register username).reported _ _

theorem sound_perform {exchange : Exchange σ} (h : exchange.market.Sound) (request : Request) :
    (exchange.perform request).2.market.Sound := by
  cases request with
  | register username passwordHash => exact sound_register h username passwordHash
  | login username passwordHash => exact h
  | balance user => exact h
  | activeOffers user => exact h
  | closedDeals user => exact h
  | postOffer user side price amount => exact h.post user side price amount
  | quotes user =>
    unfold perform
    dsimp only
    cases exchange.market.account user with
    | error cause => exact h
    | ok account => exact h.quotes
  | cancel user offer => exact h.cancel user offer
  | deposit user currency amount =>
    unfold perform onMarket
    dsimp only
    rcases exchange.market.deposit_cases user currency amount with ⟨cause, hd⟩ | ⟨account, -, -, hd⟩
    · rw [hd]
      exact h
    · have hsound := h.deposit user currency amount
      rw [hd] at hsound ⊢
      exact hsound

theorem sound_apply {exchange : Exchange σ} (h : exchange.market.Sound) (event : Event) :
    (exchange.apply event).2.market.Sound := by
  cases event with
  | request r =>
    show (exchange.handle r).2.market.Sound
    rw [handle_snd]
    exact sound_perform h r
  | register username passwordHash => exact sound_register h username passwordHash
  | market operation => exact h.apply operation

/-- **The market of every reachable exchange is sound.** -/
theorem Reachable.sound {exchange : Exchange σ} (h : exchange.Reachable) : exchange.market.Sound := by
  induction h with
  | start hs => exact hs.sound
  | apply _ event ih => exact sound_apply ih event

/-- **A refused request leaves no trace**, and neither does a refused operation of the market. -/
theorem refused_unchanged :
    (∀ {exchange : Exchange σ}, exchange.Reachable → ∀ (request : Request) (message : String),
      (exchange.handle request).1 = .error message → (exchange.handle request).2 = exchange) ∧
    (∀ {market : Market σ}, market.Reachable → ∀ operation : Operation,
      (market.apply operation).1.IsRefusal → (market.apply operation).2 = market) := by
  refine ⟨fun {exchange} h request message herror => ?_, fun h operation hrefusal => ?_⟩
  · cases hp : exchange.perform request with
    | mk result after =>
      cases result with
      | error cause =>
        have hclean := clean_perform h.sound request cause (congrArg (·.1) hp)
        rw [handle_snd]
        exact hclean
      | ok response =>
        unfold handle at herror
        rw [hp] at herror
        exact absurd herror (ne_error_of_perform hp message)
  · exact h.sound.apply_eq_of_isRefusal hrefusal

/-- A user whose account is full asks to buy, and nobody asks to withdraw an offer. -/
theorem refused_unchanged_of_full_account :
    ∃ exchange : Exchange MemoryStore, exchange.Reachable ∧
      exchange.handle (.postOffer 1 .buy 5 2) = (.error "balance of user 1 would overflow", exchange) ∧
      exchange.market.apply (.cancel 2 0) = (.canceled (.error (.unknownUser 2)), exchange.market) := by
  let start : Market MemoryStore := { store := {} }
  let market := (start.run [.register "a", .register "b", .deposit 1 .usd 0x7fffffffffffffff,
    .post 0 .sell 5 3]).2
  have hreachable : market.Reachable := Market.Reachable.run (.start (rfl : Market.start _ false = _)) _
  have herror : (Exchange.handle { market } (.postOffer 1 .buy 5 2)).1 =
      .error "balance of user 1 would overflow" := by decide +kernel
  have hcancel : (market.apply (.cancel 2 0)).1 = .canceled (.error (.unknownUser 2)) := by
    decide +kernel
  have hrefusal : (market.apply (.cancel 2 0)).1.IsRefusal := by
    rw [hcancel]
    exact ⟨_, rfl⟩
  exact ⟨{ market }, .start hreachable,
    Prod.ext herror (refused_unchanged.1 (.start hreachable) _ _ herror),
    Prod.ext hcancel (refused_unchanged.2 hreachable _ hrefusal)⟩

end Exchange

end Bourse
