import Bourse.Proofs.Refusal

/-!
# `Bourse.Proofs.Strangers` — who has no account is refused

Whoever names a user without an account is refused, whatever else they ask, and nothing changes. The cause
is that the user is unknown, with one exception: the amount of a deposit is looked at before the user is, so
a deposit of more than an account can ever hold is refused as one that takes a balance out of range.

* `TradeError.ofStranger` is the cause, in terms of the amount that is to be deposited, if any.
* `handle_of_stranger` says it of the requests of an exchange, `apply_of_stranger` of the operations of a
  market.
-/

namespace Bourse

/-! ## Who is named -/

/-- The user whom a request names. -/
def Request.user? : Request → Option UserId
  | .register _ _ => none
  | .login _ _ => none
  | .balance user => some user
  | .activeOffers user => some user
  | .closedDeals user => some user
  | .postOffer user _ _ _ => some user
  | .quotes user => some user
  | .cancel user _ => some user
  | .deposit user _ _ => some user

/-- The amount that a request asks to deposit. -/
def Request.amount? : Request → Option Nat
  | .deposit _ _ amount => some amount
  | _ => none

/-- The user whom an operation names. -/
def Operation.user? : Operation → Option UserId
  | .register _ => none
  | .deposit user _ _ => some user
  | .post user _ _ _ => some user
  | .cancel user _ => some user
  | .quotes => none

/-- The amount that an operation deposits. -/
def Operation.amount? : Operation → Option Nat
  | .deposit _ _ amount => some amount
  | _ => none

/-- Why an operation was refused, if it was. -/
def Answer.cause? : Answer → Option TradeError
  | .registered _ => none
  | .deposited (.error cause) => some cause
  | .posted (.error cause) => some cause
  | .canceled (.error cause) => some cause
  | .deposited (.ok _) => none
  | .posted (.ok _) => none
  | .canceled (.ok _) => none
  | .quoted _ => none

/-- Why a user without an account is refused who asks to deposit the amount, if there is one. -/
def TradeError.ofStranger (user : UserId) (amount? : Option Nat) : TradeError :=
  match amount? with
  | none => .unknownUser user
  | some amount => if Amount.InRange amount then .unknownUser user else .balanceOutOfRange user

/-! ## Markets -/

namespace Market

variable {σ : Type} {market : Market σ} {user : UserId}

theorem account_of_stranger (h : market.accounts.get? user = none) :
    market.account user = .error (.unknownUser user) := by
  unfold account Ledger.account
  rw [h]

theorem deposit_of_stranger (h : market.accounts.get? user = none) (currency : Currency)
    (amount : Nat) :
    market.deposit user currency amount = (.error (.ofStranger user (some amount)), market) := by
  unfold deposit TradeError.ofStranger Ledger.update
  dsimp only
  by_cases hrange : Amount.InRange amount
  · rw [if_pos hrange, if_pos hrange, h]
  · rw [if_neg hrange, if_neg hrange]

theorem cancel_of_stranger (h : market.accounts.get? user = none) (offer : OfferId) :
    market.cancel user offer = (.error (.unknownUser user), market) := by
  unfold cancel
  rw [h]

variable [RecordStore σ]

theorem post_of_stranger (h : market.accounts.get? user = none) (side : Side) (price : Price)
    (quantity : Quantity) :
    market.post user side price quantity = (.error (.unknownUser user), market) := by
  unfold post vet
  rw [account_of_stranger h]

theorem apply_of_stranger (h : market.accounts.get? user = none) {operation : Operation}
    (huser : operation.user? = some user) :
    (market.apply operation).1.cause? = some (.ofStranger user operation.amount?) ∧
      (market.apply operation).2 = market := by
  cases operation with
  | register username => cases huser
  | deposit user currency amount =>
    cases huser
    unfold apply
    dsimp only
    rw [deposit_of_stranger h]
    exact ⟨rfl, rfl⟩
  | post user side price quantity =>
    cases huser
    unfold apply
    dsimp only
    rw [post_of_stranger h]
    exact ⟨rfl, rfl⟩
  | cancel user offer =>
    cases huser
    unfold apply
    dsimp only
    rw [cancel_of_stranger h]
    exact ⟨rfl, rfl⟩
  | quotes => cases huser

end Market

/-! ## Exchanges -/

namespace Exchange

variable {σ : Type} [RecordStore σ] {exchange : Exchange σ} {user : UserId}

theorem perform_of_stranger (h : exchange.market.accounts.get? user = none) {request : Request}
    (huser : request.user? = some user) :
    exchange.perform request = (.error (.ofStranger user request.amount?), exchange) := by
  unfold perform onMarket
  cases request with
  | register username passwordHash => cases huser
  | login username passwordHash => cases huser
  | balance user =>
    cases huser
    dsimp only [Market.balance]
    rw [Market.account_of_stranger h]
    rfl
  | activeOffers user =>
    cases huser
    dsimp only [Market.activeOffers]
    rw [Market.account_of_stranger h]
    rfl
  | closedDeals user =>
    cases huser
    dsimp only [Market.closedDeals]
    rw [Market.account_of_stranger h]
    rfl
  | postOffer user side price amount =>
    cases huser
    dsimp only
    rw [Market.post_of_stranger h]
    rfl
  | quotes user =>
    cases huser
    dsimp only
    rw [Market.account_of_stranger h]
    rfl
  | cancel user offer =>
    cases huser
    dsimp only
    rw [Market.cancel_of_stranger h]
    rfl
  | deposit user currency amount =>
    cases huser
    dsimp only
    rw [Market.deposit_of_stranger h]
    rfl

theorem handle_of_stranger (h : exchange.market.accounts.get? user = none) {request : Request}
    (huser : request.user? = some user) :
    exchange.handle request =
      (.error (TradeError.ofStranger user request.amount?).message, exchange) := by
  unfold handle
  rw [perform_of_stranger h huser]

/-- **Who has no account is refused, and nothing changes.** Each request and each operation of the market
    that names such a user is refused because the user is unknown, except that a deposit of an amount out of
    range is refused for that; and no question about the user is answered. -/
theorem stranger_refused (exchange : Exchange σ) (user : UserId)
    (h : exchange.market.accounts.get? user = none) :
    (∀ request : Request, request.user? = some user →
      exchange.handle request =
        (.error (TradeError.ofStranger user request.amount?).message, exchange)) ∧
    (∀ operation : Operation, operation.user? = some user →
      (exchange.market.apply operation).1.cause? = some (.ofStranger user operation.amount?) ∧
        (exchange.market.apply operation).2 = exchange.market) ∧
    exchange.market.account user = .error (.unknownUser user) ∧
    exchange.market.balance user = .error (.unknownUser user) ∧
    exchange.market.activeOffers user = .error (.unknownUser user) ∧
    exchange.market.closedDeals user = .error (.unknownUser user) := by
  refine ⟨fun request huser => handle_of_stranger h huser,
    fun operation huser => Market.apply_of_stranger h huser, Market.account_of_stranger h, ?_⟩
  unfold Market.balance Market.activeOffers Market.closedDeals
  rw [Market.account_of_stranger h]
  exact ⟨rfl, rfl, rfl⟩

/-- On a market with one user, somebody else asks for quotes and then deposits too much. -/
theorem stranger_refused_of_other_user :
    ∃ exchange : Exchange VoidStore, exchange.Reachable ∧
      exchange.market.accounts.get? 7 = none ∧
      exchange.handle (.quotes 7) = (.error "unknown user id 7", exchange) ∧
      exchange.handle (.deposit 7 .usd 0x8000000000000000) =
        (.error "balance of user 7 would overflow", exchange) := by
  let start : Market VoidStore := { store := {} }
  let market := (start.run [.register "a", .post 0 .sell 5 3]).2
  have hreachable : market.Reachable := Market.Reachable.run (.start (rfl : Market.start _ false = _)) _
  have hunknown : market.accounts.get? 7 = none := by decide +kernel
  refine ⟨{ market }, .start hreachable, hunknown, ?_, ?_⟩
  · exact (stranger_refused { market } 7 hunknown).1 (.quotes 7) rfl
  · exact (stranger_refused { market } 7 hunknown).1 (.deposit 7 .usd 0x8000000000000000) rfl

/-- It is not so that whoever has no account is told that they are unknown. -/
theorem not_forall_stranger_unknown :
    ¬∀ exchange : Exchange VoidStore, exchange.Reachable → ∀ user : UserId,
      exchange.market.accounts.get? user = none → ∀ request : Request, request.user? = some user →
        exchange.handle request = (.error (TradeError.unknownUser user).message, exchange) := by
  intro hall
  let start : Market VoidStore := { store := {} }
  have hreachable : start.Reachable := .start (rfl : Market.start _ false = _)
  have hanswer := hall { market := start } (.start hreachable) 7 rfl
    (.deposit 7 .usd 0x8000000000000000) rfl
  have hne : (Exchange.handle { market := start } (.deposit 7 .usd 0x8000000000000000)).1 ≠
      .error (TradeError.unknownUser 7).message := by decide +kernel
  exact hne (congrArg (·.1) hanswer)

end Exchange

end Bourse
