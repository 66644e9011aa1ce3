import Bourse.Exchange.Run

/-!
# `Bourse.Proofs.Simulation` — two exchanges that move in step

To show that something cannot be observed, one relates the states that differ in nothing else and shows that
related states answer alike and stay related. For markets this is a `Market.Lockstep`. An exchange sees of
its market nothing but the answers to operations, the accounts and the last price, so a lockstep of markets
is one of exchanges too, with the same names in both (`Exchange.Lifted.run`).
-/

namespace Bourse

variable {σ τ : Type} [RecordStore σ] [RecordStore τ]

/-! ## Markets -/

namespace Market

/-- Related markets give the same answer to every operation and stay related, also when their stores are told
    of a row. What can be read off them without an operation is the same. -/
structure Lockstep (R : Market σ → Market τ → Prop) : Prop where
  answer_eq : ∀ {market : Market σ} {other : Market τ}, R market other → ∀ operation : Operation,
    (market.apply operation).1 = (other.apply operation).1
  apply : ∀ {market : Market σ} {other : Market τ}, R market other → ∀ operation : Operation,
    R (market.apply operation).2 (other.apply operation).2
  reported : ∀ {market : Market σ} {other : Market τ}, R market other → ∀ row : Record,
    R { market with store := RecordStore.notify market.store row }
      { other with store := RecordStore.notify other.store row }
  accounts_eq : ∀ {market : Market σ} {other : Market τ}, R market other →
    market.accounts = other.accounts
  quote_eq : ∀ {market : Market σ} {other : Market τ}, R market other → market.quote = other.quote

namespace Lockstep

variable {R : Market σ → Market τ → Prop} {market : Market σ} {other : Market τ}

theorem register_eq (hR : Lockstep R) (h : R market other) (username : String) :
    (market.register username).1 = (other.register username).1 :=
  Answer.registered.inj (hR.answer_eq h (.register username))

theorem deposit_eq (hR : Lockstep R) (h : R market other) (user : UserId) (currency : Currency)
    (amount : Nat) :
    (market.deposit user currency amount).1 = (other.deposit user currency amount).1 :=
  Answer.deposited.inj (hR.answer_eq h (.deposit user currency amount))

theorem post_eq (hR : Lockstep R) (h : R market other) (user : UserId) (side : Side) (price : Price)
    (quantity : Quantity) :
    (market.post user side price quantity).1 = (other.post user side price quantity).1 :=
  Answer.posted.inj (hR.answer_eq h (.post user side price quantity))

theorem cancel_eq (hR : Lockstep R) (h : R market other) (user : UserId) (offer : OfferId) :
    (market.cancel user offer).1 = (other.cancel user offer).1 :=
  Answer.canceled.inj (hR.answer_eq h (.cancel user offer))

theorem quotes_eq (hR : Lockstep R) (h : R market other) : market.quotes.1 = other.quotes.1 :=
  Answer.quoted.inj (hR.answer_eq h .quotes)

theorem account_eq (hR : Lockstep R) (h : R market other) (user : UserId) :
    market.account user = other.account user :=
  congrArg (·.account user) (hR.accounts_eq h)

/-- The queries about a user are answered from the account. -/
theorem balance_eq (hR : Lockstep R) (h : R market other) (user : UserId) :
    market.balance user = other.balance user :=
  congrArg (Except.map fun account : Account => account.balance) (hR.account_eq h user)

theorem activeOffers_eq (hR : Lockstep R) (h : R market other) (user : UserId) :
    market.activeOffers user = other.activeOffers user :=
  congrArg (Except.map fun account : Account => account.activeOffers.values) (hR.account_eq h user)

theorem closedDeals_eq (hR : Lockstep R) (h : R market other) (user : UserId) :
    market.closedDeals user = other.closedDeals user :=
  congrArg (Except.map fun account : Account => account.closedDeals.values) (hR.account_eq h user)

end Lockstep

end Market

/-! ## Exchanges -/

namespace Exchange

open Market (Lockstep)

/-- The markets are related and the names are the same. -/
structure Lifted (R : Market σ → Market τ → Prop) (exchange : Exchange σ) (other : Exchange τ) :
    Prop where
  market : R exchange.market other.market
  credentials_eq : exchange.credentials = other.credentials

variable {R : Market σ → Market τ → Prop} {exchange : Exchange σ} {other : Exchange τ}

omit [RecordStore σ] [RecordStore τ] in
/-- The names registered are the same, so a name logs in alike. -/
theorem Lifted.login_eq (h : Lifted R exchange other) (username : String) (passwordHash : Nat) :
    exchange.login username passwordHash = other.login username passwordHash := by
  unfold login
  rw [h.credentials_eq]

omit [RecordStore σ] [RecordStore τ] in
theorem Lifted.withMarket (h : Lifted R exchange other) {market : Market σ} {market' : Market τ}
    (hmarket : R market market') :
    Lifted R { exchange with market } { other with market := market' } :=
  ⟨hmarket, h.credentials_eq⟩

theorem Lifted.register (h : Lifted R exchange other) (hR : Lockstep R) (username : String)
    (passwordHash : Nat) :
    (exchange.register username passwordHash).1 = (other.register username passwordHash).1 ∧
      Lifted R (exchange.register username passwordHash).2
        (other.register username passwordHash).2 := by
  have hid := hR.register_eq h.market username
  unfold Exchange.register
  rw [h.credentials_eq]
  split
  · exact ⟨rfl, h⟩
  · have hopened := hR.apply h.market (.register username)
    dsimp only
    rw [hid]
    exact ⟨rfl, hR.reported hopened _, rfl⟩

/-- **A request is carried out alike**, or refused for the same reason. -/
theorem Lifted.perform (h : Lifted R exchange other) (hR : Lockstep R) (request : Request) :
    (exchange.perform request).1 = (other.perform request).1 ∧
      Lifted R (exchange.perform request).2 (other.perform request).2 := by
  unfold Exchange.perform onMarket
  cases request with
  | register username passwordHash =>
    obtain ⟨hid, hafter⟩ := h.register hR username passwordHash
    dsimp only
    rw [hid]
    exact ⟨rfl, hafter⟩
  | login username passwordHash =>
    dsimp only
    rw [h.login_eq]
    exact ⟨rfl, h⟩
  | balance user =>
    dsimp only
    rw [hR.balance_eq h.market]
    exact ⟨rfl, h⟩
  | activeOffers user =>
    dsimp only
    rw [hR.activeOffers_eq h.market]
    exact ⟨rfl, h⟩
  | closedDeals user =>
    dsimp only
    rw [hR.closedDeals_eq h.market]
    exact ⟨rfl, h⟩
  | postOffer user side price amount =>
    dsimp only
    rw [hR.post_eq h.market]
    exact ⟨rfl, h.withMarket (hR.apply h.market (.post user side price amount))⟩
  | quotes user =>
    dsimp only
    rw [hR.account_eq h.market]
    cases other.market.account user with
    | error cause => exact ⟨rfl, h⟩
    | ok account =>
      have hafter : R exchange.market.quotes.2 other.market.quotes.2 := hR.apply h.market .quotes
      dsimp only
      rw [hR.quotes_eq h.market, hR.quote_eq hafter]
      exact ⟨rfl, h.withMarket hafter⟩
  | cancel user offer =>
    dsimp only
    rw [hR.cancel_eq h.market]
    exact ⟨rfl, h.withMarket (hR.apply h.market (.cancel user offer))⟩
  | deposit user currency amount =>
    have hafter : R (exchange.market.deposit user currency amount).2
        (other.market.deposit user currency amount).2 :=
      hR.apply h.market (.deposit user currency amount)
    dsimp only
    rw [hR.deposit_eq h.market]
    cases (other.market.deposit user currency amount).1 with
    | error cause => exact ⟨rfl, h.withMarket hafter⟩
    | ok done =>
      -- the new balance is read off the accounts that the deposit leaves
      rw [Attempt.andThen_ok, Attempt.andThen_ok]
      dsimp only
      rw [hR.balance_eq hafter]
      exact ⟨rfl, h.withMarket hafter⟩

theorem Lifted.handle (h : Lifted R exchange other) (hR : Lockstep R) (request : Request) :
    (exchange.handle request).1 = (other.handle request).1 ∧
      Lifted R (exchange.handle request).2 (other.handle request).2 := by
  obtain ⟨hresult, hafter⟩ := h.perform hR request
  unfold Exchange.handle
  generalize exchange.perform request = attempt at hresult hafter ⊢
  generalize other.perform request = attempt' at hresult hafter ⊢
  obtain ⟨result, after⟩ := attempt
  obtain ⟨result', after'⟩ := attempt'
  dsimp only at hresult
  subst hresult
  cases result with
  | error cause => exact ⟨rfl, hafter⟩
  | ok response => exact ⟨rfl, hafter⟩

/-- Whatever happens to related exchanges, the same comes back and they stay related. -/
theorem Lifted.apply (h : Lifted R exchange other) (hR : Lockstep R) (event : Event) :
    (exchange.apply event).1 = (other.apply event).1 ∧
      Lifted R (exchange.apply event).2 (other.apply event).2 := by
  unfold Exchange.apply
  cases event with
  | request r =>
    obtain ⟨hresponse, hafter⟩ := h.handle hR r
    exact ⟨congrArg EventAnswer.response hresponse, hafter⟩
  | register username passwordHash =>
    obtain ⟨hid, hafter⟩ := h.register hR username passwordHash
    exact ⟨congrArg EventAnswer.registered hid, hafter⟩
  | market operation =>
    exact ⟨congrArg EventAnswer.market (hR.answer_eq h.market operation),
      h.withMarket (hR.apply h.market operation)⟩

/-- **A run of related exchanges gives the same answers and leaves them related.** -/
theorem Lifted.run (h : Lifted R exchange other) (hR : Lockstep R) (events : List Event) :
    (exchange.run events).1 = (other.run events).1 ∧
      Lifted R (exchange.run events).2 (other.run events).2 := by
  induction events generalizing exchange other with
  | nil => exact ⟨rfl, h⟩
  | cons event rest ih =>
    obtain ⟨hanswer, hnext⟩ := h.apply hR event
    obtain ⟨hanswers, hafter⟩ := ih hnext
    rw [run_cons, run_cons, hanswer, hanswers]
    exact ⟨rfl, hafter⟩

end Exchange

end Bourse
