import Bourse.Proofs.Settlement
import Bourse.Store.Memory

/-!
# `Bourse.Proofs.Atomicity` — a deal is settled as a whole or not at all

A settlement takes several steps and each of them may refuse, the later ones after a balance has changed. What
makes it one step is that the seller is looked at before the buyer pays: once the buyer has paid, nothing is
left that could refuse. So a settlement that is refused is refused before any account has changed
(`Ledger.transfer_refused`, `Ledger.settle_refused`), and it is refused exactly if a party has no account or
cannot bear the deal.

`Market.settle_all_or_nothing` says so of every ledger, whether or not a market can get there.
-/

namespace Bourse

theorem Account.withBalance_eq_ok_iff {account changed : Account} {balance? : Option Balance} :
    account.withBalance balance? = .ok changed ↔
      ∃ balance, balance? = some balance ∧ changed = { account with balance } := by
  cases balance? with
  | none => simp [withBalance]
  | some balance => simp [withBalance, eq_comm]

namespace Ledger

/-! ## Refusals -/

/-- Both parties have accounts, can be looked up, and can bear what the steps of a transfer ask of them. -/
theorem canSettle_of_steps {ledger : Ledger} {deal : Deal} {buyer seller paid : Account}
    {cost : Int} {sold : Balance} (hself : deal.isSelfTrade = false)
    (hcost : deal.notional? = some cost) (hb : ledger.get? deal.buyer = some buyer)
    (hbuy : buyer.buy deal.quantity cost = .ok paid) (hs : ledger.get? deal.seller = some seller)
    (hsold : seller.balance.sold? deal.quantity cost = some sold) : ledger.CanSettle deal := by
  obtain ⟨hquantity, hrange, rfl⟩ := Amount.notional?_eq_some_iff.mp hcost
  obtain ⟨bought, hbought, -⟩ := Account.withBalance_eq_ok_iff.mp hbuy
  refine ⟨by simp [hb], by simp [hs], fun _ => ⟨hquantity, hrange⟩, fun _ => ⟨?_, ?_⟩⟩
  · rw [Deal.balancesAfter_buyer hself, balanceOf_of_get? hb]
    exact (Balance.checked?_eq_some_iff.mp hbought).1
  · rw [Deal.balancesAfter_seller hself, balanceOf_of_get? hs]
    exact (Balance.checked?_eq_some_iff.mp hsold).1

/-- A transfer that a party cannot bear is refused before any balance has changed. -/
theorem transfer_refused {ledger : Ledger} {deal : Deal} (hself : deal.isSelfTrade = false)
    (h : ¬ledger.CanSettle deal) : ∃ cause, ledger.transfer deal = (.error cause, ledger) := by
  unfold transfer
  cases hcost : deal.notional? with
  | none => exact ⟨_, rfl⟩
  | some cost =>
    cases hs : ledger.get? deal.seller with
    | none => exact ⟨_, rfl⟩
    | some seller =>
      cases hsold : seller.balance.sold? deal.quantity cost with
      | none => exact ⟨.balanceOutOfRange deal.seller, by simp [hsold]⟩
      | some sold =>
        -- the seller can bear it, so it must be the buyer's change that is refused
        rcases ledger.update_cases deal.buyer (·.buy deal.quantity cost) with
          ⟨cause, hrefused⟩ | ⟨buyer, paid, hb, hbuy, -⟩
        · exact ⟨cause, by simp [hsold, hrefused]⟩
        · exact absurd (canSettle_of_steps hself hcost hb hbuy hs hsold) h

/-- A deal that a party cannot bear is refused before any account has changed. -/
theorem settle_refused {ledger : Ledger} {deal : Deal} (h : ¬ledger.CanSettle deal) :
    ∃ cause, ledger.settle deal = (.error cause, ledger) := by
  unfold settle
  cases hself : deal.isSelfTrade with
  | false =>
    obtain ⟨cause, hrefused⟩ := transfer_refused hself h
    exact ⟨cause, by simp [hrefused]⟩
  | true =>
    -- of a trade with oneself nothing can go wrong but that there is no account
    have hsame : deal.buyer = deal.seller := of_decide_eq_true hself
    rcases ledger.update_cases deal.buyer (fun account => .ok (account.addDeal deal)) with
      ⟨cause, hrefused⟩ | ⟨buyer, entered, hb, -, -⟩
    · exact ⟨cause, by simp [enter, hrefused]⟩
    · refine absurd ⟨by simp [hb], by simp [← hsame, hb], fun ho => ?_, fun ho => ?_⟩ h
      · rw [hself] at ho
        cases ho
      · rw [hself] at ho
        cases ho

/-- **A settlement changes the ledger as a whole or not at all.** -/
theorem settle_cases (ledger : Ledger) (deal : Deal) :
    (ledger.CanSettle deal ∧ ledger.settle deal = (.ok (), ledger.settled deal)) ∨
      (¬ledger.CanSettle deal ∧ ∃ cause, ledger.settle deal = (.error cause, ledger)) := by
  by_cases h : ledger.CanSettle deal
  · exact .inl ⟨h, settle_eq_ok h⟩
  · exact .inr ⟨h, settle_refused h⟩

/-! ## The accounts after a deal -/

theorem get?_settled_of_ne {ledger : Ledger} {deal : Deal} {user : UserId} (hb : user ≠ deal.buyer)
    (hs : user ≠ deal.seller) : (ledger.settled deal).get? user = ledger.get? user := by
  rw [get?_settled]
  cases ledger.get? user with
  | none => rfl
  | some account =>
    show some (account.settled user deal) = some account
    simp [Account.settled, Account.entered, Account.paid, Deal.balancesAfter_of_ne hb hs, hb, hs]

theorem get?_settled_self {ledger : Ledger} {deal : Deal} (hself : deal.isSelfTrade = true) :
    (ledger.settled deal).get? deal.buyer = (ledger.get? deal.buyer).map (·.addDeal deal) := by
  rw [get?_settled]
  refine congrArg (Option.map · (ledger.get? deal.buyer)) (funext fun account => ?_)
  simp [Account.settled, Account.entered, Account.paid, Deal.balancesAfter_of_isSelfTrade hself]

/-- The buyer gets the quantity for what it costs. -/
theorem get?_settled_buyer {ledger : Ledger} {deal : Deal} (hself : deal.isSelfTrade = false) :
    (ledger.settled deal).get? deal.buyer = (ledger.get? deal.buyer).map fun account =>
      { account.addDeal deal with
        balance := {
          usd := account.balance.usd + deal.quantity
          rub := account.balance.rub - deal.price * deal.quantity } } := by
  rw [get?_settled]
  refine congrArg (Option.map · (ledger.get? deal.buyer)) (funext fun account => ?_)
  simp [Account.settled, Account.entered, Account.paid, Account.addDeal, Deal.balancesAfter_buyer hself]

/-- The seller gets what the quantity costs. -/
theorem get?_settled_seller {ledger : Ledger} {deal : Deal} (hself : deal.isSelfTrade = false) :
    (ledger.settled deal).get? deal.seller = (ledger.get? deal.seller).map fun account =>
      { account.addDeal deal with
        balance := {
          usd := account.balance.usd - deal.quantity
          rub := account.balance.rub + deal.price * deal.quantity } } := by
  rw [get?_settled]
  refine congrArg (Option.map · (ledger.get? deal.seller)) (funext fun account => ?_)
  simp [Account.settled, Account.entered, Account.paid, Account.addDeal, Deal.balancesAfter_seller hself]

end Ledger

namespace Market

variable {σ : Type} [RecordStore σ]

/-- What it means that `deal` was settled between two states of a market: each party gains it and its leg of
    the money, a user who trades with themselves no money, no other account changes and no money is made, and
    of the rest of the market only the store has been told. -/
structure Settled (market : Market σ) (deal : Deal) (after : Market σ) : Prop where
  self_trade : deal.isSelfTrade = true →
    after.accounts.get? deal.buyer = (market.accounts.get? deal.buyer).map (·.addDeal deal)
  buyer : deal.isSelfTrade = false →
    after.accounts.get? deal.buyer = (market.accounts.get? deal.buyer).map fun account =>
      { account.addDeal deal with
        balance := {
          usd := account.balance.usd + deal.quantity
          rub := account.balance.rub - deal.price * deal.quantity } }
  seller : deal.isSelfTrade = false →
    after.accounts.get? deal.seller = (market.accounts.get? deal.seller).map fun account =>
      { account.addDeal deal with
        balance := {
          usd := account.balance.usd - deal.quantity
          rub := account.balance.rub + deal.price * deal.quantity } }
  others : ∀ user, user ≠ deal.buyer → user ≠ deal.seller →
    after.accounts.get? user = market.accounts.get? user
  usd : after.accounts.total (·.balance.usd) = market.accounts.total (·.balance.usd)
  rub : after.accounts.total (·.balance.rub) = market.accounts.total (·.balance.rub)
  rest : after = { market with
    accounts := after.accounts
    store := RecordStore.notify market.store deal.toRecord }

/-- A settlement is refused without a trace, or it is the change of all accounts that the deal describes and
    the deal is reported. -/
theorem settle_cases (market : Market σ) (deal : Deal) :
    (market.accounts.CanSettle deal ∧ market.settle deal =
      (.ok (), { market with
        accounts := market.accounts.settled deal
        store := RecordStore.notify market.store deal.toRecord })) ∨
      (¬market.accounts.CanSettle deal ∧ ∃ cause, market.settle deal = (.error cause, market)) := by
  unfold settle
  rcases market.accounts.settle_cases deal with ⟨hcan, hsettle⟩ | ⟨hcannot, cause, hsettle⟩
  · exact .inl ⟨hcan, by rw [hsettle]⟩
  · exact .inr ⟨hcannot, cause, by rw [hsettle]⟩

/-- A deal that both parties can bear is settled by the change of all accounts that it describes. -/
theorem settled_of_canSettle {market : Market σ} {deal : Deal} (h : market.accounts.CanSettle deal) :
    market.Settled deal { market with
      accounts := market.accounts.settled deal
      store := RecordStore.notify market.store deal.toRecord } where
  self_trade hself := Ledger.get?_settled_self hself
  buyer hself := Ledger.get?_settled_buyer hself
  seller hself := Ledger.get?_settled_seller hself
  others _ hb hs := Ledger.get?_settled_of_ne hb hs
  usd := (Ledger.total_settled h.buyer h.seller).1
  rub := (Ledger.total_settled h.buyer h.seller).2
  rest := rfl

/-- **A deal is settled as a whole or not at all**, whatever the accounts are. It is settled exactly if both
    parties have accounts and, unless they are the same user, its amounts and what it leaves either of them
    with are in range. Then its parties gain it and their legs of the money and nothing else changes but the
    store, which is told of the deal. If it is refused, nothing at all changes. -/
theorem settle_all_or_nothing (market : Market σ) (deal : Deal) :
    ((market.settle deal).1 = .ok () ↔ market.accounts.CanSettle deal) ∧
    (∀ after, market.settle deal = (.ok (), after) → market.Settled deal after) ∧
    ∀ cause after, market.settle deal = (.error cause, after) → after = market := by
  rcases market.settle_cases deal with ⟨hcan, hsettle⟩ | ⟨hcannot, cause, hsettle⟩
  · rw [hsettle]
    refine ⟨iff_of_true rfl hcan, ?_, nofun⟩
    intro after h
    cases h
    exact settled_of_canSettle hcan
  · rw [hsettle]
    refine ⟨iff_of_false nofun hcannot, nofun, ?_⟩
    intro _ after h
    cases h
    rfl

/-- At a price below zero five units bring the buyer to the greatest sum of one currency and the seller to the
    least of the other; six are one too many, and the first deal is the only one that is reported. -/
theorem settle_all_or_nothing_of_limits :
    let buyer : Account := { id := 0, username := "a", balance := { usd := Word.greatest - 5 } }
    let seller : Account := { id := 1, username := "b", balance := { rub := Word.least + 10 } }
    let market : Market MemoryStore :=
      { accounts := (SortedMap.empty.insert 0 buyer).insert 1 seller, store := {} }
    let deal (quantity : Quantity) : Deal :=
      { id := 0, seller := 1, buyer := 0, maker := 0, taker := 1, price := -2, quantity }
    market.accounts.CanSettle (deal 5) ∧ market.Settled (deal 5) (market.settle (deal 5)).2 ∧
      ¬market.accounts.CanSettle (deal 6) ∧ (market.settle (deal 6)).2 = market := by
  intro buyer seller market deal
  obtain ⟨hfits, hsettled, -⟩ := market.settle_all_or_nothing (deal 5)
  obtain ⟨hexceeds, -, hrefused⟩ := market.settle_all_or_nothing (deal 6)
  have hok : (market.settle (deal 5)).1 = .ok () := by decide +kernel
  have herror : (market.settle (deal 6)).1 = .error (.balanceOutOfRange 1) := by decide +kernel
  refine ⟨hfits.mp hok, hsettled _ (Prod.ext hok rfl), ?_, hrefused _ _ (Prod.ext herror rfl)⟩
  intro hcan
  have hboth := hexceeds.mpr hcan
  rw [herror] at hboth
  cases hboth

end Market

end Bourse
