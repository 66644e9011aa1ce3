import Bourse.Proofs.Posting

/-!
# `Bourse.Proofs.Reconciliation` — every balance is accounted for

Money enters a market by deposits and moves by deals. A balance is therefore what its owner has deposited,
plus what the owner's closed deals brought and took, and each currency sums over all accounts to what was
deposited in it. `Ledger.Reconciled` says this of the accounts and of the deposits accepted so far; what
becomes of it in one operation is `Sound.reconciled_apply`, and over a run `Sound.reconciled_run`.

A deal enters a balance once and the closed deals once. The two agree because the number of the deal is
new to both of its parties (`Reconciled.settled`).
-/

namespace Bourse

/-! ## Deposits -/

/-- A deposit that was accepted. -/
structure Deposit where
  user : UserId
  currency : Currency
  amount : Nat
deriving DecidableEq, Repr

/-- The deposits together. -/
def Deposit.sum (deposits : List Deposit) : Int :=
  deposits.foldr (fun deposit sum => deposit.amount + sum) 0

/-- The deposit that an operation made, if it was one and was accepted. -/
def Operation.deposit? : Operation → Answer → Option Deposit
  | .deposit user currency amount, .deposited (.ok ()) => some ⟨user, currency, amount⟩
  | _, _ => none

/-- The accepted deposits of a run. -/
def Deposit.accepted (operations : List Operation) (answers : List Answer) : List Deposit :=
  (operations.zip answers).filterMap fun x => x.1.deposit? x.2

namespace Deposit

theorem sum_append (first second : List Deposit) : sum (first ++ second) = sum first + sum second := by
  induction first with
  | nil => exact (Int.zero_add _).symm
  | cons deposit rest ih =>
    show deposit.amount + sum (rest ++ second) = deposit.amount + sum rest + sum second
    rw [ih, Int.add_assoc]

theorem sum_filter_singleton (p : Deposit → Bool) (deposit : Deposit) :
    sum ([deposit].filter p) = if p deposit then (deposit.amount : Int) else 0 := by
  cases hp : p deposit
  · simp [hp, sum]
  · simp [hp, sum]

theorem accepted_cons (operation : Operation) (operations : List Operation) (answer : Answer)
    (answers : List Answer) :
    accepted (operation :: operations) (answer :: answers) =
      (operation.deposit? answer).toList ++ accepted operations answers := by
  unfold accepted
  rw [List.zip_cons_cons, List.filterMap_cons]
  dsimp only
  cases operation.deposit? answer <;> rfl

end Deposit

/-! ## What a deal brings a user -/

/-- The sum held in one currency. -/
def Balance.get (balance : Balance) : Currency → Int
  | .usd => balance.usd
  | .rub => balance.rub

namespace Deal

/-- What the buyer of a deal with another user gains in one currency, and the seller loses. -/
def gain (deal : Deal) : Currency → Int
  | .usd => deal.quantity
  | .rub => -(deal.price * deal.quantity)

/-- What a deal brings a user in one currency. -/
def flow (deal : Deal) (currency : Currency) (user : UserId) : Int :=
  if deal.isSelfTrade then 0
  else if user = deal.buyer then deal.gain currency
  else if user = deal.seller then -deal.gain currency
  else 0

theorem flow_of_ne {deal : Deal} {user : UserId} (hb : user ≠ deal.buyer) (hs : user ≠ deal.seller)
    (currency : Currency) : deal.flow currency user = 0 := by
  unfold flow
  rw [if_neg hb, if_neg hs, ite_self]

theorem get_balancesAfter (deal : Deal) (balances : UserId → Balance) (user : UserId)
    (currency : Currency) :
    (deal.balancesAfter balances user).get currency =
      (balances user).get currency + deal.flow currency user := by
  unfold balancesAfter flow
  dsimp only
  by_cases hself : deal.isSelfTrade = true
  · rw [if_pos hself, if_pos hself, Int.add_zero]
  · rw [if_neg hself, if_neg hself]
    by_cases hb : user = deal.buyer
    · rw [if_pos hb, if_pos hb]
      cases currency
      · rfl
      · exact Int.sub_eq_add_neg
    · rw [if_neg hb, if_neg hb]
      by_cases hs : user = deal.seller
      · rw [if_pos hs, if_pos hs]
        cases currency
        · exact Int.sub_eq_add_neg
        · show (balances user).rub + deal.price * deal.quantity =
            (balances user).rub + - -(deal.price * deal.quantity)
          rw [Int.neg_neg]
      · rw [if_neg hs, if_neg hs, Int.add_zero]

/-- The deals in which the user bought from somebody else. -/
def boughtBy (user : UserId) (deals : List Deal) : List Deal :=
  deals.filter fun deal => deal.buyer = user && deal.seller ≠ user

/-- The deals in which the user sold to somebody else. -/
def soldBy (user : UserId) (deals : List Deal) : List Deal :=
  deals.filter fun deal => deal.seller = user && deal.buyer ≠ user

/-- What the buyers paid the sellers. -/
def cost (deals : List Deal) : Int :=
  deals.foldr (fun deal sum => deal.price * deal.quantity + sum) 0

/-- What the buyers of the deals gained in one currency. -/
def gains (currency : Currency) (deals : List Deal) : Int :=
  deals.foldr (fun deal sum => deal.gain currency + sum) 0

theorem gains_usd (deals : List Deal) : gains .usd deals = traded deals := by
  induction deals with
  | nil => rfl
  | cons deal rest ih =>
    show (deal.quantity : Int) + gains .usd rest = (deal.quantity + traded rest : Nat)
    rw [ih, Int.natCast_add]

theorem gains_rub (deals : List Deal) : gains .rub deals = -cost deals := by
  induction deals with
  | nil => rfl
  | cons deal rest ih =>
    show -(deal.price * deal.quantity) + gains .rub rest = -(deal.price * deal.quantity + cost rest)
    rw [ih, Int.neg_add]

theorem gains_filter_cons (p : Deal → Bool) (currency : Currency) (deal : Deal) (rest : List Deal) :
    gains currency ((deal :: rest).filter p) =
      (if p deal then deal.gain currency else 0) + gains currency (rest.filter p) := by
  cases hp : p deal
  · rw [List.filter_cons_of_neg (by rw [hp]; nofun), if_neg Bool.false_ne_true, Int.zero_add]
  · rw [List.filter_cons_of_pos hp, if_pos rfl]
    rfl

theorem flow_eq (deal : Deal) (currency : Currency) (user : UserId) :
    deal.flow currency user =
      (if deal.buyer = user && deal.seller ≠ user then deal.gain currency else 0) -
        if deal.seller = user && deal.buyer ≠ user then deal.gain currency else 0 := by
  unfold flow isSelfTrade
  grind

/-- **What deals bring a user** is what the user bought, less what the user sold. -/
theorem foldr_flow (currency : Currency) (user : UserId) (deals : List Deal) :
    deals.foldr (fun deal sum => deal.flow currency user + sum) 0 =
      gains currency (boughtBy user deals) - gains currency (soldBy user deals) := by
  induction deals with
  | nil => rfl
  | cons deal rest ih =>
    unfold boughtBy soldBy at ih ⊢
    rw [List.foldr_cons, ih, gains_filter_cons, gains_filter_cons, flow_eq]
    omega

end Deal

/-! ## Reconciled accounts -/

namespace Ledger

/-- The balances are what deposits and closed deals make them. -/
structure Reconciled (ledger : Ledger) (deposits : List Deposit) : Prop where
  balance : ∀ {user : UserId} {account : Account}, ledger.get? user = some account →
    ∀ currency, account.balance.get currency =
      Deposit.sum (deposits.filter fun deposit =>
        deposit.user = user && deposit.currency = currency) +
          account.closedDeals.total (·.flow currency user)
  /-- Nobody made a deposit without an account. -/
  known : ∀ deposit ∈ deposits, (ledger.get? deposit.user).isSome
  total : ∀ currency, ledger.total (·.balance.get currency) =
    Deposit.sum (deposits.filter fun deposit => deposit.currency = currency)

theorem reconciled_empty : Reconciled .empty [] := ⟨nofun, nofun, fun _ => rfl⟩

/-- What else an account holds does not matter. -/
theorem Reconciled.congr {ledger ledger' : Ledger} {deposits : List Deposit}
    (h : ledger.Reconciled deposits)
    (hsame : ∀ user, (ledger'.get? user).map (fun account => (account.balance, account.closedDeals)) =
      (ledger.get? user).map fun account => (account.balance, account.closedDeals)) :
    ledger'.Reconciled deposits where
  balance := by
    intro user account hget currency
    have hpair := hsame user
    rw [hget] at hpair
    obtain ⟨old, hold, heq⟩ := Option.map_eq_some_iff.mp hpair.symm
    obtain ⟨hbalance, hdeals⟩ := Prod.mk.inj heq
    rw [← hbalance, ← hdeals]
    exact h.balance hold currency
  known := by
    intro deposit hd
    have hsome := congrArg Option.isSome (hsame deposit.user)
    rw [Option.isSome_map, Option.isSome_map] at hsome
    exact hsome.trans (h.known deposit hd)
  total := by
    intro currency
    rw [← h.total currency]
    refine total_balance (·.get currency) fun user => ?_
    have hbalance := congrArg (Option.map (·.1)) (hsame user)
    rwa [Option.map_map, Option.map_map] at hbalance

/-- A change of the offers of one account keeps the accounts reconciled. -/
theorem Reconciled.modify {ledger : Ledger} {deposits : List Deposit} (h : ledger.Reconciled deposits)
    (user : UserId) (change : Account → Account)
    (hbalance : ∀ account, (change account).balance = account.balance)
    (hdeals : ∀ account, (change account).closedDeals = account.closedDeals) :
    Reconciled (ledger.modify user change) deposits :=
  h.congr (ledger.map_get?_modify (fun account => Prod.ext (hbalance account) (hdeals account)) user)

/-- A new account holds nothing, and nobody made a deposit into it. -/
theorem Reconciled.insert_new {ledger : Ledger} {deposits : List Deposit}
    (h : ledger.Reconciled deposits) {user : UserId} (hnew : ledger.get? user = none)
    (username : String) :
    Reconciled (ledger.insert user { id := user, username }) deposits where
  balance := by
    intro u account hget currency
    rw [SortedMap.get?_insert] at hget
    by_cases hu : u = user
    · rw [if_pos hu] at hget
      cases hget
      have hnone : (deposits.filter fun deposit =>
          deposit.user = u && deposit.currency = currency) = [] := by
        refine List.filter_eq_nil_iff.mpr fun deposit hd hp => ?_
        have hknown := h.known deposit hd
        rw [Bool.and_eq_true, decide_eq_true_eq] at hp
        rw [hp.1, hu, hnew] at hknown
        cases hknown
      rw [hnone]
      cases currency <;> rfl
    · rw [if_neg hu] at hget
      exact h.balance hget currency
  known := by
    intro deposit hd
    rw [SortedMap.get?_insert]
    split
    · rfl
    · exact h.known deposit hd
  total := by
    intro currency
    rw [SortedMap.total_insert, SortedMap.erase_eq_self hnew, h.total currency]
    cases currency <;> exact Int.zero_add _

theorem get_plus (balance : Balance) (currency c : Currency) (amount : Int) :
    (balance.plus currency amount).get c =
      balance.get c + if currency = c then amount else 0 := by
  cases currency <;> cases c
  · rfl
  · exact (Int.add_zero _).symm
  · exact (Int.add_zero _).symm
  · rfl

/-- A deposit changes the balance of its user by its amount. -/
theorem Reconciled.insert_deposit {ledger : Ledger} {deposits : List Deposit}
    (h : ledger.Reconciled deposits) {user : UserId} {account : Account}
    (hget : ledger.get? user = some account) (currency : Currency) (amount : Nat) :
    Reconciled (ledger.insert user
      { account with balance := account.balance.plus currency amount })
      (deposits ++ [⟨user, currency, amount⟩]) where
  balance := by
    intro u a ha c
    rw [SortedMap.get?_insert] at ha
    rw [List.filter_append, Deposit.sum_append, Deposit.sum_filter_singleton]
    by_cases hu : u = user
    · rw [if_pos hu] at ha
      cases ha
      rw [hu, get_plus, h.balance hget c]
      by_cases hc : currency = c
      · rw [if_pos hc, if_pos (by simp [hc])]
        exact Int.add_right_comm _ _ _
      · rw [if_neg hc, if_neg (by simp [hc])]
        exact Int.add_right_comm _ _ _
    · rw [if_neg hu] at ha
      rw [h.balance ha c, if_neg (by simp [Ne.symm hu]), Int.add_zero]
  known := by
    intro deposit hd
    rw [SortedMap.get?_insert]
    by_cases hu : deposit.user = user
    · rw [if_pos hu]
      rfl
    · rw [if_neg hu]
      rcases List.mem_append.mp hd with hold | hnew
      · exact h.known deposit hold
      · rw [List.mem_singleton.mp hnew] at hu
        exact absurd rfl hu
  total := by
    intro c
    rw [SortedMap.total_insert_of_get? hget, List.filter_append, Deposit.sum_append,
      Deposit.sum_filter_singleton, h.total c, get_plus, Int.add_comm (account.balance.get c), Int.add_sub_cancel]
    by_cases hc : currency = c
    · rw [if_pos hc, if_pos (decide_eq_true hc)]
    · rw [if_neg hc, if_neg (by simp [hc])]

/-- **A deal with a new number keeps the accounts reconciled.** -/
theorem Reconciled.settled {ledger : Ledger} {deposits : List Deposit}
    (h : ledger.Reconciled deposits) {deal : Deal} (hbuyer : (ledger.get? deal.buyer).isSome)
    (hseller : (ledger.get? deal.seller).isSome)
    (hnew : ∀ {user : UserId} {account : Account}, ledger.get? user = some account →
      account.closedDeals.get? deal.id = none) :
    (ledger.settled deal).Reconciled deposits where
  balance := by
    intro user account hget currency
    rw [get?_settled] at hget
    obtain ⟨old, hold, rfl⟩ := Option.map_eq_some_iff.mp hget
    rw [Account.balance_settled, Account.closedDeals_settled, Deal.get_balancesAfter,
      h.balance hold currency]
    by_cases hparty : user = deal.buyer ∨ user = deal.seller
    · rw [if_pos hparty, SortedMap.total_insert, SortedMap.erase_eq_self (hnew hold)]
      omega
    · rw [if_neg hparty, Deal.flow_of_ne (fun hb => hparty (.inl hb)) fun hs => hparty (.inr hs),
        Int.add_zero]
  known := by
    intro deposit hd
    rw [isSome_settled]
    exact h.known deposit hd
  total := by
    intro currency
    have hkept := total_settled hbuyer hseller
    rw [← h.total currency]
    cases currency
    · exact hkept.1
    · exact hkept.2

end Ledger

/-! ## Markets over time -/

namespace Market

variable {σ : Type} [RecordStore σ]

/-- Matching keeps the accounts reconciled. -/
theorem Matching.reconciled {market after : Market σ} {taker last : Offer} {deals : List Deal}
    {deposits : List Deposit} (h : Matching market taker deals last after) (hs : market.Sound)
    (hr : market.accounts.Reconciled deposits) : after.accounts.Reconciled deposits := by
  induction h with
  | fulfilled => exact hr
  | blocked => exact hr
  | expired _ hranked _ hdead _ ih => exact ih (hs.expired hranked hdead) hr
  | @traded market _ taker maker _ _ entry _ _ hranked _ hlive hbear _ ih =>
    refine ih (hs.struck hranked hlive hbear) ?_
    rw [accounts_struck]
    have hreturned := hbear.returned entry (maker.fill (min taker.remaining maker.remaining))
    have hsound := hs.returned hlive (min taker.remaining maker.remaining)
    refine (hr.modify entry.owner _ ?_ ?_).settled hreturned.buyer hreturned.seller hsound.next_deal_new
    · intro account
      exact account.balance_returned _ _
    · intro account
      exact account.closedDeals_returned _ _

omit [RecordStore σ] in
theorem Rests.reconciled {matched after : Market σ} {last : Offer} {deposits : List Deposit}
    (h : Rests matched last after) (hr : matched.accounts.Reconciled deposits) :
    after.accounts.Reconciled deposits := by
  cases h with
  | nothing => exact hr
  | @rest account hopen hget =>
    have hmodified := hr.modify last.owner (·.addOffer last) (fun _ => rfl) fun _ => rfl
    rw [SortedMap.modify_eq_insert hget] at hmodified
    exact hmodified

/-- **One operation keeps the accounts reconciled**, with the deposit that it made, if it was one and was
    accepted. -/
theorem Sound.reconciled_apply {market : Market σ} (h : market.Sound) {deposits : List Deposit}
    (hr : market.accounts.Reconciled deposits) (operation : Operation) :
    (market.apply operation).2.accounts.Reconciled
      (deposits ++ (operation.deposit? (market.apply operation).1).toList) := by
  cases operation with
  | register username =>
    show Ledger.Reconciled _ (deposits ++ [])
    rw [List.append_nil]
    exact hr.insert_new h.next_user_new username
  | deposit user currency amount =>
    show (market.deposit user currency amount).2.accounts.Reconciled (deposits ++
      (Operation.deposit? (.deposit user currency amount)
        (.deposited (market.deposit user currency amount).1)).toList)
    rcases market.deposit_cases user currency amount with ⟨cause, hd⟩ | ⟨account, hget, -, hd⟩
    · rw [hd]
      show market.accounts.Reconciled (deposits ++ [])
      rw [List.append_nil]
      exact hr
    · rw [hd]
      dsimp only
      rw [SortedMap.modify_eq_insert hget]
      exact hr.insert_deposit hget currency amount
  | post user side price quantity =>
    show (market.post user side price quantity).2.accounts.Reconciled (deposits ++ [])
    rw [List.append_nil]
    rcases h.post_cases user side price quantity with
      ⟨cause, -, hp⟩ | ⟨-, last, matched, after, hmatching, hrests, hp⟩
    · rw [hp]
      exact hr
    · rw [hp]
      exact hrests.reconciled (hmatching.reconciled (h.announced _) hr)
  | cancel user offer =>
    show (market.cancel user offer).2.accounts.Reconciled (deposits ++ [])
    rw [List.append_nil]
    unfold Market.cancel
    cases market.accounts.get? user with
    | none => exact hr
    | some account => exact hr.modify user (·.removeOffer offer) (fun _ => rfl) fun _ => rfl
  | quotes =>
    show market.accounts.Reconciled (deposits ++ [])
    rw [List.append_nil]
    exact hr

/-- **A run keeps the accounts reconciled**, with all deposits that were accepted in it. -/
theorem Sound.reconciled_run {market : Market σ} (h : market.Sound) {deposits : List Deposit}
    (hr : market.accounts.Reconciled deposits) (operations : List Operation) :
    (market.run operations).2.accounts.Reconciled
      (deposits ++ Deposit.accepted operations (market.run operations).1) := by
  induction operations generalizing market deposits with
  | nil =>
    show market.accounts.Reconciled (deposits ++ [])
    rw [List.append_nil]
    exact hr
  | cons operation rest ih =>
    rw [run_cons, Deposit.accepted_cons, ← List.append_assoc]
    exact ih (h.apply operation) (h.reconciled_apply hr operation)

/-- **Every balance is what was deposited, bought and sold.** After any run from a start, a user's balance
    is the sum of the user's accepted deposits, plus what the user bought from others and less what the user
    sold to others in one currency, and the other way round, at what was paid for it, in the other. So each
    currency sums over all accounts to the accepted deposits in it. -/
theorem run_reconciled {store : σ} {seed : Bool} {market : Market σ}
    (hstart : start store seed = .ok market) (operations : List Operation) :
    let after := (market.run operations).2
    let deposits := Deposit.accepted operations (market.run operations).1
    (∀ user account, after.accounts.get? user = some account →
      account.balance.usd =
        Deposit.sum (deposits.filter fun d => d.user = user && d.currency = .usd) +
          Deal.traded (Deal.boughtBy user account.closedDeals.values) -
          Deal.traded (Deal.soldBy user account.closedDeals.values) ∧
      account.balance.rub =
        Deposit.sum (deposits.filter fun d => d.user = user && d.currency = .rub) -
          Deal.cost (Deal.boughtBy user account.closedDeals.values) +
          Deal.cost (Deal.soldBy user account.closedDeals.values)) ∧
    after.accounts.total (·.balance.usd) = Deposit.sum (deposits.filter (·.currency = .usd)) ∧
    after.accounts.total (·.balance.rub) = Deposit.sum (deposits.filter (·.currency = .rub)) := by
  have hempty : market.accounts.Reconciled [] := by
    obtain ⟨userIds, offerIds, dealIds, rfl⟩ := start_eq hstart
    exact Ledger.reconciled_empty
  have hr := (sound_start hstart).reconciled_run hempty operations
  refine ⟨fun user account hget => ⟨?_, ?_⟩, hr.total .usd, hr.total .rub⟩
  · have husd : account.balance.usd = _ := hr.balance hget .usd
    unfold SortedMap.total at husd
    rw [Deal.foldr_flow, Deal.gains_usd, Deal.gains_usd, ← Int.add_sub_assoc] at husd
    exact husd
  · have hrub : account.balance.rub = _ := hr.balance hget .rub
    unfold SortedMap.total at hrub
    rw [Deal.foldr_flow, Deal.gains_rub, Deal.gains_rub] at hrub
    rw [hrub]
    dsimp only [List.nil_append]
    omega

/-- A user buys a part of what another has deposited; a deposit for nobody is not accepted. -/
theorem run_reconciled_of_one_sale :
    let start : Market VoidStore := { store := {} }
    let operations : List Operation := [.register "a", .register "b", .deposit 0 .usd 10,
      .deposit 7 .usd 1, .post 0 .sell 5 3, .post 1 .buy 6 3]
    Deposit.accepted operations (start.run operations).1 = [⟨0, .usd, 10⟩] ∧
      (start.run operations).2.balanceOf 1 = ⟨3, -15⟩ ∧
      (start.run operations).2.accounts.total (·.balance.usd) = 10 ∧
      (start.run operations).2.accounts.total (·.balance.rub) = 0 := by
  intro start operations
  have haccepted : Deposit.accepted operations (start.run operations).1 = [⟨0, .usd, 10⟩] := by
    decide +kernel
  have hbalance : (start.run operations).2.balanceOf 1 = ⟨3, -15⟩ := by decide +kernel
  have hstart : Market.start start.store false = .ok start := rfl
  obtain ⟨-, husd, hrub⟩ := run_reconciled hstart operations
  rw [haccepted] at husd hrub
  exact ⟨haccepted, hbalance, husd, hrub⟩

end Market

end Bourse
