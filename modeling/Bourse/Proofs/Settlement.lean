import Bourse.Market.Priority
import Bourse.Market.Settlement
import Bourse.Proofs.Bindings

/-!
# `Bourse.Proofs.Settlement` — a settled deal as one change of all accounts

`Ledger.settle` changes the two accounts of a deal step by step and may stop on the way. Here the same
deal is one change of the whole ledger, `Ledger.settled`: the account of every user becomes what the deal
makes of it.

* `settle_eq_ok`: where both parties have accounts and can bear the deal, settling succeeds and is that
  change.
* `total_settled`: it keeps the sum of either currency over all accounts.
-/

namespace Bourse

namespace Deal

/-! ## Balances after a deal -/

theorem balancesAfter_of_isSelfTrade {deal : Deal} (h : deal.isSelfTrade = true)
    (balances : UserId → Balance) : deal.balancesAfter balances = balances := by
  funext user
  unfold balancesAfter
  rw [if_pos h]

theorem balancesAfter_buyer {deal : Deal} (h : deal.isSelfTrade = false)
    (balances : UserId → Balance) :
    deal.balancesAfter balances deal.buyer =
      { usd := (balances deal.buyer).usd + deal.quantity
        rub := (balances deal.buyer).rub - deal.price * deal.quantity } := by
  unfold balancesAfter
  rw [if_neg (by simp [h]), if_pos rfl]

theorem balancesAfter_seller {deal : Deal} (h : deal.isSelfTrade = false)
    (balances : UserId → Balance) :
    deal.balancesAfter balances deal.seller =
      { usd := (balances deal.seller).usd - deal.quantity
        rub := (balances deal.seller).rub + deal.price * deal.quantity } := by
  have hne : deal.buyer ≠ deal.seller := of_decide_eq_false h
  unfold balancesAfter
  rw [if_neg (by simp [h]), if_neg hne.symm, if_pos rfl]

theorem balancesAfter_of_ne {deal : Deal} {user : UserId} (hb : user ≠ deal.buyer)
    (hs : user ≠ deal.seller) (balances : UserId → Balance) :
    deal.balancesAfter balances user = balances user := by
  unfold balancesAfter
  dsimp only
  rw [if_neg hb, if_neg hs, ite_self]

/-- What a deal does to the balance of a user depends on that balance alone. -/
theorem balancesAfter_congr (deal : Deal) {balances balances' : UserId → Balance} {user : UserId}
    (h : balances user = balances' user) :
    deal.balancesAfter balances user = deal.balancesAfter balances' user := by
  unfold balancesAfter
  rw [h]

theorem firstOutOfRange?_cons (balances : UserId → Balance) (deal : Deal) (rest : List Deal) :
    firstOutOfRange? balances (deal :: rest) =
      if ¬(deal.balancesAfter balances deal.buyer).InRange then some deal.buyer
      else if ¬(deal.balancesAfter balances deal.seller).InRange then some deal.seller
      else firstOutOfRange? (deal.balancesAfter balances) rest := rfl

/-- A deal that leaves its parties in range is followed by the next. -/
theorem firstOutOfRange?_cons_eq_none_iff {balances : UserId → Balance} {deal : Deal}
    {rest : List Deal} :
    firstOutOfRange? balances (deal :: rest) = none ↔
      (deal.balancesAfter balances deal.buyer).InRange ∧
        (deal.balancesAfter balances deal.seller).InRange ∧
          firstOutOfRange? (deal.balancesAfter balances) rest = none := by
  rw [firstOutOfRange?_cons]
  split
  case isTrue hbuyer => exact iff_of_false nofun fun h => hbuyer h.1
  case isFalse hbuyer =>
    split
    case isTrue hseller => exact iff_of_false nofun fun h => hseller h.2.1
    case isFalse hseller =>
      exact ⟨fun h => ⟨Decidable.not_not.mp hbuyer, Decidable.not_not.mp hseller, h⟩, fun h => h.2.2⟩

/-- Deals move no balance but those of their parties. -/
theorem inRange_balancesAfter {balances : UserId → Balance} {deal : Deal}
    (h : ∀ user, (balances user).InRange)
    (hbuyer : (deal.balancesAfter balances deal.buyer).InRange)
    (hseller : (deal.balancesAfter balances deal.seller).InRange) (user : UserId) :
    (deal.balancesAfter balances user).InRange := by
  by_cases hb : user = deal.buyer
  · rw [hb]
    exact hbuyer
  · by_cases hs : user = deal.seller
    · rw [hs]
      exact hseller
    · rw [balancesAfter_of_ne hb hs]
      exact h user

end Deal

namespace Account

/-- The account of `user` after the money of a deal has moved. -/
def paid (account : Account) (user : UserId) (deal : Deal) : Account :=
  { account with balance := deal.balancesAfter (fun _ => account.balance) user }

/-- The account of `user` after a deal was entered with its parties. -/
def entered (account : Account) (user : UserId) (deal : Deal) : Account :=
  if user = deal.buyer ∨ user = deal.seller then account.addDeal deal else account

/-- The account of `user` after a deal. -/
def settled (account : Account) (user : UserId) (deal : Deal) : Account :=
  (account.paid user deal).entered user deal

@[simp] theorem id_settled (account : Account) (user : UserId) (deal : Deal) :
    (account.settled user deal).id = account.id := by
  unfold settled entered
  split <;> rfl

@[simp] theorem username_settled (account : Account) (user : UserId) (deal : Deal) :
    (account.settled user deal).username = account.username := by
  unfold settled entered
  split <;> rfl

@[simp] theorem balance_settled (account : Account) (user : UserId) (deal : Deal) :
    (account.settled user deal).balance = deal.balancesAfter (fun _ => account.balance) user := by
  unfold settled entered
  split <;> rfl

@[simp] theorem activeOffers_settled (account : Account) (user : UserId) (deal : Deal) :
    (account.settled user deal).activeOffers = account.activeOffers := by
  unfold settled entered
  split <;> rfl

theorem closedDeals_settled (account : Account) (user : UserId) (deal : Deal) :
    (account.settled user deal).closedDeals =
      if user = deal.buyer ∨ user = deal.seller then account.closedDeals.insert deal.id deal
      else account.closedDeals := by
  unfold settled entered
  split <;> rfl

theorem addDeal_addDeal (account : Account) (deal : Deal) :
    (account.addDeal deal).addDeal deal = account.addDeal deal := by
  have hget : (account.closedDeals.insert deal.id deal).get? deal.id = some deal := by
    rw [SortedMap.get?_insert, if_pos rfl]
  exact congrArg (fun deals => { account with closedDeals := deals }) (SortedMap.insert_eq_self hget)

end Account

namespace Ledger

/-- The accounts after the money of a deal has moved. -/
def paid (ledger : Ledger) (deal : Deal) : Ledger :=
  ledger.mapWithKey fun user account => account.paid user deal

/-- The accounts after a deal was entered with its parties. -/
def entered (ledger : Ledger) (deal : Deal) : Ledger :=
  ledger.mapWithKey fun user account => account.entered user deal

/-- The accounts after a deal. -/
def settled (ledger : Ledger) (deal : Deal) : Ledger :=
  ledger.mapWithKey fun user account => account.settled user deal

theorem get?_settled (ledger : Ledger) (deal : Deal) (user : UserId) :
    (ledger.settled deal).get? user = (ledger.get? user).map (·.settled user deal) :=
  SortedMap.get?_mapWithKey ledger _ user

theorem closedDeals_settled (ledger : Ledger) (deal : Deal) (user : UserId) :
    ((ledger.settled deal).get? user).map (·.closedDeals) =
      ((ledger.get? user).map (·.closedDeals)).map fun deals =>
        if user = deal.buyer ∨ user = deal.seller then deals.insert deal.id deal else deals := by
  rw [get?_settled, Option.map_map, Option.map_map]
  exact congrArg (Option.map · (ledger.get? user)) (funext fun account =>
    account.closedDeals_settled user deal)

theorem entered_paid (ledger : Ledger) (deal : Deal) :
    (ledger.paid deal).entered deal = ledger.settled deal := by
  refine SortedMap.ext_get? fun user => ?_
  unfold entered paid settled
  rw [SortedMap.get?_mapWithKey, SortedMap.get?_mapWithKey, SortedMap.get?_mapWithKey, Option.map_map]
  rfl

/-- The balance of a user, or an empty one if there is no such user. -/
def balanceOf (ledger : Ledger) (user : UserId) : Balance :=
  ((ledger.get? user).map (·.balance)).getD {}

/-- Both parties have accounts and, unless they are the same user, the deal's amounts and what it leaves
    either of them with are in range. -/
structure CanSettle (ledger : Ledger) (deal : Deal) : Prop where
  buyer : (ledger.get? deal.buyer).isSome
  seller : (ledger.get? deal.seller).isSome
  amounts : deal.isSelfTrade = false →
    Amount.InRange deal.quantity ∧ Amount.InRange (deal.price * deal.quantity)
  balances : deal.isSelfTrade = false →
    (deal.balancesAfter ledger.balanceOf deal.buyer).InRange ∧
      (deal.balancesAfter ledger.balanceOf deal.seller).InRange

/-! ## The steps of a settlement -/

theorem update_eq_ok {ledger : Ledger} {user : UserId} {account changed : Account}
    {change : Account → Except TradeError Account} (ha : ledger.get? user = some account)
    (hc : change account = .ok changed) :
    ledger.update user change = (.ok (), ledger.insert user changed) := by
  unfold update
  rw [ha]
  dsimp only
  rw [hc]
  dsimp only
  rw [SortedMap.modify_eq_insert ha]

/-- A change of one account is refused without a trace or made. -/
theorem update_cases (ledger : Ledger) (user : UserId) (change : Account → Except TradeError Account) :
    (∃ cause, ledger.update user change = (.error cause, ledger)) ∨
      ∃ account changed, ledger.get? user = some account ∧ change account = .ok changed ∧
        ledger.update user change = (.ok (), ledger.insert user changed) := by
  cases hget : ledger.get? user with
  | none =>
    refine .inl ⟨.unknownUser user, ?_⟩
    unfold update
    rw [hget]
  | some account =>
    cases hchange : change account with
    | error cause =>
      refine .inl ⟨cause, ?_⟩
      unfold update
      rw [hget]
      dsimp only
      rw [hchange]
    | ok changed => exact .inr ⟨account, changed, rfl, hchange, update_eq_ok hget hchange⟩

/-- Entering a deal succeeds if both parties have accounts. -/
theorem enter_eq_ok {ledger : Ledger} {deal : Deal} {buyer seller : Account}
    (hb : ledger.get? deal.buyer = some buyer) (hs : ledger.get? deal.seller = some seller) :
    ledger.enter deal = (.ok (), ledger.entered deal) := by
  have hfirst : ledger.update deal.buyer (fun account => .ok (account.addDeal deal)) =
      (.ok (), ledger.insert deal.buyer (buyer.addDeal deal)) := update_eq_ok hb rfl
  have hget : (ledger.insert deal.buyer (buyer.addDeal deal)).get? deal.seller =
      some (if deal.seller = deal.buyer then buyer.addDeal deal else seller) := by
    rw [SortedMap.get?_insert]
    by_cases he : deal.seller = deal.buyer
    · rw [if_pos he, if_pos he]
    · rw [if_neg he, if_neg he, hs]
  have hsecond : update (ledger.insert deal.buyer (buyer.addDeal deal)) deal.seller
      (fun account => .ok (account.addDeal deal)) = _ := update_eq_ok hget rfl
  unfold enter
  rw [hfirst, Attempt.andThen_ok, hsecond]
  refine congrArg (Prod.mk _) (SortedMap.ext_get? fun user => ?_)
  unfold entered
  rw [SortedMap.get?_insert, SortedMap.get?_insert, SortedMap.get?_mapWithKey]
  by_cases hus : user = deal.seller
  · rw [if_pos hus, hus, hs]
    simp only [Option.map_some, Account.entered, or_true, if_true]
    by_cases he : deal.seller = deal.buyer
    · -- of a trade with oneself the second entry is the first once more
      rw [if_pos he, Account.addDeal_addDeal, Option.some.inj (hs.symm.trans (he ▸ hb))]
    · rw [if_neg he]
  · rw [if_neg hus]
    by_cases hub : user = deal.buyer
    · rw [if_pos hub, hub, hb]
      simp only [Option.map_some, Account.entered, true_or, if_true]
    · rw [if_neg hub]
      cases ledger.get? user with
      | none => rfl
      | some account => simp [Account.entered, hub, hus]

theorem balanceOf_of_get? {ledger : Ledger} {user : UserId} {account : Account}
    (h : ledger.get? user = some account) : ledger.balanceOf user = account.balance := by
  unfold balanceOf
  rw [h]
  rfl

/-- Paying changes the accounts of the two parties. -/
theorem paid_eq_insert {ledger : Ledger} {deal : Deal} {buyer seller : Account}
    (hb : ledger.get? deal.buyer = some buyer)
    (hs : ledger.get? deal.seller = some seller) :
    ledger.paid deal = (ledger.insert deal.buyer (buyer.paid deal.buyer deal)).insert deal.seller
      (seller.paid deal.seller deal) := by
  refine SortedMap.ext_get? fun user => ?_
  unfold paid
  rw [SortedMap.get?_insert, SortedMap.get?_insert, SortedMap.get?_mapWithKey]
  by_cases hus : user = deal.seller
  · rw [if_pos hus, hus, hs]
    rfl
  · rw [if_neg hus]
    by_cases hub : user = deal.buyer
    · rw [if_pos hub, hub, hb]
      rfl
    · rw [if_neg hub]
      cases ledger.get? user with
      | none => rfl
      | some account =>
        show some { account with balance := _ } = some account
        rw [Deal.balancesAfter_of_ne hub hus]

/-- The money of a deal of two users that both can bear moves. -/
theorem transfer_eq_ok {ledger : Ledger} {deal : Deal} {buyer seller : Account}
    (hself : deal.isSelfTrade = false) (hb : ledger.get? deal.buyer = some buyer)
    (hs : ledger.get? deal.seller = some seller) (h : ledger.CanSettle deal) :
    ledger.transfer deal = (.ok (), ledger.paid deal) := by
  have hne : deal.buyer ≠ deal.seller := of_decide_eq_false hself
  obtain ⟨hquantity, hcost⟩ := h.amounts hself
  obtain ⟨hbuyer, hseller⟩ := h.balances hself
  have hnotional : deal.notional? = some (deal.price * deal.quantity) :=
    Amount.notional?_eq_some_iff.mpr ⟨hquantity, hcost, rfl⟩
  have hbuy : buyer.buy deal.quantity (deal.price * deal.quantity) =
      .ok (buyer.paid deal.buyer deal) := by
    rw [Deal.balancesAfter_buyer hself, balanceOf_of_get? hb] at hbuyer
    unfold Account.buy Account.paid
    rw [Deal.balancesAfter_buyer hself]
    exact congrArg buyer.withBalance (Balance.checked?_eq_some_iff.mpr ⟨hbuyer, rfl⟩)
  have hsold : seller.balance.sold? deal.quantity (deal.price * deal.quantity) =
      some (seller.paid deal.seller deal).balance := by
    rw [Deal.balancesAfter_seller hself, balanceOf_of_get? hs] at hseller
    unfold Account.paid
    rw [Deal.balancesAfter_seller hself]
    exact Balance.checked?_eq_some_iff.mpr ⟨hseller, rfl⟩
  have hsell : seller.sell deal.quantity (deal.price * deal.quantity) =
      .ok (seller.paid deal.seller deal) := by
    unfold Account.sell
    rw [hsold]
    rfl
  -- the buyer's change leaves the seller's account as it was
  have hget : (ledger.insert deal.buyer (buyer.paid deal.buyer deal)).get? deal.seller =
      some seller := by
    rw [SortedMap.get?_insert, if_neg hne.symm, hs]
  unfold transfer
  rw [hnotional]
  dsimp only
  rw [hs]
  dsimp only
  rw [hsold]
  show (ledger.update _ _).andThen _ = _
  rw [update_eq_ok hb hbuy, Attempt.andThen_ok, update_eq_ok hget hsell,
    paid_eq_insert hb hs]

/-- **A deal that both parties can bear is settled**, and what comes of it is the change of the whole
    ledger that `settled` describes. -/
theorem settle_eq_ok {ledger : Ledger} {deal : Deal} (h : ledger.CanSettle deal) :
    ledger.settle deal = (.ok (), ledger.settled deal) := by
  obtain ⟨buyer, hb⟩ := Option.isSome_iff_exists.mp h.buyer
  obtain ⟨seller, hs⟩ := Option.isSome_iff_exists.mp h.seller
  unfold settle
  by_cases hself : deal.isSelfTrade = true
  · rw [if_pos hself, enter_eq_ok hb hs, ← entered_paid]
    refine congrArg (fun l : Ledger => (Except.ok (), l.entered deal)) (SortedMap.ext_get? fun user => ?_)
    unfold paid
    rw [SortedMap.get?_mapWithKey]
    cases ledger.get? user with
    | none => rfl
    | some account =>
      show some account = some { account with balance := _ }
      rw [Deal.balancesAfter_of_isSelfTrade hself]
  · have hother : deal.isSelfTrade = false := Bool.eq_false_iff.mpr hself
    have hb' : (ledger.paid deal).get? deal.buyer = some (buyer.paid deal.buyer deal) := by
      unfold paid
      rw [SortedMap.get?_mapWithKey, hb]
      rfl
    have hs' : (ledger.paid deal).get? deal.seller = some (seller.paid deal.seller deal) := by
      unfold paid
      rw [SortedMap.get?_mapWithKey, hs]
      rfl
    rw [if_neg hself, transfer_eq_ok hother hb hs h, Attempt.andThen_ok, enter_eq_ok hb' hs',
      entered_paid]

/-! ## Conservation -/

/-- Ledgers with the same balances have the same sums. -/
theorem total_balance {ledger ledger' : Ledger} (weight : Balance → Int)
    (h : ∀ user, (ledger.get? user).map (·.balance) = (ledger'.get? user).map (·.balance)) :
    ledger.total (fun account => weight account.balance) =
      ledger'.total fun account => weight account.balance := by
  refine SortedMap.total_congr fun user => ?_
  have hbalance := congrArg (Option.map weight) (h user)
  rwa [Option.map_map, Option.map_map] at hbalance

/-- Two legs of one deal cancel out in any sum over the accounts. -/
theorem total_paid {ledger : Ledger} {deal : Deal} {buyer seller : Account} {weight : Account → Int}
    (hself : deal.isSelfTrade = false) (hb : ledger.get? deal.buyer = some buyer)
    (hs : ledger.get? deal.seller = some seller)
    (hlegs : weight (buyer.paid deal.buyer deal) - weight buyer =
      weight seller - weight (seller.paid deal.seller deal)) :
    (ledger.paid deal).total weight = ledger.total weight := by
  have hne : deal.buyer ≠ deal.seller := of_decide_eq_false hself
  have hget : (ledger.insert deal.buyer (buyer.paid deal.buyer deal)).get? deal.seller =
      some seller := by
    rw [SortedMap.get?_insert, if_neg hne.symm, hs]
  rw [paid_eq_insert hb hs, SortedMap.total_insert_of_get? hget, SortedMap.total_insert_of_get? hb]
  omega

/-- **A deal keeps the sum of either currency over all accounts.** -/
theorem total_settled {ledger : Ledger} {deal : Deal} (hb : (ledger.get? deal.buyer).isSome)
    (hs : (ledger.get? deal.seller).isSome) :
    (ledger.settled deal).total (·.balance.usd) = ledger.total (·.balance.usd) ∧
      (ledger.settled deal).total (·.balance.rub) = ledger.total (·.balance.rub) := by
  obtain ⟨buyer, hb⟩ := Option.isSome_iff_exists.mp hb
  obtain ⟨seller, hs⟩ := Option.isSome_iff_exists.mp hs
  by_cases hself : deal.isSelfTrade = true
  · have hsame : ∀ user, ((ledger.settled deal).get? user).map (·.balance) =
        (ledger.get? user).map (·.balance) := by
      intro user
      rw [get?_settled, Option.map_map]
      refine congrArg (Option.map · (ledger.get? user)) (funext fun account => ?_)
      show (account.settled user deal).balance = account.balance
      rw [Account.balance_settled, Deal.balancesAfter_of_isSelfTrade hself]
    exact ⟨total_balance (·.usd) hsame, total_balance (·.rub) hsame⟩
  · have hother : deal.isSelfTrade = false := Bool.eq_false_iff.mpr hself
    have hentered : ∀ user, ((ledger.settled deal).get? user).map (·.balance) =
        ((ledger.paid deal).get? user).map (·.balance) := by
      intro user
      unfold settled paid
      rw [SortedMap.get?_mapWithKey, SortedMap.get?_mapWithKey, Option.map_map, Option.map_map]
      refine congrArg (Option.map · (ledger.get? user)) (funext fun account => ?_)
      exact account.balance_settled user deal
    constructor
    · refine (total_balance (·.usd) hentered).trans (total_paid hother hb hs ?_)
      unfold Account.paid
      rw [Deal.balancesAfter_buyer hother, Deal.balancesAfter_seller hother]
      dsimp only
      omega
    · refine (total_balance (·.rub) hentered).trans (total_paid hother hb hs ?_)
      unfold Account.paid
      rw [Deal.balancesAfter_buyer hother, Deal.balancesAfter_seller hother]
      dsimp only
      omega

end Ledger

end Bourse
