import Bourse.Proofs.Priority

/-!
# `Bourse.Proofs.DryRun` — the walk over the deals to come agrees with the deals

Before anything changes, a posting is vetted by a walk over the entries it is about to meet. The walk keeps
the balances that deals have changed in a projection and reads the others from the accounts. It `Agrees` with
exact balances, and each deal keeps the agreement, so the walk fails at the first deal that takes a
balance out of range and names the party whose balance it is (`foresee_eq`).

No other failure is possible: the amounts of a deal with a resting offer are in range, and both of its
parties have accounts. `Sound.vet_eq` sums up what keeps an offer from being posted.
-/

namespace Bourse

namespace Ledger

/-! ## Projections -/

/-- What the projection does not have of the balances is in the accounts. -/
def Agrees (ledger : Ledger) (projection : Projection) (balances : UserId → Balance) : Prop :=
  ∀ user, (ledger.get? user).isSome → ledger.projected projection user = .ok (balances user)

theorem agrees_empty (ledger : Ledger) : ledger.Agrees .empty ledger.balanceOf := by
  intro user huser
  obtain ⟨account, hget⟩ := Option.isSome_iff_exists.mp huser
  show (ledger.account user).map (·.balance) = _
  rw [balanceOf_of_get? hget]
  unfold Ledger.account
  rw [hget]
  rfl

theorem projected_insert (ledger : Ledger) (projection : Projection) (user u : UserId)
    (balance : Balance) :
    ledger.projected (projection.insert user balance) u =
      if u = user then .ok balance else ledger.projected projection u := by
  unfold projected
  rw [SortedMap.get?_insert]
  by_cases hu : u = user
  · rw [if_pos hu, if_pos hu]
  · rw [if_neg hu, if_neg hu]

theorem project_of_inRange {ledger : Ledger} {projection : Projection} {user : UserId}
    {balance next : Balance} {change : Balance → Option Balance}
    (hbalance : ledger.projected projection user = .ok balance)
    (hchange : change balance = next.checked?) (hrange : next.InRange) :
    ledger.project projection user change = .ok (projection.insert user next) := by
  unfold project
  rw [hbalance]
  dsimp only
  rw [hchange, Balance.checked?_eq_some_iff.mpr ⟨hrange, rfl⟩]

theorem project_of_not_inRange {ledger : Ledger} {projection : Projection} {user : UserId}
    {balance next : Balance} {change : Balance → Option Balance}
    (hbalance : ledger.projected projection user = .ok balance)
    (hchange : change balance = next.checked?) (hrange : ¬next.InRange) :
    ledger.project projection user change = .error (.balanceOutOfRange user) := by
  unfold project
  rw [hbalance]
  dsimp only
  rw [hchange, show next.checked? = none from if_neg hrange]

section OneDeal

variable {ledger : Ledger} {projection : Projection} {balances : UserId → Balance} {deal : Deal}

/-- **A deal of two users is foreseen as it will be settled**: the buyer's balance is looked at first, and
    where both stay in range the projection takes them over. -/
theorem projectDeal_eq (hagree : ledger.Agrees projection balances)
    (hself : deal.isSelfTrade = false) (hbuyer : (ledger.get? deal.buyer).isSome)
    (hseller : (ledger.get? deal.seller).isSome) (hquantity : Amount.InRange deal.quantity)
    (hcost : Amount.InRange (deal.price * deal.quantity)) :
    ledger.projectDeal projection deal.buyer deal.seller deal.price deal.quantity =
      if ¬(deal.balancesAfter balances deal.buyer).InRange then
        .error (.balanceOutOfRange deal.buyer)
      else if ¬(deal.balancesAfter balances deal.seller).InRange then
        .error (.balanceOutOfRange deal.seller)
      else
        .ok ((projection.insert deal.buyer (deal.balancesAfter balances deal.buyer)).insert
          deal.seller (deal.balancesAfter balances deal.seller)) := by
  have hne : deal.buyer ≠ deal.seller := of_decide_eq_false hself
  have hnotional : Amount.notional? deal.price deal.quantity = some (deal.price * deal.quantity) :=
    Amount.notional?_eq_some_iff.mpr ⟨hquantity, hcost, rfl⟩
  have hbought : (balances deal.buyer).bought? deal.quantity (deal.price * deal.quantity) =
      (deal.balancesAfter balances deal.buyer).checked? := by
    rw [Deal.balancesAfter_buyer hself]
    rfl
  have hsold : (balances deal.seller).sold? deal.quantity (deal.price * deal.quantity) =
      (deal.balancesAfter balances deal.seller).checked? := by
    rw [Deal.balancesAfter_seller hself]
    rfl
  unfold projectDeal
  rw [hnotional]
  dsimp only
  by_cases hb : (deal.balancesAfter balances deal.buyer).InRange
  · -- the seller's balance is not the one that has just changed
    have hprojected : ledger.projected (projection.insert deal.buyer
        (deal.balancesAfter balances deal.buyer)) deal.seller = .ok (balances deal.seller) := by
      rw [projected_insert, if_neg hne.symm, hagree _ hseller]
    rw [project_of_inRange (hagree _ hbuyer) hbought hb, if_neg (not_not_intro hb)]
    dsimp only
    by_cases hs : (deal.balancesAfter balances deal.seller).InRange
    · rw [project_of_inRange hprojected hsold hs, if_neg (not_not_intro hs)]
    · rw [project_of_not_inRange hprojected hsold hs, if_pos hs]
  · rw [project_of_not_inRange (hagree _ hbuyer) hbought hb, if_pos hb]

/-- Taking over the balances of the two parties keeps the agreement. -/
theorem Agrees.insert (hagree : ledger.Agrees projection balances) :
    ledger.Agrees ((projection.insert deal.buyer (deal.balancesAfter balances deal.buyer)).insert
      deal.seller (deal.balancesAfter balances deal.seller)) (deal.balancesAfter balances) := by
  intro user huser
  rw [projected_insert, projected_insert]
  by_cases hs : user = deal.seller
  · rw [if_pos hs, hs]
  · rw [if_neg hs]
    by_cases hb : user = deal.buyer
    · rw [if_pos hb, hb]
    · rw [if_neg hb, Deal.balancesAfter_of_ne hb hs]
      exact hagree user huser

end OneDeal

/-! ## The walk -/

/-- The entries name offers that rest at their prices. -/
def Lists (ledger : Ledger) (entries : List (Price × QueueEntry)) : Prop :=
  ∀ x ∈ entries, ∀ maker, ledger.activeOffer? x.2 = some maker →
    maker.price = x.1 ∧ maker.Resting x.2.owner x.2.offer

/-- What a walk reports: the user whose balance would leave the range, if there is one. -/
def verdict : Option UserId → Except TradeError Unit
  | none => .ok ()
  | some user => .error (.balanceOutOfRange user)

section OneEntry

variable {ledger : Ledger} {taker maker : Offer} {entry : QueueEntry}
  {rest : List (Price × QueueEntry)} {wanted : Quantity} {projection : Projection} {first : DealId}
  {deal : Deal}

/-- A user's trade with themselves is passed over. -/
theorem foresee_of_self (hwanted : wanted ≠ 0)
    (hcross : taker.side.crosses taker.price maker.price = true)
    (hlive : ledger.activeOffer? entry = some maker)
    (hdeal : taker.dealWith maker first (min wanted maker.remaining) = deal)
    (hself : deal.isSelfTrade = true) :
    ledger.foresee taker.owner taker.side taker.price ((maker.price, entry) :: rest) wanted
        projection =
      ledger.foresee taker.owner taker.side taker.price rest (wanted - min wanted maker.remaining)
        projection := by
  subst hdeal
  have hsame : taker.side.buyer taker.owner maker.owner = taker.side.seller taker.owner maker.owner :=
    of_decide_eq_true hself
  rw [foresee, if_neg (by simp [hwanted, hcross]), hlive]
  dsimp only
  rw [if_pos hsame]

/-- A deal of two users is projected before the walk goes on. -/
theorem foresee_of_other (hwanted : wanted ≠ 0)
    (hcross : taker.side.crosses taker.price maker.price = true)
    (hlive : ledger.activeOffer? entry = some maker)
    (hdeal : taker.dealWith maker first (min wanted maker.remaining) = deal)
    (hother : deal.isSelfTrade = false) :
    ledger.foresee taker.owner taker.side taker.price ((maker.price, entry) :: rest) wanted
        projection =
      (ledger.projectDeal projection deal.buyer deal.seller deal.price deal.quantity).bind
        fun projection => ledger.foresee taker.owner taker.side taker.price rest
          (wanted - min wanted maker.remaining) projection := by
  subst hdeal
  have hne : taker.side.buyer taker.owner maker.owner ≠ taker.side.seller taker.owner maker.owner :=
    of_decide_eq_false hother
  rw [foresee, if_neg (by simp [hwanted, hcross]), hlive]
  dsimp only
  rw [if_neg hne]
  show _ = Except.bind (ledger.projectDeal projection (taker.side.buyer taker.owner maker.owner)
    (taker.side.seller taker.owner maker.owner) maker.price (min wanted maker.remaining)) _
  cases ledger.projectDeal projection (taker.side.buyer taker.owner maker.owner)
    (taker.side.seller taker.owner maker.owner) maker.price (min wanted maker.remaining) <;> rfl

end OneEntry

/-- **The walk reports the first party whose balance the deals take out of range, and nothing else.** -/
theorem foresee_eq {ledger : Ledger} {taker : Offer} (howner : (ledger.get? taker.owner).isSome)
    {entries : List (Price × QueueEntry)} (hlists : ledger.Lists entries) (wanted : Quantity)
    {projection : Projection} {balances : UserId → Balance}
    (hagree : ledger.Agrees projection balances) (hrange : ∀ user, (balances user).InRange)
    (first : DealId) :
    ledger.foresee taker.owner taker.side taker.price entries wanted projection =
      verdict (Deal.firstOutOfRange? balances (taker.dealsOf first
        (Offer.allot wanted (ledger.met taker.side taker.price entries)))) := by
  induction entries generalizing wanted projection balances first with
  | nil => rfl
  | cons x rest ih =>
    obtain ⟨price, entry⟩ := x
    have hrest : ledger.Lists rest := fun y hy => hlists y (List.mem_cons_of_mem _ hy)
    by_cases hwanted : wanted = 0
    · rw [hwanted, Offer.allot_zero, foresee, if_pos (.inl rfl)]
      rfl
    by_cases hcross : taker.side.crosses taker.price price = true
    · cases hlive : ledger.activeOffer? entry with
      | none =>
        rw [met_of_expired hcross hlive, foresee, if_neg (by simp [hwanted, hcross]), hlive]
        exact ih hrest wanted hagree hrange first
      | some maker =>
        obtain ⟨rfl, hresting⟩ := hlists (price, entry) List.mem_cons_self maker hlive
        rw [met_of_live hcross hlive, Offer.allot_cons hwanted, Offer.dealsOf_cons,
          Deal.firstOutOfRange?_cons]
        generalize hdeal : taker.dealWith maker first (min wanted maker.remaining) = deal
        by_cases hself : deal.isSelfTrade = true
        · rw [foresee_of_self hwanted hcross hlive hdeal hself,
            Deal.balancesAfter_of_isSelfTrade hself, if_neg (not_not_intro (hrange _)),
            if_neg (not_not_intro (hrange _))]
          exact ih hrest _ hagree hrange _
        · have hother : deal.isSelfTrade = false := Bool.eq_false_iff.mpr hself
          have hmaker : (ledger.get? maker.owner).isSome := by
            obtain ⟨account, hget, -⟩ := activeOffer?_eq_some_iff.mp hlive
            rw [hresting.owner_eq, hget]
            rfl
          have hbuyer : (ledger.get? deal.buyer).isSome :=
            hdeal ▸ taker.isSome_buyer_dealWith first _ howner hmaker
          have hseller : (ledger.get? deal.seller).isSome :=
            hdeal ▸ taker.isSome_seller_dealWith first _ howner hmaker
          have hamounts : Amount.InRange deal.quantity ∧ Amount.InRange (deal.price * deal.quantity) :=
            hdeal ▸ hresting.amounts_inRange (Nat.min_le_right wanted maker.remaining)
          rw [foresee_of_other hwanted hcross hlive hdeal hother,
            projectDeal_eq hagree hother hbuyer hseller hamounts.1 hamounts.2]
          by_cases hb : (deal.balancesAfter balances deal.buyer).InRange
          · rw [if_neg (not_not_intro hb), if_neg (not_not_intro hb)]
            by_cases hs : (deal.balancesAfter balances deal.seller).InRange
            · rw [if_neg (not_not_intro hs), if_neg (not_not_intro hs)]
              exact ih hrest _ hagree.insert (Deal.inRange_balancesAfter hrange hb hs) _
            · rw [if_pos hs, if_pos hs]
              rfl
          · rw [if_pos hb, if_pos hb]
            rfl
    · rw [met_of_not_crosses (Bool.eq_false_iff.mpr hcross), foresee, if_pos (by simp [hcross])]
      rfl

end Ledger

namespace Market

variable {σ : Type}

theorem Sound.lists {market : Market σ} (h : market.Sound) (side : Side) :
    market.accounts.Lists (market.book side).ranked := by
  intro x hx maker hlive
  exact ⟨(h.eq_of_queued ((h.wellFormed side).mem_ranked_iff.mp hx) hlive).2, h.resting hlive⟩

theorem Sound.balanceOf_inRange {market : Market σ} (h : market.Sound) (user : UserId) :
    (market.balanceOf user).InRange := by
  unfold balanceOf
  cases hget : market.accounts.get? user with
  | none => exact (by decide : ({} : Balance).InRange)
  | some account => exact (h.accounts hget).balance_inRange

/-- **The dry run of a posting reports the first party that the due deals take out of range.** -/
theorem Sound.foresee_eq {market : Market σ} (h : market.Sound) {user : UserId}
    (huser : (market.accounts.get? user).isSome) (side : Side) (price : Price) (quantity : Quantity) :
    market.accounts.foresee user side price (market.book side.opposite).ranked quantity .empty =
      Ledger.verdict (Deal.firstOutOfRange? market.balanceOf
        (market.dueDeals user side price quantity)) := by
  have howner : (market.accounts.get?
      (Offer.post market.offerIds.next user side price quantity).owner).isSome := huser
  unfold dueDeals
  rw [h.counterparts_eq]
  exact Ledger.foresee_eq howner (h.lists _) quantity market.accounts.agrees_empty
    h.balanceOf_inRange market.dealIds.next

/-- **An offer is let through exactly if there is no objection to it**, and refused with the objection. -/
theorem Sound.vet_eq {market : Market σ} (h : market.Sound) (user : UserId) (side : Side)
    (price : Price) (quantity : Quantity) :
    market.vet user side price quantity =
      match market.objection? user side price quantity with
      | none => .ok ()
      | some cause => .error cause := by
  unfold vet objection? Market.account Ledger.account
  cases hget : market.accounts.get? user with
  | none => rfl
  | some account =>
    have huser : (market.accounts.get? user).isSome := by
      rw [hget]
      rfl
    dsimp only [Option.isNone_some]
    rw [if_neg Bool.false_ne_true, h.foresee_eq huser]
    unfold Amount.notional?
    by_cases hquantity : quantity = 0
    · rw [if_pos hquantity, if_pos hquantity]
    · rw [if_neg hquantity, if_neg hquantity]
      by_cases hcost : Amount.InRange quantity ∧ Amount.InRange (price * quantity)
      · rw [if_pos hcost, if_neg (not_not_intro hcost)]
        cases Deal.firstOutOfRange? market.balanceOf (market.dueDeals user side price quantity) <;> rfl
      · rw [if_neg hcost, if_pos hcost]
        rfl

end Market

end Bourse
