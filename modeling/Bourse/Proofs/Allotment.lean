import Bourse.Proofs.Posting

/-!
# `Bourse.Proofs.Allotment` — the deals of an incoming offer, one by one

An incoming offer deals its quantity out to a queue of makers. Each deal that comes of it is with a maker of
the queue and over some units (`Offer.mem_dealsOf_allot`), and no maker gives more than it has
(`Offer.takenFrom_dealsOf_le`). On a sound market the queue is that of the counterparts, so every deal that
is due is within the limits of both offers (`Sound.mem_dueDeals`, `Deal.KeepsTo`).
-/

namespace Bourse

/-! ## Sums over deals -/

namespace Deal

theorem traded_append (first second : List Deal) :
    traded (first ++ second) = traded first + traded second := by
  induction first with
  | nil => exact (Nat.zero_add _).symm
  | cons deal rest ih =>
    rw [List.cons_append, traded_cons, traded_cons, ih, Nat.add_assoc]

/-- Nothing was taken from an offer that no deal has as its maker. -/
theorem takenFrom_eq_zero {deals : List Deal} {offer : OfferId}
    (h : ∀ deal ∈ deals, deal.maker ≠ offer) : takenFrom deals offer = 0 := by
  have hnone : deals.filter (fun deal => deal.maker = offer) = [] := by
    refine List.filter_eq_nil_iff.mpr fun deal hdeal hmaker => ?_
    exact h deal hdeal (of_decide_eq_true hmaker)
  unfold takenFrom
  rw [hnone]
  rfl

end Deal

/-! ## The deals of a queue -/

namespace Offer

variable {taker : Offer} {queue : List Offer}

/-- Every deal of an allotment is with a maker of the queue, and over some units of it. -/
theorem mem_dealsOf_allot (hpos : ∀ maker ∈ queue, 0 < maker.remaining) {wanted : Quantity}
    {first : DealId} {deal : Deal} (h : deal ∈ taker.dealsOf first (allot wanted queue)) :
    ∃ maker ∈ queue, ∃ id quantity, 0 < quantity ∧ deal = taker.dealWith maker id quantity := by
  induction queue generalizing wanted first with
  | nil => cases h
  | cons maker rest ih =>
    by_cases hwanted : wanted = 0
    · rw [hwanted, allot_zero] at h
      cases h
    · rw [allot_cons hwanted, dealsOf_cons] at h
      rcases List.mem_cons.mp h with rfl | hrest
      · have hquantity : 0 < min wanted maker.remaining :=
          Nat.lt_min.mpr ⟨Nat.pos_of_ne_zero hwanted, hpos maker List.mem_cons_self⟩
        exact ⟨maker, List.mem_cons_self, first, _, hquantity, rfl⟩
      · obtain ⟨found, hfound, hdeal⟩ :=
          ih (fun m hm => hpos m (List.mem_cons_of_mem _ hm)) hrest
        exact ⟨found, List.mem_cons_of_mem _ hfound, hdeal⟩

/-- Nothing is taken from an offer that is not in the queue. -/
theorem takenFrom_dealsOf_of_not_mem {id : OfferId} (h : ∀ maker ∈ queue, maker.id ≠ id)
    (wanted : Quantity) (first : DealId) :
    Deal.takenFrom (taker.dealsOf first (allot wanted queue)) id = 0 := by
  induction queue generalizing wanted first with
  | nil => rfl
  | cons maker rest ih =>
    by_cases hwanted : wanted = 0
    · rw [hwanted, allot_zero]
      rfl
    · have hmaker : (taker.dealWith maker first (min wanted maker.remaining)).maker ≠ id :=
        h maker List.mem_cons_self
      rw [allot_cons hwanted, dealsOf_cons, Deal.takenFrom_cons, if_neg hmaker,
        ih fun m hm => h m (List.mem_cons_of_mem _ hm)]

/-- **No maker gives more than it has**, if the queue has it once. -/
theorem takenFrom_dealsOf_le (hnodup : (queue.map (·.id)).Nodup) {maker : Offer} (hmaker : maker ∈ queue)
    (wanted : Quantity) (first : DealId) :
    Deal.takenFrom (taker.dealsOf first (allot wanted queue)) maker.id ≤ maker.remaining := by
  induction queue generalizing wanted first with
  | nil => cases hmaker
  | cons head rest ih =>
    obtain ⟨hhead, hrest⟩ := List.nodup_cons.mp hnodup
    by_cases hwanted : wanted = 0
    · rw [hwanted, allot_zero]
      exact Nat.zero_le _
    · have hfirst : (taker.dealWith head first (min wanted head.remaining)).maker = head.id := rfl
      rw [allot_cons hwanted, dealsOf_cons, Deal.takenFrom_cons, hfirst]
      rcases List.mem_cons.mp hmaker with rfl | hmem
      · -- the first deal is with it, and no later one
        have hlater : ∀ m ∈ rest, m.id ≠ maker.id := by
          intro m hm heq
          exact hhead (List.mem_map.mpr ⟨m, hm, heq⟩)
        rw [if_pos rfl, takenFrom_dealsOf_of_not_mem hlater]
        exact Nat.min_le_right _ _
      · have hother : head.id ≠ maker.id := by
          intro heq
          exact hhead (List.mem_map.mpr ⟨maker, hmem, heq.symm⟩)
        rw [if_neg hother, Nat.zero_add]
        exact ih hrest hmem _ _

end Offer

/-! ## The terms of a deal -/

/-- A deal on the terms of one of the two offers that made it. -/
structure Deal.KeepsTo (deal : Deal) (offer : Offer) : Prop where
  quantity_pos : 0 < deal.quantity
  /-- Of two users who trade, the owner of an offer to buy is the buyer and that of an offer to sell the
      seller. -/
  party : deal.buyer ≠ deal.seller →
    (deal.buyer = offer.owner ↔ offer.side = .buy) ∧ (deal.seller = offer.owner ↔ offer.side = .sell)
  /-- A user who trades with themselves is both. -/
  self : deal.buyer = deal.seller → deal.buyer = offer.owner
  /-- The price is within the limit of the offer. -/
  within : offer.side.crosses offer.price deal.price = true
  /-- The price is that of the offer that rested. -/
  own_price : deal.maker = offer.id → deal.price = offer.price

theorem Side.crosses_self (side : Side) (price : Price) : side.crosses price price = true := by
  cases side <;> simp [crosses]

namespace Offer

variable {taker maker : Offer} {quantity : Quantity}

/-- A deal within the limit of the incoming offer is on its terms. -/
theorem dealWith_keepsTo_taker (hquantity : 0 < quantity) (hid : maker.id ≠ taker.id)
    (hcross : taker.side.crosses taker.price maker.price = true) (id : DealId) :
    (taker.dealWith maker id quantity).KeepsTo taker where
  quantity_pos := hquantity
  party := by
    unfold dealWith
    cases hs : taker.side
    · simp [Side.buyer, Side.seller, eq_comm]
    · simp [Side.buyer, Side.seller]
  self := by
    unfold dealWith
    cases hs : taker.side
    · simp [Side.buyer, Side.seller]
    · simp [Side.buyer, Side.seller]
  within := hcross
  own_price hmaker := absurd hmaker hid

/-- A deal at the price of the resting offer is on the terms on which it was posted. -/
theorem dealWith_keepsTo_maker (hquantity : 0 < quantity) (hside : maker.side = taker.side.opposite)
    {posted : Offer} (howner : posted.owner = maker.owner) (hsame : posted.side = maker.side)
    (hprice : posted.price = maker.price) (id : DealId) :
    (taker.dealWith maker id quantity).KeepsTo posted where
  quantity_pos := hquantity
  party := by
    unfold dealWith
    rw [howner, hsame, hside]
    cases hs : taker.side
    · simp [Side.buyer, Side.seller, Side.opposite]
    · simp [Side.buyer, Side.seller, Side.opposite, eq_comm]
  self := by
    unfold dealWith
    rw [howner]
    cases hs : taker.side
    · simp [Side.buyer, Side.seller]
    · simp [Side.buyer, Side.seller]
  within := by
    rw [hprice]
    exact Side.crosses_self _ _
  own_price _ := hprice.symm

end Offer

/-! ## The deals of a posting -/

namespace Market

variable {σ : Type}

theorem Sound.mem_counterparts_iff {market : Market σ} (h : market.Sound) {side : Side} {limit : Price}
    {offer : Offer} :
    offer ∈ market.accounts.counterparts side limit ↔
      (∃ entry, market.accounts.activeOffer? entry = some offer) ∧ offer.side = side.opposite ∧
        side.crosses limit offer.price = true := by
  rw [h.counterparts_eq, h.mem_met_iff]

theorem Sound.remaining_pos_of_counterpart {market : Market σ} (h : market.Sound) {side : Side}
    {limit : Price} {maker : Offer} (hmaker : maker ∈ market.accounts.counterparts side limit) :
    0 < maker.remaining := by
  obtain ⟨⟨entry, hlive⟩, -⟩ := h.mem_counterparts_iff.mp hmaker
  exact (h.resting hlive).remaining_pos

theorem Sound.nodup_counterparts {market : Market σ} (h : market.Sound) (side : Side) (limit : Price) :
    ((market.accounts.counterparts side limit).map (·.id)).Nodup := by
  rw [h.counterparts_eq]
  refine List.pairwise_map.mpr ((h.pairwise_met side limit).imp_of_mem ?_)
  intro a b ha hb hab hid
  obtain ⟨⟨entry, hlive⟩, -⟩ := h.mem_met_iff.mp ha
  obtain ⟨⟨entry', hlive'⟩, -⟩ := h.mem_met_iff.mp hb
  rw [h.eq_of_id_eq hlive hlive' hid] at hab
  rcases hab with hbetter | ⟨-, hlt⟩
  · rw [Side.isBetter_irrefl] at hbetter
    cases hbetter
  · exact Nat.lt_irrefl _ hlt

/-- **Every deal that is due is with an active offer of the other side** whose price the limit admits, and
    over some units of it. -/
theorem Sound.mem_dueDeals {market : Market σ} (h : market.Sound) {user : UserId} {side : Side}
    {price : Price} {quantity : Quantity} {deal : Deal}
    (hdeal : deal ∈ market.dueDeals user side price quantity) :
    ∃ entry maker id amount, market.accounts.activeOffer? entry = some maker ∧
      maker.side = side.opposite ∧ side.crosses price maker.price = true ∧ 0 < amount ∧
        deal = (Offer.post market.offerIds.next user side price quantity).dealWith maker id amount := by
  obtain ⟨maker, hmaker, id, amount, hamount, hdeal⟩ :=
    Offer.mem_dealsOf_allot (fun _ hmaker => h.remaining_pos_of_counterpart hmaker) hdeal
  obtain ⟨⟨entry, hlive⟩, hside, hcross⟩ := h.mem_counterparts_iff.mp hmaker
  exact ⟨entry, maker, id, amount, hlive, hside, hcross, hamount, hdeal⟩

/-- **The deals that are due take no more from an active offer than it has.** -/
theorem Sound.takenFrom_dueDeals_le {market : Market σ} (h : market.Sound) {entry : QueueEntry}
    {offer : Offer} (hlive : market.accounts.activeOffer? entry = some offer) (user : UserId)
    (side : Side) (price : Price) (quantity : Quantity) :
    Deal.takenFrom (market.dueDeals user side price quantity) entry.offer ≤ offer.remaining := by
  rw [← (h.resting hlive).id_eq]
  by_cases hmem : offer ∈ market.accounts.counterparts side price
  · exact Offer.takenFrom_dealsOf_le (h.nodup_counterparts side price) hmem _ _
  · have hother : ∀ maker ∈ market.accounts.counterparts side price, maker.id ≠ offer.id := by
      intro maker hmaker hid
      obtain ⟨⟨entry', hlive'⟩, -⟩ := h.mem_counterparts_iff.mp hmaker
      rw [h.eq_of_id_eq hlive' hlive hid] at hmaker
      exact hmem hmaker
    unfold dueDeals
    rw [Offer.takenFrom_dealsOf_of_not_mem hother]
    exact Nat.zero_le _

end Market

end Bourse
