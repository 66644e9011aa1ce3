import Bourse.Proofs.Soundness

/-!
# `Bourse.Proofs.Trade` — what one trade leaves of the two offers and of the accounts

A trade takes one quantity from two offers. What is left of a resting offer is `Offer.leftAfter`, nothing
once all of it is gone; amounts taken one after the other add up (`leftAfter_bind`), so that the deals of a
whole posting take from an offer what `Deal.takenFrom` says.

In the accounts a trade first puts the maker back, `Ledger.returned`, and then settles the deal. Neither
touches what the other does: the first leaves the balances alone (`balanceOf_returned`), the second the
offers (`activeOffer?_settled`).
-/

namespace Bourse

/-! ## Sums of money between two others -/

namespace Amount

/-- What lies between two sums in range is in range. -/
theorem InRange.between {x d e : Int} (hx : InRange x) (he : InRange (x + e))
    (h : 0 ≤ d ∧ d ≤ e ∨ e ≤ d ∧ d ≤ 0) : InRange (x + d) := by
  obtain ⟨hxl, hxu⟩ := hx
  obtain ⟨hel, heu⟩ := he
  constructor <;> omega

/-- A part of a quantity costs a part of what the whole costs. -/
theorem cost_between (price : Int) {part quantity : Nat} (h : part ≤ quantity) :
    0 ≤ price * part ∧ price * part ≤ price * quantity ∨
      price * quantity ≤ price * part ∧ price * part ≤ 0 := by
  have hpart : (part : Int) ≤ quantity := Int.ofNat_le.mpr h
  have hnonneg : (0 : Int) ≤ part := Int.natCast_nonneg part
  rcases Int.le_total 0 price with hprice | hprice
  · exact .inl ⟨Int.mul_nonneg hprice hnonneg, Int.mul_le_mul_of_nonneg_left hpart hprice⟩
  · exact .inr ⟨Int.mul_le_mul_of_nonpos_left hprice hpart,
      Int.mul_nonpos_of_nonpos_of_nonneg hprice hnonneg⟩

/-- No part of a quantity is too large or too dear if the whole is not. -/
theorem inRange_part {price : Int} {part quantity : Nat} (h : part ≤ quantity)
    (hquantity : InRange quantity) (hcost : InRange (price * quantity)) :
    InRange part ∧ InRange (price * part) := by
  have hzero : InRange 0 := by decide
  have hpart : (0 : Int) ≤ part ∧ (part : Int) ≤ quantity :=
    ⟨Int.natCast_nonneg part, Int.ofNat_le.mpr h⟩
  have hbetween : ∀ {d e : Int}, InRange e → 0 ≤ d ∧ d ≤ e ∨ e ≤ d ∧ d ≤ 0 → InRange d := by
    intro d e he hd
    rw [← Int.zero_add d]
    exact hzero.between ((Int.zero_add e).symm ▸ he) hd
  exact ⟨hbetween hquantity (.inl hpart), hbetween hcost (cost_between price h)⟩

end Amount

/-! ## Offers and their deals -/

namespace Offer

/-- The deal of an incoming offer with a resting one over `quantity` units. -/
def dealWith (taker maker : Offer) (id : DealId) (quantity : Quantity) : Deal where
  id
  seller := taker.side.seller taker.owner maker.owner
  buyer := taker.side.buyer taker.owner maker.owner
  maker := maker.id
  taker := taker.id
  price := maker.price
  quantity

/-- The buyer of a deal is one of the two owners. -/
theorem isSome_buyer_dealWith {ledger : Ledger} (taker : Offer) {maker : Offer} (id : DealId)
    (quantity : Quantity) (htaker : (ledger.get? taker.owner).isSome)
    (hmaker : (ledger.get? maker.owner).isSome) :
    (ledger.get? (taker.dealWith maker id quantity).buyer).isSome := by
  unfold dealWith
  cases taker.side
  · exact htaker
  · exact hmaker

/-- So is the seller. -/
theorem isSome_seller_dealWith {ledger : Ledger} (taker : Offer) {maker : Offer} (id : DealId)
    (quantity : Quantity) (htaker : (ledger.get? taker.owner).isSome)
    (hmaker : (ledger.get? maker.owner).isSome) :
    (ledger.get? (taker.dealWith maker id quantity).seller).isSome := by
  unfold dealWith
  cases taker.side
  · exact hmaker
  · exact htaker

theorem trade_eq_ok {taker maker : Offer} (h : maker.side = taker.side.opposite) (id : DealId) :
    taker.trade maker id = .ok {
      deal := taker.dealWith maker id (min taker.remaining maker.remaining)
      taker := taker.fill (min taker.remaining maker.remaining)
      maker := maker.fill (min taker.remaining maker.remaining) } := by
  have hne : taker.side ≠ maker.side := by
    rw [h]
    cases taker.side <;> nofun
  unfold trade
  rw [if_neg hne]
  rfl

theorem dealsOf_cons (taker : Offer) (first : DealId) (maker : Offer) (quantity : Quantity)
    (rest : List (Offer × Quantity)) :
    taker.dealsOf first ((maker, quantity) :: rest) =
      taker.dealWith maker first quantity :: taker.dealsOf (first + 1) rest := rfl

/-- Which deals an offer makes does not depend on what is left of it. -/
theorem dealsOf_fill (taker : Offer) (quantity : Quantity) (first : DealId)
    (shares : List (Offer × Quantity)) :
    (taker.fill quantity).dealsOf first shares = taker.dealsOf first shares := by
  induction shares generalizing first with
  | nil => rfl
  | cons share rest ih =>
    rw [dealsOf_cons, dealsOf_cons, ih]
    rfl

theorem allot_zero (queue : List Offer) : allot 0 queue = [] := by
  cases queue <;> rfl

theorem allot_cons {wanted : Quantity} (h : wanted ≠ 0) (maker : Offer) (rest : List Offer) :
    allot wanted (maker :: rest) =
      (maker, min wanted maker.remaining) :: allot (wanted - min wanted maker.remaining) rest := by
  have hleft : wanted - maker.remaining = wanted - min wanted maker.remaining := by
    rcases Nat.le_total wanted maker.remaining with hle | hle
    · rw [Nat.min_eq_left hle, Nat.sub_self, Nat.sub_eq_zero_of_le hle]
    · rw [Nat.min_eq_right hle]
  rw [allot, if_neg h, hleft]

theorem Consistent.fill_zero {offer : Offer} (h : offer.Consistent) : offer.fill 0 = offer := by
  have hstatus : (if offer.remaining - 0 = 0 then .fulfilled else offer.status) = offer.status := by
    split
    case isTrue hzero => exact (of_decide_eq_true (h.mpr hzero)).symm
    case isFalse => rfl
  show { offer with remaining := offer.remaining - 0, status := _ } = offer
  rw [hstatus]
  rfl

theorem fill_fill (offer : Offer) (a b : Quantity) : (offer.fill a).fill b = offer.fill (a + b) := by
  unfold fill
  simp only [Nat.sub_sub, mk.injEq, true_and]
  by_cases hb : offer.remaining - (a + b) = 0
  · rw [if_pos hb, if_pos hb]
  · have ha : offer.remaining - a ≠ 0 := fun ha => hb (by rw [← Nat.sub_sub, ha, Nat.zero_sub])
    rw [if_neg hb, if_neg hb, if_neg ha]

/-- A maker that outlasts a trade has given the incoming offer all that it wanted. -/
theorem Consistent.min_eq_of_outlasts {taker maker : Offer} (hc : maker.Consistent)
    (hmaker : (maker.fill (min taker.remaining maker.remaining)).isFulfilled = false) :
    min taker.remaining maker.remaining = taker.remaining := by
  rcases Nat.le_total taker.remaining maker.remaining with hle | hle
  · exact Nat.min_eq_left hle
  · rw [Nat.min_eq_right hle, (hc.isFulfilled_fill _).mpr (Nat.le_refl _)] at hmaker
    cases hmaker

/-- What is left of an offer after `traded` units of it were traded, if anything is. -/
def leftAfter (offer : Offer) (traded : Quantity) : Option Offer :=
  if offer.remaining ≤ traded then none else some { offer with remaining := offer.remaining - traded }

theorem Consistent.leftAfter_eq {offer : Offer} (h : offer.Consistent) (quantity : Quantity) :
    offer.leftAfter quantity =
      if (offer.fill quantity).isFulfilled then none else some (offer.fill quantity) := by
  unfold leftAfter
  by_cases hle : offer.remaining ≤ quantity
  · rw [if_pos hle, if_pos ((h.isFulfilled_fill quantity).mpr hle)]
  · have hpos : offer.remaining - quantity ≠ 0 := fun hzero => hle (Nat.sub_eq_zero_iff_le.mp hzero)
    rw [if_neg hle, if_neg fun hdone => hle ((h.isFulfilled_fill quantity).mp hdone)]
    show some _ = some { offer with remaining := offer.remaining - quantity, status := ite _ _ _ }
    rw [if_neg hpos]

theorem Resting.leftAfter_zero {offer : Offer} {owner : UserId} {id : OfferId}
    (h : offer.Resting owner id) : offer.leftAfter 0 = some offer := by
  unfold leftAfter
  rw [if_neg (Nat.not_le.mpr h.remaining_pos)]
  rfl

/-- No part of a resting offer is too large or too dear to settle. -/
theorem Resting.amounts_inRange {offer : Offer} {owner : UserId} {id : OfferId}
    (h : offer.Resting owner id) {quantity : Quantity} (hle : quantity ≤ offer.remaining) :
    Amount.InRange quantity ∧ Amount.InRange (offer.price * quantity) :=
  Amount.inRange_part (Nat.le_trans hle h.remaining_le) h.quantity_inRange h.cost_inRange

theorem leftAfter_bind (offer : Offer) (a b : Quantity) :
    (offer.leftAfter a).bind (·.leftAfter b) = offer.leftAfter (a + b) := by
  unfold leftAfter
  by_cases ha : offer.remaining ≤ a
  · rw [if_pos ha, if_pos (Nat.le_add_right_of_le ha)]
    rfl
  · rw [if_neg ha, Option.bind_some]
    dsimp only
    by_cases hb : offer.remaining - a ≤ b
    · rw [if_pos hb, if_pos (Nat.sub_le_iff_le_add'.mp hb)]
    · rw [if_neg hb, if_neg fun hab => hb (Nat.sub_le_iff_le_add'.mpr hab), Nat.sub_sub]

end Offer

/-- What the deals traded together. -/
def Deal.traded (deals : List Deal) : Quantity :=
  deals.foldr (fun deal sum => deal.quantity + sum) 0

/-- What the deals took from a resting offer. -/
def Deal.takenFrom (deals : List Deal) (offer : OfferId) : Quantity :=
  traded (deals.filter fun deal => deal.maker = offer)

theorem Deal.traded_cons (deal : Deal) (deals : List Deal) :
    traded (deal :: deals) = deal.quantity + traded deals := rfl

theorem Deal.takenFrom_cons (deal : Deal) (deals : List Deal) (offer : OfferId) :
    takenFrom (deal :: deals) offer =
      (if deal.maker = offer then deal.quantity else 0) + takenFrom deals offer := by
  unfold takenFrom
  by_cases h : deal.maker = offer
  · simp [h, traded_cons]
  · simp [h]

/-! ## The maker's account -/

/-- The account of a maker after a trade left `left` of its offer. -/
def Account.returned (account : Account) (id : OfferId) (left : Offer) : Account :=
  if left.isFulfilled then account.removeOffer id else account.updateOffer id left

namespace Account

theorem balance_returned (account : Account) (id : OfferId) (left : Offer) :
    (account.returned id left).balance = account.balance := by
  unfold returned
  split <;> rfl

theorem id_returned (account : Account) (id : OfferId) (left : Offer) :
    (account.returned id left).id = account.id := by
  unfold returned
  split <;> rfl

theorem username_returned (account : Account) (id : OfferId) (left : Offer) :
    (account.returned id left).username = account.username := by
  unfold returned
  split <;> rfl

theorem closedDeals_returned (account : Account) (id : OfferId) (left : Offer) :
    (account.returned id left).closedDeals = account.closedDeals := by
  unfold returned
  split <;> rfl

theorem activeOffers_returned (account : Account) (id id' : OfferId) (left : Offer) :
    (account.returned id left).activeOffers.get? id' =
      if id' = id then (account.activeOffers.get? id).bind fun _ =>
        if left.isFulfilled then none else some left
      else account.activeOffers.get? id' := by
  unfold returned
  by_cases hdone : left.isFulfilled = true
  · rw [if_pos hdone, if_pos hdone]
    unfold removeOffer
    rw [SortedMap.get?_erase]
    by_cases hid : id' = id
    · rw [if_pos hid, if_pos hid]
      cases account.activeOffers.get? id <;> rfl
    · rw [if_neg hid, if_neg hid]
  · rw [if_neg hdone, if_neg hdone]
    unfold updateOffer
    rw [SortedMap.get?_modify]
    by_cases hid : id' = id
    · rw [if_pos hid, if_pos hid, hid]
      cases account.activeOffers.get? id <;> rfl
    · rw [if_neg hid, if_neg hid]

end Account

namespace Ledger

/-- The accounts after a trade left `left` of the offer behind an entry. -/
def returned (ledger : Ledger) (entry : QueueEntry) (left : Offer) : Ledger :=
  ledger.modify entry.owner (·.returned entry.offer left)

theorem get?_returned (ledger : Ledger) (entry : QueueEntry) (left : Offer) (user : UserId) :
    (ledger.returned entry left).get? user =
      if user = entry.owner then (ledger.get? user).map (·.returned entry.offer left)
      else ledger.get? user :=
  SortedMap.get?_modify ledger entry.owner user _

theorem balance_returned (ledger : Ledger) (entry : QueueEntry) (left : Offer) (user : UserId) :
    ((ledger.returned entry left).get? user).map (·.balance) = (ledger.get? user).map (·.balance) :=
  ledger.map_get?_modify (fun account => account.balance_returned entry.offer left) entry.owner user

theorem closedDeals_returned (ledger : Ledger) (entry : QueueEntry) (left : Offer) (user : UserId) :
    ((ledger.returned entry left).get? user).map (·.closedDeals) =
      (ledger.get? user).map (·.closedDeals) :=
  ledger.map_get?_modify (fun account => account.closedDeals_returned entry.offer left) entry.owner user

theorem balanceOf_returned (ledger : Ledger) (entry : QueueEntry) (left : Offer) :
    (ledger.returned entry left).balanceOf = ledger.balanceOf := by
  funext user
  unfold balanceOf
  rw [balance_returned]

theorem isSome_returned (ledger : Ledger) (entry : QueueEntry) (left : Offer) (user : UserId) :
    ((ledger.returned entry left).get? user).isSome = (ledger.get? user).isSome := by
  rw [get?_returned]
  split
  · exact Option.isSome_map
  · rfl

/-- Whether a deal can be settled is a matter of the balances alone. -/
theorem CanSettle.returned {ledger : Ledger} {deal : Deal} (h : ledger.CanSettle deal)
    (entry : QueueEntry) (left : Offer) : (ledger.returned entry left).CanSettle deal where
  buyer := by
    rw [isSome_returned]
    exact h.buyer
  seller := by
    rw [isSome_returned]
    exact h.seller
  amounts := h.amounts
  balances := by
    rw [balanceOf_returned]
    exact h.balances

/-- The offer behind the entry shrinks or goes; every other stays. -/
theorem activeOffer?_returned {ledger : Ledger} {entry : QueueEntry} {maker : Offer}
    (hlive : ledger.activeOffer? entry = some maker) (hc : maker.Consistent) (quantity : Quantity)
    (e : QueueEntry) :
    (ledger.returned entry (maker.fill quantity)).activeOffer? e =
      if e = entry then maker.leftAfter quantity else ledger.activeOffer? e := by
  obtain ⟨account, hget, hoffer⟩ := activeOffer?_eq_some_iff.mp hlive
  unfold activeOffer?
  rw [get?_returned, hc.leftAfter_eq]
  by_cases howner : e.owner = entry.owner
  · rw [if_pos howner, howner, hget, Option.map_some, Option.bind_some, Option.bind_some]
    unfold Account.activeOffer?
    rw [Account.activeOffers_returned]
    by_cases hid : e.offer = entry.offer
    · have he : e = entry := by
        cases e
        cases entry
        cases howner
        cases hid
        rfl
      rw [if_pos hid, if_pos he, hoffer, Option.bind_some]
    · rw [if_neg hid, if_neg fun he => hid (congrArg _ he)]
  · rw [if_neg howner, if_neg fun he => howner (congrArg _ he)]

theorem activeOffer?_settled (ledger : Ledger) (deal : Deal) (entry : QueueEntry) :
    (ledger.settled deal).activeOffer? entry = ledger.activeOffer? entry := by
  unfold activeOffer?
  rw [get?_settled]
  cases ledger.get? entry.owner with
  | none => rfl
  | some account =>
    show (account.settled entry.owner deal).activeOffers.get? entry.offer = _
    rw [Account.activeOffers_settled]
    rfl

theorem isSome_settled (ledger : Ledger) (deal : Deal) (user : UserId) :
    ((ledger.settled deal).get? user).isSome = (ledger.get? user).isSome := by
  rw [get?_settled]
  exact Option.isSome_map

/-- A settled deal does to the balances what it does in exact arithmetic. -/
theorem balanceOf_settled {ledger : Ledger} {deal : Deal} (h : ledger.CanSettle deal) :
    (ledger.settled deal).balanceOf = deal.balancesAfter ledger.balanceOf := by
  funext user
  cases hget : ledger.get? user with
  | none =>
    -- a user without an account is no party to the deal
    have hb : user ≠ deal.buyer := fun he => by
      have := h.buyer
      rw [← he, hget] at this
      cases this
    have hs : user ≠ deal.seller := fun he => by
      have := h.seller
      rw [← he, hget] at this
      cases this
    rw [Deal.balancesAfter_of_ne hb hs]
    unfold balanceOf
    rw [get?_settled, hget]
    rfl
  | some account =>
    have hafter : (ledger.settled deal).get? user = some (account.settled user deal) := by
      rw [get?_settled, hget]
      rfl
    rw [balanceOf_of_get? hafter, Account.balance_settled]
    exact deal.balancesAfter_congr (balanceOf_of_get? hget).symm

/-- A deal that can be settled leaves every account in range. -/
theorem CanSettle.balance_inRange {ledger : Ledger} {deal : Deal} (h : ledger.CanSettle deal)
    {user : UserId} {account : Account} (hget : ledger.get? user = some account)
    (hrange : account.balance.InRange) :
    (deal.balancesAfter (fun _ => account.balance) user).InRange := by
  have hsame : deal.balancesAfter (fun _ => account.balance) user =
      deal.balancesAfter ledger.balanceOf user :=
    deal.balancesAfter_congr (balanceOf_of_get? hget).symm
  by_cases hself : deal.isSelfTrade = true
  · rw [Deal.balancesAfter_of_isSelfTrade hself]
    exact hrange
  · have hother : deal.isSelfTrade = false := Bool.eq_false_iff.mpr hself
    by_cases hb : user = deal.buyer
    · rw [hsame, hb]
      exact (h.balances hother).1
    · by_cases hs : user = deal.seller
      · rw [hsame, hs]
        exact (h.balances hother).2
      · rw [Deal.balancesAfter_of_ne hb hs]
        exact hrange

end Ledger

end Bourse
