import Bourse.Offer.Run
import Bourse.Proofs.Allotment
import Mathlib.Data.Fin.VecNotation
import Mathlib.Data.Fintype.Card

/-!
# `Bourse.Proofs.OpenInterest` — trading conserves open interest

Offers that trade in pairs take from each other what they trade, so what one side still wants falls by as much
as what the other one does. `Progress` says what lies between two states of a row of offers and the deals made
in between: each offer is short of what its deals took, each side of what all deals took, and at least one
offer was fulfilled for each deal. It holds of one pairing (`progress_trade`) and can be composed
(`Progress.trans`), so it holds of a row of pairings (`progress_run`).
-/

namespace Bourse

/-- Of two different sides one is the opposite of the other. -/
theorem Side.eq_opposite_of_ne {side other : Side} (h : side ≠ other) : other = side.opposite := by
  cases side with
  | buy =>
    cases other with
    | buy => exact absurd rfl h
    | sell => rfl
  | sell =>
    cases other with
    | buy => rfl
    | sell => exact absurd rfl h

theorem Offer.IsNew.remaining_eq {offer : Offer} (h : offer.IsNew) :
    offer.remaining = offer.quantity :=
  congrArg Offer.remaining h.2

theorem Offer.IsNew.consistent {offer : Offer} (h : offer.IsNew) : offer.Consistent := by
  rw [h.2]
  exact consistent_post (Nat.ne_of_gt h.1)

namespace Pairing

variable {n : Nat}

/-! ## The deals of one offer -/

theorem dealsAt_append (place : Fin n) (made more : List (Pairing n × Deal)) :
    dealsAt place (made ++ more) = dealsAt place made ++ dealsAt place more := by
  unfold dealsAt
  rw [List.filter_append, List.map_append]

theorem traded_dealsAt_singleton (place : Fin n) (p : Pairing n) (deal : Deal) :
    Deal.traded (dealsAt place [(p, deal)]) = if p.Involves place then deal.quantity else 0 := by
  by_cases h : p.Involves place
  · simp [dealsAt, h, Deal.traded]
  · simp [dealsAt, h, Deal.traded]

end Pairing

/-- Sums that differ at one place differ by as much. -/
theorem sum_add_of_eq_except {n : Nat} {f g : Fin n → Nat} {a : Fin n} {d : Nat} (ha : f a + d = g a)
    (h : ∀ i, i ≠ a → f i = g i) : (∑ i, f i) + d = ∑ i, g i := by
  have hothers : ∑ i ∈ Finset.univ.erase a, f i = ∑ i ∈ Finset.univ.erase a, g i :=
    Finset.sum_congr rfl fun i hi => h i (Finset.ne_of_mem_erase hi)
  rw [← Finset.add_sum_erase _ f (Finset.mem_univ a), ← Finset.add_sum_erase _ g (Finset.mem_univ a),
    hothers]
  omega

namespace Offers

variable {n : Nat}

/-! ## One pairing -/

/-- What both offers of a pairing have left. -/
def common (offers : Offers n) (p : Pairing n) : Quantity :=
  min (offers p.taker).remaining (offers p.maker).remaining

/-- The offers after both of a pairing were filled by what both have left. -/
def filled (offers : Offers n) (p : Pairing n) : Offers n :=
  Function.update (Function.update offers p.taker ((offers p.taker).fill (offers.common p))) p.maker
    ((offers p.maker).fill (offers.common p))

theorem filled_apply (offers : Offers n) (p : Pairing n) (i : Fin n) :
    offers.filled p i =
      if p.Involves i then (offers i).fill (offers.common p) else offers i := by
  unfold filled Pairing.Involves
  rw [Function.update_apply, Function.update_apply]
  by_cases hmaker : i = p.maker
  · simp [hmaker]
  · by_cases htaker : i = p.taker
    · simp [htaker, p.distinct]
    · simp [hmaker, htaker]

/-- Offers of one side do not trade, and nothing becomes of them. -/
theorem trade_of_side_eq {offers : Offers n} {p : Pairing n}
    (h : (offers p.taker).side = (offers p.maker).side) :
    offers.trade p = (.error (.sameSide (offers p.taker).side), offers) := by
  have hrefused : (offers p.taker).trade (offers p.maker) p.deal =
      .error (.sameSide (offers p.taker).side) := if_pos h
  unfold trade
  rw [hrefused]

/-- Offers of different sides trade what both have left. -/
theorem trade_of_side_ne {offers : Offers n} {p : Pairing n}
    (h : (offers p.taker).side ≠ (offers p.maker).side) :
    offers.trade p =
      (.ok ((offers p.taker).dealWith (offers p.maker) p.deal (offers.common p)), offers.filled p) := by
  have htraded := Offer.trade_eq_ok (Side.eq_opposite_of_ne h) p.deal
  unfold trade
  rw [htraded]
  rfl

theorem common_le {offers : Offers n} {p : Pairing n} {i : Fin n} (h : p.Involves i) :
    offers.common p ≤ (offers i).remaining := by
  rcases h with rfl | rfl
  · exact Nat.min_le_left _ _
  · exact Nat.min_le_right _ _

/-- Two offers that are not fulfilled have something left in common. -/
theorem common_pos {offers : Offers n} {p : Pairing n} (hc : ∀ i, (offers i).Consistent)
    (hopen : offers.IsOpen p) : 0 < offers.common p := by
  have hleft : ∀ i, (offers i).isFulfilled = false → 0 < (offers i).remaining := by
    intro i hi
    refine Nat.pos_of_ne_zero fun hzero => ?_
    rw [(hc i).mpr hzero] at hi
    cases hi
  exact Nat.lt_min.mpr ⟨hleft p.taker hopen.1, hleft p.maker hopen.2⟩

/-- One of the two has nothing more left than what both have. -/
theorem exists_isFulfilled_filled (offers : Offers n) (p : Pairing n) :
    ∃ i, p.Involves i ∧ (offers.filled p i).isFulfilled = true := by
  have hdone : ∀ i, p.Involves i → (offers i).remaining ≤ offers.common p →
      (offers.filled p i).isFulfilled = true := by
    intro i hi hle
    rw [filled_apply, if_pos hi]
    exact Offer.isFulfilled_fill_of_le hle
  rcases Nat.le_total (offers p.taker).remaining (offers p.maker).remaining with hle | hle
  · exact ⟨p.taker, .inl rfl, hdone p.taker (.inl rfl) (Nat.le_min.mpr ⟨Nat.le_refl _, hle⟩)⟩
  · exact ⟨p.maker, .inr rfl, hdone p.maker (.inr rfl) (Nat.le_min.mpr ⟨hle, Nat.le_refl _⟩)⟩

/-- A trade takes the same from either side. -/
theorem openInterest_filled {offers : Offers n} {p : Pairing n}
    (h : (offers p.taker).side ≠ (offers p.maker).side) (side : Side) :
    (offers.filled p).openInterest side + offers.common p = offers.openInterest side := by
  -- exactly one of the two is of the side, and of that side it is the only one that changes
  obtain ⟨a, ha, hside, hother⟩ : ∃ a, p.Involves a ∧ (offers a).side = side ∧
      ∀ i, p.Involves i → i ≠ a → (offers i).side ≠ side := by
    by_cases htaker : (offers p.taker).side = side
    · refine ⟨p.taker, .inl rfl, htaker, ?_⟩
      rintro i (rfl | rfl) hne
      · exact absurd rfl hne
      · exact fun hmaker => h (htaker.trans hmaker.symm)
    · refine ⟨p.maker, .inr rfl, ?_, ?_⟩
      · rw [Side.eq_opposite_of_ne h, ← Side.eq_opposite_of_ne htaker]
      · rintro i (rfl | rfl) hne
        · exact htaker
        · exact absurd rfl hne
  have hle : offers.common p ≤ (offers a).remaining := common_le ha
  unfold openInterest
  refine sum_add_of_eq_except (a := a) ?_ ?_
  · rw [filled_apply, if_pos ha]
    show (if (offers a).side = side then (offers a).remaining - offers.common p else 0) + _ = _
    rw [if_pos hside, if_pos hside]
    exact Nat.sub_add_cancel hle
  · intro i hi
    rw [filled_apply]
    by_cases hinvolved : p.Involves i
    · have hne := hother i hinvolved hi
      rw [if_pos hinvolved]
      show (if (offers i).side = side then _ else 0) = _
      rw [if_neg hne, if_neg hne]
    · rw [if_neg hinvolved]

/-! ## What trading leaves -/

/-- What lies between two states of a row of offers if the deals `made` were made in between. -/
structure Progress (before : Offers n) (made : List (Pairing n × Deal)) (after : Offers n) : Prop where
  /-- Nothing of an offer changes but what is left of it. -/
  terms : ∀ i, after i =
    { before i with remaining := (after i).remaining, status := (after i).status }
  consistent : ∀ i, (after i).Consistent
  /-- Each offer is short of what its deals took. -/
  remaining : ∀ i,
    (after i).remaining + Deal.traded (Pairing.dealsAt i made) = (before i).remaining
  /-- Each side is short of what all deals took. -/
  openInterest : ∀ side,
    after.openInterest side + Deal.traded (made.map (·.2)) = before.openInterest side
  /-- For each deal an offer was fulfilled. -/
  fulfils : made.length + after.openPlaces.card ≤ before.openPlaces.card

theorem progress_refl {offers : Offers n} (hc : ∀ i, (offers i).Consistent) :
    offers.Progress [] offers where
  terms _ := rfl
  consistent := hc
  remaining _ := rfl
  openInterest _ := rfl
  fulfils := Nat.le_of_eq (Nat.zero_add _)

theorem Progress.trans {before between after : Offers n} {made more : List (Pairing n × Deal)}
    (h : before.Progress made between) (h' : between.Progress more after) :
    before.Progress (made ++ more) after where
  terms i := by
    have hlast := h'.terms i
    rwa [h.terms i] at hlast
  consistent := h'.consistent
  remaining i := by
    rw [← h.remaining i, ← h'.remaining i, Pairing.dealsAt_append, Deal.traded_append,
      Nat.add_right_comm, Nat.add_assoc]
  openInterest side := by
    rw [← h.openInterest side, ← h'.openInterest side, List.map_append, Deal.traded_append,
      Nat.add_right_comm, Nat.add_assoc]
  fulfils := by
    have hfirst := h.fulfils
    have hlast := h'.fulfils
    rw [List.length_append]
    omega

theorem card_openPlaces_le (offers : Offers n) : offers.openPlaces.card ≤ n := by
  have hall := Finset.card_le_univ offers.openPlaces
  rwa [Fintype.card_fin] at hall

/-- A trade fulfils an offer that was open, and opens none. -/
theorem card_openPlaces_filled {offers : Offers n} {p : Pairing n} (hopen : offers.IsOpen p) :
    (offers.filled p).openPlaces.card < offers.openPlaces.card := by
  obtain ⟨done, hinvolved, hdone⟩ := offers.exists_isFulfilled_filled p
  have hwas : (offers done).isFulfilled = false := by
    rcases hinvolved with rfl | rfl
    · exact hopen.1
    · exact hopen.2
  refine Finset.card_lt_card (Finset.ssubset_iff_of_subset ?_ |>.mpr ⟨done, ?_, ?_⟩)
  · intro i hi
    have hstill : (offers.filled p i).isFulfilled = false := (Finset.mem_filter.mp hi).2
    refine Finset.mem_filter.mpr ⟨Finset.mem_univ i, ?_⟩
    rw [filled_apply] at hstill
    by_cases hi : p.Involves i
    · rcases hi with rfl | rfl
      · exact hopen.1
      · exact hopen.2
    · rwa [if_neg hi] at hstill
  · exact Finset.mem_filter.mpr ⟨Finset.mem_univ done, hwas⟩
  · intro hmem
    have hstill : (offers.filled p done).isFulfilled = false := (Finset.mem_filter.mp hmem).2
    rw [hdone] at hstill
    cases hstill

/-- A trade is progress by its one deal. -/
theorem progress_filled {offers : Offers n} {p : Pairing n} (hc : ∀ i, (offers i).Consistent)
    (hopen : offers.IsOpen p) (hside : (offers p.taker).side ≠ (offers p.maker).side) :
    offers.Progress [(p, (offers p.taker).dealWith (offers p.maker) p.deal (offers.common p))]
      (offers.filled p) where
  terms i := by
    rw [filled_apply]
    split <;> rfl
  consistent i := by
    rw [filled_apply]
    split
    · exact (hc i).fill _
    · exact hc i
  remaining i := by
    rw [filled_apply, Pairing.traded_dealsAt_singleton]
    split
    case isTrue hi => exact Nat.sub_add_cancel (common_le hi)
    case isFalse => rfl
  openInterest := openInterest_filled hside
  fulfils := by
    rw [List.length_singleton, Nat.add_comm]
    exact card_openPlaces_filled hopen

/-- **One pairing.** Two open offers of one side are refused and nothing becomes of any offer; two of
    different sides make one deal. -/
theorem progress_trade {offers : Offers n} {p : Pairing n} (hc : ∀ i, (offers i).Consistent)
    (hopen : offers.IsOpen p) :
    ((offers.trade p).1 = .error (.sameSide (offers p.taker).side) ∧ (offers.trade p).2 = offers) ∨
      ∃ deal, (offers.trade p).1 = .ok deal ∧ offers.Progress [(p, deal)] (offers.trade p).2 := by
  by_cases hside : (offers p.taker).side = (offers p.maker).side
  · rw [trade_of_side_eq hside]
    exact .inl ⟨rfl, rfl⟩
  · rw [trade_of_side_ne hside]
    exact .inr ⟨_, rfl, progress_filled hc hopen hside⟩

/-- **A row of pairings of open offers.** -/
theorem progress_run {offers : Offers n} (hc : ∀ i, (offers i).Consistent)
    {pairings : List (Pairing n)} (hopen : offers.AllOpen pairings) :
    offers.Progress (offers.run pairings).1 (offers.run pairings).2 := by
  induction pairings generalizing offers with
  | nil => exact progress_refl hc
  | cons p rest ih =>
    obtain ⟨hfirst, hrest⟩ := hopen
    unfold run
    rcases progress_trade hc hfirst with ⟨hrefused, hsame⟩ | ⟨deal, hdeal, hprogress⟩
    · rw [hrefused, hsame]
      rw [hsame] at hrest
      exact ih hc hrest
    · rw [hdeal]
      exact hprogress.trans (ih hprogress.consistent hrest)

/-- **Trading conserves open interest.** Offers that were just posted, each for some quantity, meet in pairs of
    two that are not fulfilled. Whatever has come of that, no offer has changed but in what is left of it,
    which is no more than its quantity, short of it by exactly what its deals took, and nothing exactly if the
    offer is fulfilled; what the buyers still want in excess of the sellers is what it was; and no more deals
    were made than there are offers. If then two meet that are not fulfilled, two of one side are refused and
    nothing becomes of any offer. Two of different sides make a deal over some quantity at the price of the
    resting one, which fulfils one of them, and of no offer is more left than before. -/
theorem run_conserves_open_interest {posted : Offers n} (hnew : ∀ i, (posted i).IsNew)
    {pairings : List (Pairing n)} (hopen : posted.AllOpen pairings) :
    let made := (posted.run pairings).1
    let offers := (posted.run pairings).2
    (∀ i,
      offers i = { posted i with remaining := (offers i).remaining, status := (offers i).status } ∧
      (offers i).remaining ≤ (offers i).quantity ∧
      ((offers i).isFulfilled = true ↔ (offers i).remaining = 0) ∧
      (offers i).filled = Deal.traded (Pairing.dealsAt i made)) ∧
    (offers.openInterest .buy : Int) - offers.openInterest .sell =
      posted.openInterest .buy - posted.openInterest .sell ∧
    made.length ≤ n ∧
    ∀ next : Pairing n, offers.IsOpen next →
      ((offers next.taker).side = (offers next.maker).side →
        offers.trade next = (.error (.sameSide (offers next.taker).side), offers)) ∧
      ((offers next.taker).side ≠ (offers next.maker).side →
        ∃ deal after, offers.trade next = (.ok deal, after) ∧
          deal.taker = (offers next.taker).id ∧ deal.maker = (offers next.maker).id ∧
          0 < deal.quantity ∧ deal.price = (offers next.maker).price ∧
          ((after next.taker).isFulfilled = true ∨ (after next.maker).isFulfilled = true) ∧
          ∀ i, (after i).remaining ≤ (offers i).remaining) := by
  intro made offers
  have hprogress : posted.Progress made offers := progress_run (fun i => (hnew i).consistent) hopen
  refine ⟨?_, ?_, ?_, ?_⟩
  · intro i
    have hterms := hprogress.terms i
    have hquantity : (offers i).quantity = (posted i).quantity := by rw [hterms]
    have hleft : (offers i).remaining + Deal.traded (Pairing.dealsAt i made) = (offers i).quantity := by
      rw [hprogress.remaining i, hquantity]
      exact (hnew i).remaining_eq
    refine ⟨hterms, hleft ▸ Nat.le_add_right _ _, hprogress.consistent i, ?_⟩
    show (offers i).quantity - (offers i).remaining = _
    rw [← hleft, Nat.add_sub_cancel_left]
  · rw [← hprogress.openInterest .buy, ← hprogress.openInterest .sell]
    push_cast
    omega
  · calc made.length ≤ made.length + offers.openPlaces.card := Nat.le_add_right _ _
      _ ≤ posted.openPlaces.card := hprogress.fulfils
      _ ≤ n := card_openPlaces_le posted
  · intro next hnext
    refine ⟨trade_of_side_eq, fun hside => ⟨_, _, trade_of_side_ne hside, rfl, rfl, ?_, rfl, ?_, ?_⟩⟩
    · exact common_pos hprogress.consistent hnext
    · obtain ⟨i, rfl | rfl, hdone⟩ := offers.exists_isFulfilled_filled next
      · exact .inl hdone
      · exact .inr hdone
    · intro i
      rw [filled_apply]
      split
      · exact Nat.sub_le _ _
      · exact Nat.le_refl _

/-- Two offers to sell meet and are refused; then the first of them is fulfilled by the offer to buy, and the
    rest of that one, as the resting offer, by the second. -/
theorem run_conserves_open_interest_of_three :
    let posted : Offers 3 := ![.post 5 0 .buy 80 10, .post 6 1 .sell 60 4, .post 7 2 .sell 70 9]
    let pairings : List (Pairing 3) :=
      [⟨1, 2, by decide, 0⟩, ⟨0, 1, by decide, 1⟩, ⟨2, 0, by decide, 2⟩]
    (∀ i, (posted i).IsNew) ∧ posted.AllOpen pairings ∧
      (posted.run pairings).1.map (fun x => (x.2.price, x.2.quantity)) = [(60, 4), (80, 6)] ∧
      (posted.run pairings).1.length ≤ 3 ∧
      ((posted.run pairings).2.openInterest .buy : Int) - (posted.run pairings).2.openInterest .sell =
        posted.openInterest .buy - posted.openInterest .sell := by
  intro posted pairings
  have hnew : ∀ i, (posted i).IsNew := by decide +kernel
  have hopen : posted.AllOpen pairings := by decide +kernel
  obtain ⟨-, hinterest, hlength, -⟩ := run_conserves_open_interest hnew hopen
  exact ⟨hnew, hopen, by decide +kernel, hlength, hinterest⟩

end Offers

end Bourse
