import Bourse.Market.Priority
import Bourse.Proofs.Matching
import Mathlib.Data.List.Basic
import Mathlib.Data.List.Nodup

/-!
# `Bourse.Proofs.Priority` — the book keeps the rule of price and time

An incoming offer goes through a book level by level and drops expired entries on its way. The rule of price
and time does not know of books: it sorts the active offers of all accounts. On a sound market the two
give one queue (`Sound.counterparts_eq`), because both are in order of price and age, which leaves no choice
(`Sound.eq_of_isAhead`), and because every active offer waits in the book once.
-/

namespace Bourse

namespace Side

/-- Of two offers of one side, `a` comes first or they are the same. -/
def isAhead (side : Side) (a b : Offer) : Bool :=
  side.isBetter a.price b.price || (a.price = b.price && a.id ≤ b.id)

theorem isAhead_iff {side : Side} {a b : Offer} :
    side.isAhead a b = true ↔
      side.isBetter a.price b.price = true ∨ (a.price = b.price ∧ a.id ≤ b.id) := by
  simp [isAhead]

/-- Of two prices that are not the same one is better. -/
theorem isBetter_total (side : Side) {p q : Price} (h : p ≠ q) :
    side.isBetter p q = true ∨ side.isBetter q p = true := by
  rcases Int.lt_or_gt_of_ne h with hlt | hgt
  · cases side
    · exact .inr (decide_eq_true hlt)
    · exact .inl (decide_eq_true hlt)
  · cases side
    · exact .inl (decide_eq_true hgt)
    · exact .inr (decide_eq_true hgt)

theorem isAhead_trans {side : Side} {a b c : Offer} (hab : side.isAhead a b = true)
    (hbc : side.isAhead b c = true) : side.isAhead a c = true := by
  rw [isAhead_iff] at hab hbc ⊢
  rcases hab with hab | ⟨hab, hid⟩
  · rcases hbc with hbc | ⟨hbc, -⟩
    · exact .inl (isBetter_trans hab hbc)
    · exact .inl (hbc ▸ hab)
  · rcases hbc with hbc | ⟨hbc, hid'⟩
    · exact .inl (hab ▸ hbc)
    · exact .inr ⟨hab.trans hbc, Nat.le_trans hid hid'⟩

theorem isAhead_total (side : Side) (a b : Offer) :
    (side.isAhead a b || side.isAhead b a) = true := by
  rw [Bool.or_eq_true, isAhead_iff, isAhead_iff]
  by_cases hprice : a.price = b.price
  · rcases Nat.le_total a.id b.id with hid | hid
    · exact .inl (.inr ⟨hprice, hid⟩)
    · exact .inr (.inr ⟨hprice.symm, hid⟩)
  · exact (side.isBetter_total hprice).imp .inl .inl

theorem isAhead_antisymm {side : Side} {a b : Offer} (hab : side.isAhead a b = true)
    (hba : side.isAhead b a = true) : a.id = b.id := by
  rw [isAhead_iff] at hab hba
  rcases hab with hab | ⟨hprice, hid⟩
  · rcases hba with hba | ⟨hprice, -⟩
    · rw [isBetter_asymm hab] at hba
      cases hba
    · rw [hprice, isBetter_irrefl] at hab
      cases hab
  · rcases hba with hba | ⟨-, hid'⟩
    · rw [hprice, isBetter_irrefl] at hba
      cases hba
    · exact Nat.le_antisymm hid hid'

/-- Offers of one side are sorted by the order of that side. -/
theorem mergeSort_isAhead {side : Side} {offers : List Offer} (h : ∀ offer ∈ offers, offer.side = side) :
    offers.mergeSort Offer.isAhead = offers.mergeSort side.isAhead := by
  have hsame : ∀ a ∈ offers, ∀ b ∈ offers, a.isAhead b = side.isAhead (id a) (id b) := by
    intro a ha b _
    unfold Offer.isAhead isAhead
    rw [h a ha]
    rfl
  have hmap := List.map_mergeSort hsame
  rwa [List.map_id, List.map_id] at hmap

end Side

namespace Ledger

theorem mem_activeOffers_iff {ledger : Ledger} {offer : Offer} :
    offer ∈ ledger.activeOffers ↔ ∃ entry, ledger.activeOffer? entry = some offer := by
  unfold activeOffers
  rw [List.mem_flatMap]
  constructor
  · rintro ⟨account, haccount, hoffer⟩
    obtain ⟨user, hget⟩ := SortedMap.mem_values_iff.mp haccount
    obtain ⟨id, hid⟩ := SortedMap.mem_values_iff.mp hoffer
    exact ⟨⟨id, user⟩, activeOffer?_eq_some_iff.mpr ⟨account, hget, hid⟩⟩
  · rintro ⟨entry, hentry⟩
    obtain ⟨account, hget, hoffer⟩ := activeOffer?_eq_some_iff.mp hentry
    exact ⟨account, SortedMap.mem_values_iff.mpr ⟨_, hget⟩, SortedMap.mem_values_iff.mpr ⟨_, hoffer⟩⟩

/-- What is met comes from the entries, in their order. -/
theorem met_sublist (ledger : Ledger) (side : Side) (limit : Price)
    (entries : List (Price × QueueEntry)) :
    (ledger.met side limit entries).Sublist (entries.filterMap fun x => ledger.activeOffer? x.2) := by
  induction entries with
  | nil => exact .refl _
  | cons x rest ih =>
    obtain ⟨price, entry⟩ := x
    by_cases hcross : side.crosses limit price = true
    · cases hlive : ledger.activeOffer? entry with
      | none =>
        rw [met_of_expired hcross hlive, List.filterMap_cons]
        dsimp only
        rw [hlive]
        exact ih
      | some maker =>
        rw [met_of_live hcross hlive, List.filterMap_cons]
        dsimp only
        rw [hlive]
        exact ih.cons_cons maker
    · rw [met_of_not_crosses (Bool.eq_false_iff.mpr hcross)]
      exact List.nil_sublist _

/-- If better prices come first, then all entries whose price the limit admits are met. -/
theorem mem_met_iff {ledger : Ledger} {side : Side} {limit : Price}
    {entries : List (Price × QueueEntry)}
    (h : entries.Pairwise fun a b => side.crosses limit b.1 = true → side.crosses limit a.1 = true)
    {offer : Offer} :
    offer ∈ ledger.met side limit entries ↔ ∃ x ∈ entries, side.crosses limit x.1 = true ∧
      ledger.activeOffer? x.2 = some offer := by
  induction entries with
  | nil => exact iff_of_false List.not_mem_nil fun ⟨_, hx, _⟩ => List.not_mem_nil hx
  | cons x rest ih =>
    obtain ⟨price, entry⟩ := x
    obtain ⟨hfirst, hrest⟩ := List.pairwise_cons.mp h
    by_cases hcross : side.crosses limit price = true
    · cases hlive : ledger.activeOffer? entry with
      | none =>
        rw [met_of_expired hcross hlive, ih hrest, List.exists_mem_cons_iff]
        refine ⟨.inr, fun hex => hex.resolve_left fun hx => ?_⟩
        rw [hlive] at hx
        cases hx.2
      | some maker =>
        rw [met_of_live hcross hlive, List.mem_cons, ih hrest, List.exists_mem_cons_iff, hlive]
        refine or_congr_left ⟨fun he => ⟨hcross, congrArg some he.symm⟩, fun hx => ?_⟩
        exact (Option.some.inj hx.2).symm
    · rw [met_of_not_crosses (Bool.eq_false_iff.mpr hcross)]
      refine iff_of_false List.not_mem_nil fun ⟨x, hx, hc, _⟩ => hcross ?_
      rcases List.mem_cons.mp hx with rfl | hx
      · exact hc
      · exact hfirst x hx hc

end Ledger

namespace Market

variable {σ : Type}

/-- Two active offers with one number are the same. -/
theorem Sound.eq_of_id_eq {market : Market σ} (h : market.Sound) {entry entry' : QueueEntry}
    {a b : Offer} (ha : market.accounts.activeOffer? entry = some a)
    (hb : market.accounts.activeOffer? entry' = some b) (hid : a.id = b.id) : a = b := by
  have hoffer : entry.offer = entry'.offer := by
    rw [← (h.resting ha).id_eq, ← (h.resting hb).id_eq, hid]
  have hentry := h.coherent.eq_of_active ha hb hoffer
  exact Option.some.inj (ha.symm.trans (hentry ▸ hb))

/-- No account lists an offer of another, and none lists an offer twice. -/
theorem Sound.nodup_activeOffers {market : Market σ} (h : market.Sound) :
    market.accounts.activeOffers.Nodup := by
  have hgetAccount : ∀ {e : UserId × Account}, e ∈ market.accounts.entries →
      market.accounts.get? e.1 = some e.2 := fun he => SortedMap.get?_eq_some_iff.mpr he
  unfold Ledger.activeOffers
  rw [List.nodup_flatMap]
  constructor
  · intro account haccount
    obtain ⟨user, hget⟩ := SortedMap.mem_values_iff.mp haccount
    refine List.pairwise_map.mpr (account.activeOffers.ascending.imp_of_mem ?_)
    intro e e' he he' hlt heq
    have hid := ((h.accounts hget).resting (SortedMap.get?_eq_some_iff.mpr he)).id_eq
    have hid' := ((h.accounts hget).resting (SortedMap.get?_eq_some_iff.mpr he')).id_eq
    rw [← hid, ← hid', heq] at hlt
    exact Nat.lt_irrefl _ hlt
  · refine List.pairwise_map.mpr (market.accounts.ascending.imp_of_mem ?_)
    intro e e' he he' hlt offer hoffer hoffer'
    obtain ⟨id, hget⟩ := SortedMap.mem_values_iff.mp hoffer
    obtain ⟨id', hget'⟩ := SortedMap.mem_values_iff.mp hoffer'
    have howner := ((h.accounts (hgetAccount he)).resting hget).owner_eq
    have howner' := ((h.accounts (hgetAccount he')).resting hget').owner_eq
    rw [← howner, ← howner'] at hlt
    exact Nat.lt_irrefl _ hlt

/-- The best entries first, and of these the oldest. -/
theorem Sound.pairwise_met {market : Market σ} (h : market.Sound) (side : Side) (limit : Price) :
    (market.accounts.met side limit (market.book side.opposite).ranked).Pairwise fun a b =>
      side.opposite.isBetter a.price b.price = true ∨ (a.price = b.price ∧ a.id < b.id) := by
  refine List.Pairwise.sublist (Ledger.met_sublist _ _ _ _) (List.pairwise_filterMap.mpr ?_)
  refine ((h.wellFormed _).pairwise_ranked (h.age _)).imp_of_mem ?_
  intro x y hx hy hxy a ha b hb
  have hqueuedx := (h.wellFormed side.opposite).mem_ranked_iff.mp hx
  have hqueuedy := (h.wellFormed side.opposite).mem_ranked_iff.mp hy
  rw [(h.eq_of_queued hqueuedx ha).2, (h.eq_of_queued hqueuedy hb).2, (h.resting ha).id_eq,
    (h.resting hb).id_eq]
  exact hxy

theorem Sound.mem_met_iff {market : Market σ} (h : market.Sound) {side : Side} {limit : Price}
    {offer : Offer} :
    offer ∈ market.accounts.met side limit (market.book side.opposite).ranked ↔
      (∃ entry, market.accounts.activeOffer? entry = some offer) ∧ offer.side = side.opposite ∧
        side.crosses limit offer.price = true := by
  have hw := h.wellFormed side.opposite
  have hprices : (market.book side.opposite).ranked.Pairwise fun a b =>
      side.crosses limit b.1 = true → side.crosses limit a.1 = true := by
    refine (hw.pairwise_ranked (h.age _)).imp fun hab hb => ?_
    rcases hab with hbetter | ⟨hprice, -⟩
    · exact Side.crosses_of_isBetter hbetter hb
    · rw [hprice]
      exact hb
  rw [Ledger.mem_met_iff hprices]
  constructor
  · rintro ⟨x, hx, hcross, hlive⟩
    obtain ⟨hside, hprice⟩ := h.eq_of_queued (hw.mem_ranked_iff.mp hx) hlive
    exact ⟨⟨x.2, hlive⟩, hside, hprice ▸ hcross⟩
  · rintro ⟨⟨entry, hlive⟩, hside, hcross⟩
    have hqueued := h.queued hlive
    rw [hside] at hqueued
    exact ⟨(offer.price, entry), hw.mem_ranked_iff.mpr hqueued, hcross, hlive⟩

/-- **The queue that an incoming offer meets in the book is the one that the rule of price and time sorts
    out of the accounts.** -/
theorem Sound.counterparts_eq {market : Market σ} (h : market.Sound) (side : Side) (limit : Price) :
    market.accounts.counterparts side limit =
      market.accounts.met side limit (market.book side.opposite).ranked := by
  have hadmitted : ∀ {offer : Offer},
      offer ∈ market.accounts.activeOffers.filter (fun offer =>
        offer.side = side.opposite && side.crosses limit offer.price) ↔
          (∃ entry, market.accounts.activeOffer? entry = some offer) ∧ offer.side = side.opposite ∧
            side.crosses limit offer.price = true := by
    intro offer
    rw [List.mem_filter, Ledger.mem_activeOffers_iff, Bool.and_eq_true, decide_eq_true_eq]
  have hordered := h.pairwise_met side limit
  unfold Ledger.counterparts
  rw [Side.mergeSort_isAhead fun offer ho => (hadmitted.mp ho).2.1]
  have hsorted := List.pairwise_mergeSort
    (fun a b c (hab : side.opposite.isAhead a b = true) hbc => Side.isAhead_trans hab hbc)
    side.opposite.isAhead_total (market.accounts.activeOffers.filter fun offer =>
      offer.side = side.opposite && side.crosses limit offer.price)
  refine List.Perm.eq_of_pairwise ?_ hsorted (hordered.imp ?_) ?_
  · -- the order leaves no choice between offers of different numbers
    intro a b ha hb hab hba
    obtain ⟨⟨entry, hlive⟩, -⟩ := hadmitted.mp (List.mem_mergeSort.mp ha)
    obtain ⟨⟨entry', hlive'⟩, -⟩ := h.mem_met_iff.mp hb
    exact h.eq_of_id_eq hlive hlive' (Side.isAhead_antisymm hab hba)
  · intro a b hab
    exact Side.isAhead_iff.mpr (hab.imp id fun hle => ⟨hle.1, Nat.le_of_lt hle.2⟩)
  · refine (List.mergeSort_perm _ _).trans ((List.perm_ext_iff_of_nodup ?_ ?_).mpr fun offer => ?_)
    · exact h.nodup_activeOffers.filter _
    · refine hordered.imp fun hab heq => ?_
      subst heq
      rcases hab with hbetter | ⟨-, hlt⟩
      · rw [Side.isBetter_irrefl] at hbetter
        cases hbetter
      · exact Nat.lt_irrefl _ hlt
    · rw [hadmitted, h.mem_met_iff]

end Market

end Bourse
