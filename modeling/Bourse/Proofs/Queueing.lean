import Bourse.Book.Run
import Bourse.Proofs.Ranking
import Mathlib.Data.List.Dedup

/-!
# `Bourse.Proofs.Queueing` — a book is a stable priority queue

A book keeps a queue for each price; a list in order of arrival keeps nothing but that order. Whatever calls
have been made, the book lists the waiting entries as a stable sort by price does, and every other view of
the book is one of that list.

* A list in order of price is determined by its part at each price (`sublist_of_filter_sublist`,
  `eq_of_filter_eq`). A stable sort leaves those parts alone (`filter_byPrice`), and those of a book are its
  queues (`filter_ranked`).
* `Holds` is the invariant that a call keeps (`Holds.apply`): the queue at each price is the part of the
  waiting entries at that price.
* `run_isQueueOf` is the result for a row of calls on an empty book.
-/

namespace Bourse

/-! ## The order of prices -/

namespace Side

theorem isNoWorse_refl (side : Side) (price : Price) : side.isNoWorse price price = true := by
  cases side <;> exact decide_eq_true (Int.le_refl _)

theorem isNoWorse_trans {side : Side} {p q r : Price} (h : side.isNoWorse p q = true)
    (h' : side.isNoWorse q r = true) : side.isNoWorse p r = true := by
  cases side with
  | buy => exact decide_eq_true (Int.le_trans (of_decide_eq_true h') (of_decide_eq_true h))
  | sell => exact decide_eq_true (Int.le_trans (of_decide_eq_true h) (of_decide_eq_true h'))

theorem isNoWorse_antisymm {side : Side} {p q : Price} (h : side.isNoWorse p q = true)
    (h' : side.isNoWorse q p = true) : p = q := by
  cases side with
  | buy => exact Int.le_antisymm (of_decide_eq_true h') (of_decide_eq_true h)
  | sell => exact Int.le_antisymm (of_decide_eq_true h) (of_decide_eq_true h')

theorem isNoWorse_total (side : Side) (p q : Price) :
    (side.isNoWorse p q || side.isNoWorse q p) = true := by
  rw [Bool.or_eq_true]
  cases side with
  | buy => exact (Int.le_total q p).imp decide_eq_true decide_eq_true
  | sell => exact (Int.le_total p q).imp decide_eq_true decide_eq_true

theorem isNoWorse_of_isBetter {side : Side} {p q : Price} (h : side.isBetter p q = true) :
    side.isNoWorse p q = true := by
  cases side <;> exact decide_eq_true (Int.le_of_lt (of_decide_eq_true h))

end Side

/-! ## Lists by their parts at each price -/

section Parts

variable {α : Type}

/-- The head of a list in order of price is no worse than any member. -/
theorem isNoWorse_of_mem {side : Side} {a b : Price × α} {l : List (Price × α)}
    (h : (a :: l).Pairwise fun a b => side.isNoWorse a.1 b.1 = true) (hb : b ∈ a :: l) :
    side.isNoWorse a.1 b.1 = true := by
  rcases List.mem_cons.mp hb with rfl | hb
  · exact side.isNoWorse_refl _
  · exact (List.pairwise_cons.mp h).1 b hb

theorem mem_of_filter_sublist {l m : List (Price × α)}
    (h : ∀ p, (l.filter (·.1 = p)).Sublist (m.filter (·.1 = p))) {e : Price × α} (he : e ∈ l) :
    e ∈ m :=
  (List.mem_filter.mp ((h e.1).subset (List.mem_filter.mpr ⟨he, decide_eq_true rfl⟩))).1

theorem filter_cons_of_ne {a : Price × α} {p : Price} (h : p ≠ a.1) (l : List (Price × α)) :
    (a :: l).filter (·.1 = p) = l.filter (·.1 = p) :=
  List.filter_cons_of_neg (by simpa using Ne.symm h)

/-- **Of lists in order of price, one is a part of the other if it is so at each price.** -/
theorem sublist_of_filter_sublist {side : Side} {l m : List (Price × α)}
    (hl : l.Pairwise fun a b => side.isNoWorse a.1 b.1 = true)
    (hm : m.Pairwise fun a b => side.isNoWorse a.1 b.1 = true)
    (h : ∀ p, (l.filter (·.1 = p)).Sublist (m.filter (·.1 = p))) : l.Sublist m := by
  induction m generalizing l with
  | nil =>
    rw [List.eq_nil_iff_forall_not_mem.mpr fun e he => List.not_mem_nil (mem_of_filter_sublist h he)]
  | cons b m ih =>
    have hpart := h b.1
    rw [List.filter_cons_of_pos (by simp), List.sublist_cons_iff] at hpart
    rcases hpart with hpart | ⟨part, hlpart, hpart⟩
    · -- the shorter list does without the head, at its price and so at all
      refine (ih hl (List.pairwise_cons.mp hm).2 fun p => ?_).cons b
      by_cases hp : p = b.1
      · rwa [hp]
      · rw [← filter_cons_of_ne hp m]
        exact h p
    · -- the shorter list has the head too, and nothing before it
      have hb : b ∈ l := (List.mem_filter.mp (hlpart ▸ List.mem_cons_self)).1
      cases l with
      | nil => cases hb
      | cons a l =>
        have hprice : a.1 = b.1 := Side.isNoWorse_antisymm (isNoWorse_of_mem hl hb)
          (isNoWorse_of_mem hm (mem_of_filter_sublist h List.mem_cons_self))
        rw [List.filter_cons_of_pos (by simp [hprice])] at hlpart
        obtain ⟨rfl, rfl⟩ := List.cons.inj hlpart
        refine (ih (List.pairwise_cons.mp hl).2 (List.pairwise_cons.mp hm).2 fun p => ?_).cons_cons a
        by_cases hp : p = a.1
        · rwa [hp]
        · rw [← filter_cons_of_ne hp l, ← filter_cons_of_ne hp m]
          exact h p

/-- **A list in order of price is determined by its part at each price.** -/
theorem eq_of_filter_eq {side : Side} {l m : List (Price × α)}
    (hl : l.Pairwise fun a b => side.isNoWorse a.1 b.1 = true)
    (hm : m.Pairwise fun a b => side.isNoWorse a.1 b.1 = true)
    (h : ∀ p, l.filter (·.1 = p) = m.filter (·.1 = p)) : l = m :=
  (sublist_of_filter_sublist hl hm fun p => h p ▸ .refl _).antisymm
    (sublist_of_filter_sublist hm hl fun p => h p ▸ .refl _)

/-- **A stable sort by price leaves the part at each price as it is.** -/
theorem filter_byPrice (side : Side) (l : List (Price × α)) (p : Price) :
    (side.byPrice l).filter (·.1 = p) = l.filter (·.1 = p) := by
  have hlevel : (l.filter (·.1 = p)).Pairwise fun a b => side.isNoWorse a.1 b.1 = true :=
    List.pairwise_of_forall_mem_list fun a ha b hb => by
      rw [of_decide_eq_true (List.mem_filter.mp ha).2, of_decide_eq_true (List.mem_filter.mp hb).2]
      exact side.isNoWorse_refl p
  have hsub : (l.filter (·.1 = p)).Sublist (side.byPrice l) := by
    refine List.sublist_mergeSort ?_ ?_ hlevel List.filter_sublist
    · exact fun _ _ _ => Side.isNoWorse_trans
    · exact fun _ _ => side.isNoWorse_total _ _
  have hperm := (List.mergeSort_perm l fun a b => side.isNoWorse a.1 b.1).filter (·.1 = p)
  have hpart := hsub.filter (·.1 = p)
  rw [List.filter_filter] at hpart
  simp only [Bool.and_self] at hpart
  exact (hpart.eq_of_length hperm.length_eq.symm).symm

theorem pairwise_byPrice (side : Side) (l : List (Price × α)) :
    (side.byPrice l).Pairwise fun a b => side.isNoWorse a.1 b.1 = true := by
  refine List.pairwise_mergeSort ?_ ?_ l
  · exact fun _ _ _ => Side.isNoWorse_trans
  · exact fun _ _ => side.isNoWorse_total _ _

/-- Taking the first element at a price out of a list takes the first out of its part at that price. -/
theorem filter_eraseP (l : List (Price × α)) (price p : Price) :
    (l.eraseP (·.1 = price)).filter (·.1 = p) =
      if p = price then (l.filter (·.1 = p)).tail else l.filter (·.1 = p) := by
  induction l with
  | nil => split <;> rfl
  | cons e rest ih =>
    rw [List.eraseP_cons]
    by_cases he : e.1 = price
    · by_cases hp : p = price
      · simp [he, hp]
      · have hne : ¬price = p := fun h => hp h.symm
        simp [he, hp, hne]
    · by_cases hp : p = price
      · subst hp
        simpa [he] using ih
      · rw [if_neg hp] at ih ⊢
        simp only [he, decide_false, cond_false, List.filter_cons, ih]

end Parts

namespace Book

variable {side : Side}

/-! ## The parts of a book -/

theorem filter_listed_of_ne {e : Price × Level} {p : Price} (h : e.1 ≠ p) :
    (listed e).filter (·.1 = p) = [] := by
  refine List.filter_eq_nil_iff.mpr fun x hx => ?_
  obtain ⟨entry, -, rfl⟩ := List.mem_map.mp hx
  simpa using h

theorem filter_flatMap_listed_of_ne {levels : List (Price × Level)} {p : Price}
    (h : ∀ e ∈ levels, e.1 ≠ p) : (levels.flatMap listed).filter (·.1 = p) = [] := by
  rw [List.filter_flatMap]
  exact List.flatMap_eq_nil_iff.mpr fun e he => filter_listed_of_ne (h e he)

/-- The part of a book at a price is the queue there. -/
theorem WellFormed.filter_ranked {book : Book side} (h : book.WellFormed) (p : Price) :
    book.ranked.filter (·.1 = p) = (book.queueAt p).map (p, ·) := by
  rw [h.ranked_eq]
  unfold queueAt
  cases hget : book.levels.get? p with
  | none =>
    refine filter_flatMap_listed_of_ne fun e he hp => ?_
    have hsome := get?_of_mem_inOrder he
    rw [hp, hget] at hsome
    cases hsome
  | some level =>
    have hmem : (p, level) ∈ side.inOrder book.levels.entries :=
      Side.mem_inOrder.mpr (SortedMap.get?_eq_some_iff.mp hget)
    obtain ⟨before, after, hsplit⟩ := List.append_of_mem hmem
    -- no other level is filed under the same price
    have horder := side.pairwise_inOrder book.levels.ascending
    rw [hsplit, List.pairwise_append, List.pairwise_cons] at horder
    have hbefore : ∀ e ∈ before, e.1 ≠ p := fun e he hp => by
      have hbetter := horder.2.2 e he _ List.mem_cons_self
      rw [hp, Side.isBetter_irrefl] at hbetter
      cases hbetter
    have hafter : ∀ e ∈ after, e.1 ≠ p := fun e he hp => by
      have hbetter := horder.2.1.1 e he
      rw [hp, Side.isBetter_irrefl] at hbetter
      cases hbetter
    have hself : (listed (p, level)).filter (·.1 = p) = listed (p, level) :=
      List.filter_eq_self.mpr fun x hx => by
        obtain ⟨entry, -, rfl⟩ := List.mem_map.mp hx
        simp
    rw [hsplit, List.flatMap_append, List.flatMap_cons, List.filter_append, List.filter_append,
      filter_flatMap_listed_of_ne hbefore, filter_flatMap_listed_of_ne hafter, hself,
      List.append_nil]
    rfl

/-- A book is in order of price. -/
theorem WellFormed.pairwise_isNoWorse {book : Book side} (h : book.WellFormed) :
    book.ranked.Pairwise fun a b => side.isNoWorse a.1 b.1 = true := by
  rw [h.ranked_eq, List.pairwise_flatMap]
  constructor
  · intro e _
    exact List.pairwise_map.mpr (List.pairwise_of_forall fun _ _ => side.isNoWorse_refl _)
  · refine (side.pairwise_inOrder book.levels.ascending).imp fun hbetter a ha b hb => ?_
    obtain ⟨x, -, rfl⟩ := List.mem_map.mp ha
    obtain ⟨y, -, rfl⟩ := List.mem_map.mp hb
    exact Side.isNoWorse_of_isBetter hbetter

/-! ## What a book holds -/

/-- The queue at each price is the part of the waiting entries at that price. -/
structure Holds (book : Book side) (waiting : List (Price × QueueEntry)) : Prop where
  wellFormed : book.WellFormed
  queueAt_eq : ∀ p, (book.queueAt p).map (p, ·) = waiting.filter (·.1 = p)

theorem holds_empty : ({} : Book side).Holds [] := ⟨wellFormed_empty, fun _ => rfl⟩

/-- The oldest entry at a price is the first of the waiting entries at that price. -/
theorem Holds.front?_eq {book : Book side} {waiting : List (Price × QueueEntry)}
    (h : book.Holds waiting) (price : Price) :
    book.front? price = (waiting.find? (·.1 = price)).map (·.2) := by
  rw [front?_eq_head?, ← List.head?_filter, ← h.queueAt_eq, List.head?_map, Option.map_map]
  exact Option.map_id'.symm

/-- **One call.** It takes the same entry from the book as from the waiting entries, and the book goes on
    to hold those that are left. -/
theorem Holds.apply {book : Book side} {waiting : List (Price × QueueEntry)}
    (h : book.Holds waiting) (call : Call) :
    (book.apply call).1 = (Arrivals.apply waiting call).1 ∧
      (book.apply call).2.Holds (Arrivals.apply waiting call).2 := by
  cases call with
  | insert price entry =>
    refine ⟨rfl, h.wellFormed.insert price entry, fun p => ?_⟩
    show ((book.insert price entry).queueAt p).map (p, ·) = _
    rw [queueAt_insert, Arrivals.apply, List.filter_append, ← h.queueAt_eq p]
    by_cases hp : p = price
    · rw [if_pos hp, List.map_append, hp]
      simp
    · have hne : ¬price = p := fun he => hp he.symm
      rw [if_neg hp]
      simp [hne]
  | pop price =>
    refine ⟨h.front?_eq price, h.wellFormed.pop price, fun p => ?_⟩
    show ((book.pop price).queueAt p).map (p, ·) = _
    rw [queueAt_pop, Arrivals.apply, filter_eraseP, ← h.queueAt_eq p]
    split
    · exact List.map_tail
    · rfl

theorem Holds.run {book : Book side} {waiting : List (Price × QueueEntry)}
    (h : book.Holds waiting) (calls : List Call) :
    (book.run calls).1 = (Arrivals.run waiting calls).1 ∧
      (book.run calls).2.Holds (Arrivals.run waiting calls).2 := by
  induction calls generalizing book waiting with
  | nil => exact ⟨rfl, h⟩
  | cons call rest ih =>
    obtain ⟨hanswer, hafter⟩ := h.apply call
    obtain ⟨hanswers, hend⟩ := ih hafter
    exact ⟨congrArg₂ List.cons hanswer hanswers, hend⟩

/-- A book lists what it holds as a stable sort by price does. -/
theorem Holds.ranked_eq {book : Book side} {waiting : List (Price × QueueEntry)}
    (h : book.Holds waiting) : book.ranked = side.byPrice waiting :=
  eq_of_filter_eq h.wellFormed.pairwise_isNoWorse (pairwise_byPrice side waiting) fun p => by
    rw [filter_byPrice, h.wellFormed.filter_ranked, h.queueAt_eq]

/-! ## The views of a book -/

theorem WellFormed.bestPrice?_eq {book : Book side} (h : book.WellFormed) :
    book.bestPrice? = book.ranked.head?.map (·.1) := by
  cases hr : book.ranked with
  | nil => exact h.bestPrice?_of_ranked_nil hr
  | cons e rest => exact h.bestPrice?_of_ranked hr

/-- A book that lists nothing is the empty one. -/
theorem WellFormed.eq_empty {book : Book side} (h : book.WellFormed) (hr : book.ranked = []) :
    book = {} := by
  have hbest := h.bestPrice?_of_ranked_nil hr
  rw [Book.bestPrice?_eq, Option.map_eq_none_iff, List.head?_eq_none_iff] at hbest
  have hentries : book.levels.entries = [] :=
    List.eq_nil_iff_forall_not_mem.mpr fun e he =>
      absurd (hbest ▸ Side.mem_inOrder.mpr he) List.not_mem_nil
  cases book with
  | mk levels => exact congrArg Book.mk (SortedMap.ext hentries)

theorem WellFormed.isEmpty_iff {book : Book side} (h : book.WellFormed) :
    book.isEmpty = true ↔ book.ranked = [] := by
  constructor
  · intro hempty
    rw [h.ranked_eq, List.isEmpty_iff.mp hempty]
    cases side <;> rfl
  · intro hr
    rw [h.eq_empty hr]
    rfl

/-- Where nothing rests there is nothing to take, and the book stays as it is. -/
theorem WellFormed.pop_eq_self {book : Book side} (h : book.WellFormed) {price : Price}
    (hfront : book.front? price = none) : book.pop price = book := by
  unfold front? at hfront
  unfold Book.pop
  cases hget : book.levels.get? price with
  | none => rfl
  | some level =>
    rw [hget] at hfront
    exact absurd (List.head?_eq_none_iff.mp hfront) (h.nonempty hget)

/-- Emptying a book from its best price on takes what it lists, and leaves nothing. -/
theorem WellFormed.drain_eq {book : Book side} (h : book.WellFormed) :
    book.drain = (book.ranked, {}) := by
  induction hr : book.ranked generalizing book with
  | nil =>
    unfold drain
    rw [h.bestPrice?_of_ranked_nil hr, h.eq_empty hr]
  | cons e rest ih =>
    have hmore := ih (h.pop e.1) (h.ranked_pop hr)
    unfold drain
    rw [h.bestPrice?_of_ranked hr]
    dsimp only
    split
    case h_1 hfront =>
      rw [h.front?_of_ranked hr] at hfront
      cases hfront
    case h_2 entry hfront =>
      rw [h.front?_of_ranked hr] at hfront
      cases hfront
      rw [hmore]

/-- The number of entries is the length of the list of them. -/
theorem WellFormed.size_eq {book : Book side} (h : book.WellFormed) :
    book.size = book.ranked.length := by
  induction hr : book.ranked generalizing book with
  | nil =>
    rw [h.eq_empty hr]
    rfl
  | cons e rest ih =>
    rw [← size_pop (h.front?_of_ranked hr), ih (h.pop e.1) (h.ranked_pop hr), List.length_cons]

theorem WellFormed.depth_eq {book : Book side} (h : book.WellFormed) :
    book.depth = book.levels.entries.map fun e => (e.1, e.2.size) := by
  unfold depth SortedMap.values
  rw [List.map_map]
  refine List.map_congr_left fun e he => ?_
  exact congrArg (·, e.2.size) (h.price_eq (SortedMap.get?_eq_some_iff.mpr he))

/-- The depth of a book has a row for each price at which it lists something, with how much that is. -/
theorem WellFormed.mem_depth_iff {book : Book side} (h : book.WellFormed) {price : Price} {n : Nat} :
    (price, n) ∈ book.depth ↔ n = (book.ranked.filter (·.1 = price)).length ∧ 0 < n := by
  rw [h.filter_ranked, List.length_map, h.depth_eq, List.mem_map]
  constructor
  · rintro ⟨e, he, heq⟩
    cases heq
    have hget := SortedMap.get?_eq_some_iff.mpr he
    rw [queueAt_of_get? hget]
    exact ⟨rfl, List.length_pos_iff.mpr (h.nonempty hget)⟩
  · rintro ⟨hn, hpos⟩
    unfold queueAt at hn
    cases hget : book.levels.get? price with
    | none =>
      rw [hget] at hn
      exact absurd hn (Nat.ne_of_gt hpos)
    | some level =>
      rw [hget] at hn
      exact ⟨(price, level), SortedMap.get?_eq_some_iff.mp hget, congrArg (price, ·) hn.symm⟩

theorem WellFormed.pairwise_depth {book : Book side} (h : book.WellFormed) :
    book.depth.Pairwise (·.1 < ·.1) := by
  rw [h.depth_eq]
  exact List.pairwise_map.mpr book.levels.ascending

/-- There are as many levels as different prices. -/
theorem WellFormed.size_levels {book : Book side} (h : book.WellFormed) :
    book.levels.size = (book.ranked.map (·.1)).dedup.length := by
  have hkeys : (book.levels.entries.map (·.1)).Perm (book.ranked.map (·.1)).dedup := by
    refine (List.perm_ext_iff_of_nodup (SortedMap.nodup_keys _) (List.nodup_dedup _)).mpr fun p => ?_
    rw [List.mem_dedup, List.mem_map, List.mem_map]
    constructor
    · rintro ⟨e, he, rfl⟩
      have hget := SortedMap.get?_eq_some_iff.mpr he
      obtain ⟨entry, hentry⟩ := List.exists_mem_of_ne_nil _ (h.nonempty hget)
      exact ⟨(e.1, entry), h.mem_ranked_iff.mpr (queueAt_of_get? hget ▸ hentry), rfl⟩
    · rintro ⟨⟨p, entry⟩, hlisted, rfl⟩
      rw [h.ranked_eq] at hlisted
      obtain ⟨e, he, hentry⟩ := List.mem_flatMap.mp hlisted
      obtain ⟨_, -, heq⟩ := List.mem_map.mp hentry
      cases heq
      exact ⟨e, Side.mem_inOrder.mp he, rfl⟩
  rw [← hkeys.length_eq, List.length_map]
  rfl

/-! ## A row of calls -/

/-- What it means for a book to be the stable priority queue of the entries that wait. -/
structure IsQueueOf (book : Book side) (waiting : List (Price × QueueEntry)) : Prop where
  /-- The book lists the waiting entries best price first, and in order of arrival within a price. -/
  ranked : book.ranked = side.byPrice waiting
  /-- The front at a price is the oldest entry there. -/
  front : ∀ price, book.front? price = (waiting.find? (·.1 = price)).map (·.2)
  /-- Where nothing waits, taking the oldest entry changes nothing. -/
  pop_none : ∀ price, (∀ e ∈ waiting, e.1 ≠ price) → book.pop price = book
  /-- The best price is that of the head of the list. -/
  bestPrice : book.bestPrice? = book.ranked.head?.map (·.1)
  /-- Emptying the book from its best price on gives the list. -/
  drain : book.drain = (book.ranked, {})
  /-- The depth lists each price once, the lowest first, -/
  depth_ascending : book.depth.Pairwise (·.1 < ·.1)
  /-- with the number of entries that the list has at it, which is never zero. -/
  depth : ∀ price n,
    (price, n) ∈ book.depth ↔ n = (book.ranked.filter (·.1 = price)).length ∧ 0 < n
  /-- No level is empty. -/
  levels_nonempty : ∀ level ∈ book.levels.values, level.isEmpty = false
  /-- There are as many levels as different prices in the list. -/
  level_count : book.levels.size = (book.ranked.map (·.1)).dedup.length
  /-- The number of entries is the length of the list. -/
  size : book.size = book.ranked.length
  /-- The book is empty exactly if the list is. -/
  isEmpty : book.isEmpty = true ↔ book.ranked = []

theorem Holds.isQueueOf {book : Book side} {waiting : List (Price × QueueEntry)}
    (h : book.Holds waiting) : book.IsQueueOf waiting where
  ranked := h.ranked_eq
  front := h.front?_eq
  pop_none price hnone := by
    refine h.wellFormed.pop_eq_self ?_
    rw [h.front?_eq, List.find?_eq_none.mpr fun e he => by simpa using hnone e he]
    rfl
  bestPrice := h.wellFormed.bestPrice?_eq
  drain := h.wellFormed.drain_eq
  depth_ascending := h.wellFormed.pairwise_depth
  depth _ _ := h.wellFormed.mem_depth_iff
  levels_nonempty level hlevel := by
    obtain ⟨price, hget⟩ := SortedMap.mem_values_iff.mp hlevel
    exact Bool.eq_false_iff.mpr fun hempty =>
      h.wellFormed.nonempty hget (List.isEmpty_iff.mp hempty)
  level_count := h.wellFormed.size_levels
  size := h.wellFormed.size_eq
  isEmpty := h.wellFormed.isEmpty_iff

/-- **A book is a stable priority queue.** A row of calls on an empty book takes the entries that it takes
    from the plain list of arrivals, each the oldest at its price, and the book that it leads to is the stable
    priority queue of the entries that still wait. -/
theorem run_isQueueOf (side : Side) (calls : List Call) :
    (({} : Book side).run calls).1 = (Arrivals.run [] calls).1 ∧
      (({} : Book side).run calls).2.IsQueueOf (Arrivals.run [] calls).2 :=
  ⟨(holds_empty.run calls).1, (holds_empty.run calls).2.isQueueOf⟩

end Book

end Bourse
