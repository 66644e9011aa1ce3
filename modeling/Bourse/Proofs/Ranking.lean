import Bourse.Book
import Bourse.Proofs.Bindings
import Mathlib.Data.List.Basic
import Mathlib.Data.List.TakeWhile

/-!
# `Bourse.Proofs.Ranking` — a book as one queue, and as a queue for each price

A book is read in two ways. `ranked` is the whole book in matching order, and `queueAt` the queue at one
price, empty where nothing rests. This module says what the operations of a book do to either.

* `queueAt_insert`, `queueAt_pop` and `queueAt_prune` hold of every book.
* On a `WellFormed` book, one whose levels are filed under their own price and have an entry, the best price
  is that of the head of `ranked` (`bestPrice?_of_ranked`, `front?_of_ranked`) and popping it leaves the
  tail (`ranked_pop`).
* `ranked` lists what the queues hold (`mem_ranked_iff`). Where every queue is in order of age, it is in
  order of price and then of age (`pairwise_ranked`).
-/

namespace Bourse

namespace Side

variable {α β : Type}

/-- Of a list by ascending price, the list in matching order. -/
def inOrder (side : Side) (l : List α) : List α :=
  match side with
  | .buy => l.reverse
  | .sell => l

@[simp] theorem mem_inOrder {side : Side} {l : List α} {a : α} : a ∈ side.inOrder l ↔ a ∈ l := by
  cases side
  · exact List.mem_reverse
  · exact Iff.rfl

theorem map_inOrder (side : Side) (f : α → β) (l : List α) :
    (side.inOrder l).map f = side.inOrder (l.map f) := by
  cases side
  · exact List.map_reverse
  · rfl

theorem filter_inOrder (side : Side) (p : α → Bool) (l : List α) :
    (side.inOrder l).filter p = side.inOrder (l.filter p) := by
  cases side
  · exact List.filter_reverse
  · rfl

/-- What ascends by price comes better price first in matching order. -/
theorem pairwise_inOrder (side : Side) {l : List (Price × α)} (h : l.Pairwise (·.1 < ·.1)) :
    (side.inOrder l).Pairwise fun a b => side.isBetter a.1 b.1 = true := by
  cases side with
  | buy => exact List.pairwise_reverse.mpr (h.imp fun hlt => decide_eq_true hlt)
  | sell => exact h.imp fun hlt => decide_eq_true hlt

/-- No price is better than itself. -/
theorem isBetter_irrefl (side : Side) (price : Price) : side.isBetter price price = false := by
  cases side <;> simp [isBetter]

theorem isBetter_asymm {side : Side} {p q : Price} (h : side.isBetter p q = true) :
    side.isBetter q p = false := by
  cases side <;> exact decide_eq_false (Int.not_lt.mpr (Int.le_of_lt (of_decide_eq_true h)))

theorem isBetter_trans {side : Side} {p q r : Price} (h : side.isBetter p q = true)
    (h' : side.isBetter q r = true) : side.isBetter p r = true := by
  cases side with
  | buy => exact decide_eq_true (Int.lt_trans (of_decide_eq_true h') (of_decide_eq_true h))
  | sell => exact decide_eq_true (Int.lt_trans (of_decide_eq_true h) (of_decide_eq_true h'))

/-- Of two that differ in price or age, only one comes before the other. -/
theorem not_before_of_before {side : Side} {p q : Price} {i j : Nat}
    (h : side.isBetter p q = true ∨ (p = q ∧ i < j)) :
    ¬(side.isBetter q p = true ∨ (q = p ∧ j < i)) := by
  intro h'
  rcases h with h | ⟨rfl, hlt⟩
  · rcases h' with h' | ⟨rfl, -⟩
    · rw [isBetter_asymm h] at h'
      cases h'
    · rw [isBetter_irrefl] at h
      cases h
  · rcases h' with h' | ⟨-, hgt⟩
    · rw [isBetter_irrefl] at h'
      cases h'
    · exact Nat.lt_asymm hlt hgt

/-- A limit that admits a price admits every better one. -/
theorem crosses_of_isBetter {side : Side} {limit p q : Price}
    (h : side.opposite.isBetter p q = true) (hq : side.crosses limit q = true) :
    side.crosses limit p = true := by
  cases side with
  | buy =>
    exact decide_eq_true
      (Int.le_trans (Int.le_of_lt (of_decide_eq_true h)) (of_decide_eq_true hq))
  | sell =>
    exact decide_eq_true
      (Int.le_trans (of_decide_eq_true hq) (Int.le_of_lt (of_decide_eq_true h)))

end Side

/-- Lists with the same members are the same if both are in an order that leaves no choice. -/
theorem eq_of_pairwise_of_mem_iff {α : Type} {r : α → α → Prop} (hasymm : ∀ {a b : α}, r a b → ¬r b a)
    {l m : List α} (hl : l.Pairwise r) (hm : m.Pairwise r) (h : ∀ a, a ∈ l ↔ a ∈ m) : l = m := by
  have hnodup : ∀ {k : List α}, k.Pairwise r → k.Nodup := fun hk =>
    hk.imp fun {a b} hab heq => by
      subst heq
      exact hasymm hab hab
  exact ((List.perm_ext_iff_of_nodup (hnodup hl) (hnodup hm)).mpr h).eq_of_pairwise
    (fun _ _ _ _ hab hba => absurd hba (hasymm hab)) hl hm

/-- A level without a live entry goes; of another one the entries in front of its first live entry go. -/
theorem Level.pruned?_cases (level : Level) (isLive : QueueEntry → Bool) :
    ((∀ entry ∈ level.queue, isLive entry = false) ∧ level.pruned? isLive = none) ∨
      ∃ dead entry rest, level.queue = dead ++ entry :: rest ∧ (∀ x ∈ dead, isLive x = false) ∧
        isLive entry = true ∧ level.pruned? isLive = some { level with queue := entry :: rest } := by
  have hsplit : (level.queue.takeWhile fun entry => !isLive entry) ++
      (level.queue.dropWhile fun entry => !isLive entry) = level.queue := List.takeWhile_append_dropWhile
  have hdead : ∀ x ∈ level.queue.takeWhile fun entry => !isLive entry, isLive x = false := by
    intro x hx
    simpa using List.mem_takeWhile_imp hx
  unfold pruned?
  cases hleft : level.queue.dropWhile fun entry => !isLive entry with
  | nil =>
    refine .inl ⟨?_, rfl⟩
    rw [hleft, List.append_nil] at hsplit
    rwa [hsplit] at hdead
  | cons entry rest =>
    have hlive : isLive entry = true := by
      have hhead := List.head?_dropWhile_not (fun entry => !isLive entry) level.queue
      rw [hleft] at hhead
      simpa using hhead
    rw [hleft] at hsplit
    exact .inr ⟨_, entry, rest, hsplit.symm, hdead, hlive, rfl⟩

namespace Book

variable {side : Side}

/-! ## The queue at a price -/

/-- The entries at one price, oldest first. -/
def queueAt (book : Book side) (price : Price) : List QueueEntry :=
  ((book.levels.get? price).map (·.queue)).getD []

theorem queueAt_of_get? {book : Book side} {price : Price} {level : Level}
    (h : book.levels.get? price = some level) : book.queueAt price = level.queue := by
  unfold queueAt
  rw [h]
  rfl

theorem front?_eq_head? (book : Book side) (price : Price) :
    book.front? price = (book.queueAt price).head? := by
  unfold front? queueAt Level.front?
  cases book.levels.get? price <;> rfl

theorem mem_queueAt_of_front? {book : Book side} {price : Price} {entry : QueueEntry}
    (h : book.front? price = some entry) : entry ∈ book.queueAt price := by
  rw [front?_eq_head?] at h
  exact List.mem_of_mem_head? h

theorem queueAt_insert (book : Book side) (price p : Price) (entry : QueueEntry) :
    (book.insert price entry).queueAt p =
      if p = price then book.queueAt p ++ [entry] else book.queueAt p := by
  unfold insert queueAt
  rw [SortedMap.get?_insert]
  by_cases hp : p = price
  · rw [if_pos hp, if_pos hp, hp]
    cases book.levels.get? price <;> rfl
  · rw [if_neg hp, if_neg hp]

theorem queueAt_pop (book : Book side) (price p : Price) :
    (book.pop price).queueAt p =
      if p = price then (book.queueAt p).tail else book.queueAt p := by
  unfold pop queueAt
  cases hl : book.levels.get? price with
  | none =>
    by_cases hp : p = price
    · rw [if_pos hp, hp, hl]
      rfl
    · rw [if_neg hp]
  | some level =>
    dsimp only
    by_cases hempty : level.rest.isEmpty = true
    · rw [if_pos hempty]
      dsimp only
      rw [SortedMap.get?_erase]
      by_cases hp : p = price
      · rw [if_pos hp, if_pos hp, hp, hl]
        exact (List.isEmpty_iff.mp hempty).symm
      · rw [if_neg hp, if_neg hp]
    · rw [if_neg hempty]
      dsimp only
      rw [SortedMap.get?_modify]
      by_cases hp : p = price
      · rw [if_pos hp, if_pos hp, hp, hl]
        rfl
      · rw [if_neg hp, if_neg hp]

theorem queueAt_pop_sublist (book : Book side) (price p : Price) :
    ((book.pop price).queueAt p).Sublist (book.queueAt p) := by
  rw [queueAt_pop]
  split
  · exact List.tail_sublist _
  · exact .refl _

theorem levels_prune (book : Book side) (priceEnd : PriceEnd) (isLive : QueueEntry → Bool)
    (p : Price) :
    (book.prune priceEnd isLive).2.levels.get? p = book.levels.get? p ∨
      (book.prune priceEnd isLive).2.levels.get? p =
        (book.levels.get? p).bind (·.pruned? isLive) := by
  cases priceEnd with
  | lowest => exact SortedMap.get?_trimFirst book.levels _ p
  | highest => exact SortedMap.get?_trimLast book.levels _ p

/-- Pruning leaves the queue at a price alone or takes the expired entries in front of it away. -/
theorem queueAt_prune (book : Book side) (priceEnd : PriceEnd) (isLive : QueueEntry → Bool)
    (p : Price) :
    (book.prune priceEnd isLive).2.queueAt p = book.queueAt p ∨
      (book.prune priceEnd isLive).2.queueAt p =
        (book.queueAt p).dropWhile fun entry => !isLive entry := by
  unfold queueAt
  rcases levels_prune book priceEnd isLive p with h | h
  · exact .inl (by rw [h])
  · refine .inr ?_
    rw [h]
    cases book.levels.get? p with
    | none => rfl
    | some level =>
      show ((level.pruned? isLive).map (·.queue)).getD [] = _
      unfold Level.pruned?
      split
      case h_1 hdead => exact hdead.symm
      case h_2 => rfl

theorem queueAt_prune_sublist (book : Book side) (priceEnd : PriceEnd) (isLive : QueueEntry → Bool)
    (p : Price) : ((book.prune priceEnd isLive).2.queueAt p).Sublist (book.queueAt p) := by
  rcases queueAt_prune book priceEnd isLive p with h | h
  · rw [h]
  · rw [h]
    exact List.dropWhile_sublist _

/-- The price that pruning finds is that of a level which is left with a live entry in front. -/
theorem front?_of_prune {book : Book side} {priceEnd : PriceEnd} {isLive : QueueEntry → Bool}
    {price : Price} (h : (book.prune priceEnd isLive).1 = some price) :
    ∃ entry, (book.prune priceEnd isLive).2.front? price = some entry ∧ isLive entry = true := by
  have hlevel : ∃ old level, (book.prune priceEnd isLive).2.levels.get? price = some level ∧
      Level.pruned? old isLive = some level := by
    cases priceEnd with
    | lowest =>
      obtain ⟨e, he, rfl⟩ := Option.map_eq_some_iff.mp h
      obtain ⟨old, -, hold⟩ := SortedMap.get?_of_first?_trimFirst he
      exact ⟨old, e.2, SortedMap.get?_eq_some_iff.mpr (List.mem_of_mem_head? he), hold⟩
    | highest =>
      obtain ⟨e, he, rfl⟩ := Option.map_eq_some_iff.mp h
      obtain ⟨old, -, hold⟩ := SortedMap.get?_of_last?_trimLast he
      exact ⟨old, e.2, SortedMap.get?_eq_some_iff.mpr (List.mem_of_getLast? he), hold⟩
  obtain ⟨old, level, hget, hpruned⟩ := hlevel
  rcases old.pruned?_cases isLive with ⟨-, hnone⟩ | ⟨dead, entry, rest, -, -, hlive, hsome⟩
  · rw [hnone] at hpruned
    cases hpruned
  · rw [hsome] at hpruned
    cases hpruned
    refine ⟨entry, ?_, hlive⟩
    unfold front?
    rw [hget]
    rfl

/-! ## Well-formed books -/

/-- Every level is filed under its own price and has an entry. -/
structure WellFormed (book : Book side) : Prop where
  price_eq : ∀ {p : Price} {level : Level}, book.levels.get? p = some level → level.price = p
  nonempty : ∀ {p : Price} {level : Level}, book.levels.get? p = some level → level.queue ≠ []

theorem wellFormed_empty : ({} : Book side).WellFormed := ⟨nofun, nofun⟩

theorem WellFormed.insert {book : Book side} (h : book.WellFormed) (price : Price)
    (entry : QueueEntry) : (book.insert price entry).WellFormed := by
  have hlevel : ∀ {p : Price} {level : Level}, (book.insert price entry).levels.get? p = some level →
      (p = price ∧ level = ((book.levels.get? price).getD { price }).push entry) ∨
        book.levels.get? p = some level := by
    intro p level hp
    unfold Book.insert at hp
    rw [SortedMap.get?_insert] at hp
    by_cases he : p = price
    · rw [if_pos he] at hp
      exact .inl ⟨he, (Option.some.inj hp).symm⟩
    · rw [if_neg he] at hp
      exact .inr hp
  constructor
  · intro p level hp
    rcases hlevel hp with ⟨rfl, rfl⟩ | hp
    · cases ho : book.levels.get? p with
      | none => rfl
      | some old => exact (h.price_eq ho : old.price = p)
    · exact h.price_eq hp
  · intro p level hp
    rcases hlevel hp with ⟨rfl, rfl⟩ | hp
    · exact List.append_ne_nil_of_right_ne_nil _ (List.cons_ne_nil _ _)
    · exact h.nonempty hp

theorem WellFormed.pop {book : Book side} (h : book.WellFormed) (price : Price) :
    (book.pop price).WellFormed := by
  unfold Book.pop
  cases hl : book.levels.get? price with
  | none => exact h
  | some level =>
    dsimp only
    split
    case isTrue =>
      have hold : ∀ {p : Price} {l : Level}, (book.levels.erase price).get? p = some l →
          book.levels.get? p = some l := by
        intro p l hp
        rw [SortedMap.get?_erase] at hp
        by_cases he : p = price
        · rw [if_pos he] at hp
          cases hp
        · rwa [if_neg he] at hp
      exact ⟨fun hp => h.price_eq (hold hp), fun hp => h.nonempty (hold hp)⟩
    case isFalse hrest =>
      have hold : ∀ {p : Price} {l : Level}, (book.levels.modify price (·.rest)).get? p = some l →
          (p = price ∧ l = level.rest) ∨ book.levels.get? p = some l := by
        intro p l hp
        rw [SortedMap.get?_modify] at hp
        by_cases he : p = price
        · rw [if_pos he, he, hl] at hp
          exact .inl ⟨he, (Option.some.inj hp).symm⟩
        · rw [if_neg he] at hp
          exact .inr hp
      constructor
      · intro p l hp
        rcases hold hp with ⟨rfl, rfl⟩ | hp
        · exact (h.price_eq hl : level.price = p)
        · exact h.price_eq hp
      · intro p l hp
        rcases hold hp with ⟨rfl, rfl⟩ | hp
        · exact fun hnil => hrest (List.isEmpty_iff.mpr hnil)
        · exact h.nonempty hp

theorem WellFormed.prune {book : Book side} (h : book.WellFormed) (priceEnd : PriceEnd)
    (isLive : QueueEntry → Bool) : (book.prune priceEnd isLive).2.WellFormed := by
  have hold : ∀ {p : Price} {l : Level},
      (book.prune priceEnd isLive).2.levels.get? p = some l →
        book.levels.get? p = some l ∨
          ∃ old, book.levels.get? p = some old ∧ old.pruned? isLive = some l := by
    intro p l hp
    rcases levels_prune book priceEnd isLive p with he | he
    · exact .inl (he ▸ hp)
    · exact .inr (Option.bind_eq_some_iff.mp (he ▸ hp))
  have hpruned : ∀ {old l : Level}, old.pruned? isLive = some l →
      l.price = old.price ∧ l.queue ≠ [] := by
    intro old l hl
    rcases old.pruned?_cases isLive with ⟨-, hnone⟩ | ⟨dead, entry, rest, -, -, -, hsome⟩
    · rw [hnone] at hl
      cases hl
    · rw [hsome] at hl
      cases hl
      exact ⟨rfl, List.cons_ne_nil entry rest⟩
  constructor
  · intro p l hp
    rcases hold hp with hp | ⟨old, ho, hl⟩
    · exact h.price_eq hp
    · exact (hpruned hl).1.trans (h.price_eq ho)
  · intro p l hp
    rcases hold hp with hp | ⟨old, _, hl⟩
    · exact h.nonempty hp
    · exact (hpruned hl).2

/-! ## The whole book in matching order -/

theorem rankedLevels_eq (book : Book side) :
    book.rankedLevels = (side.inOrder book.levels.entries).map (·.2) := by
  rw [Side.map_inOrder]
  cases side <;> rfl

/-- The best price is that of the first level in matching order. -/
theorem bestPrice?_eq (book : Book side) :
    book.bestPrice? = (side.inOrder book.levels.entries).head?.map (·.1) := by
  cases side with
  | buy =>
    show book.levels.entries.getLast?.map _ = book.levels.entries.reverse.head?.map _
    rw [List.head?_reverse]
  | sell => rfl

theorem get?_of_mem_inOrder {book : Book side} {e : Price × Level}
    (he : e ∈ side.inOrder book.levels.entries) : book.levels.get? e.1 = some e.2 :=
  SortedMap.get?_eq_some_iff.mpr (Side.mem_inOrder.mp he)

/-- The entries of a level with their price. -/
def listed (e : Price × Level) : List (Price × QueueEntry) := e.2.queue.map (e.1, ·)

/-- The whole book is what its levels list, one after the other. -/
theorem WellFormed.ranked_eq {book : Book side} (h : book.WellFormed) :
    book.ranked = (side.inOrder book.levels.entries).flatMap listed := by
  unfold ranked
  rw [rankedLevels_eq, List.flatMap_map]
  refine List.flatMap_congr fun e he => ?_
  rw [h.price_eq (get?_of_mem_inOrder he)]
  rfl

/-- The head of a book that is not empty comes from the first level, and that level is filed under the
    price of the head. -/
theorem WellFormed.ranked_cons {book : Book side} (h : book.WellFormed) {price : Price}
    {entry : QueueEntry} {rest : List (Price × QueueEntry)}
    (hr : book.ranked = (price, entry) :: rest) :
    ∃ level queue levels, side.inOrder book.levels.entries = (price, level) :: levels ∧
      level.queue = entry :: queue ∧ rest = queue.map (price, ·) ++ levels.flatMap listed := by
  rw [h.ranked_eq] at hr
  cases ho : side.inOrder book.levels.entries with
  | nil =>
    rw [ho] at hr
    cases hr
  | cons e levels =>
    obtain ⟨p, level⟩ := e
    have hget : book.levels.get? p = some level :=
      get?_of_mem_inOrder (ho ▸ List.mem_cons_self)
    rw [ho, List.flatMap_cons] at hr
    cases hq : level.queue with
    | nil => exact absurd hq (h.nonempty hget)
    | cons first queue =>
      rw [listed, hq] at hr
      cases hr
      exact ⟨level, queue, levels, rfl, hq, rfl⟩

theorem WellFormed.bestPrice?_of_ranked {book : Book side} (h : book.WellFormed) {price : Price}
    {entry : QueueEntry} {rest : List (Price × QueueEntry)}
    (hr : book.ranked = (price, entry) :: rest) : book.bestPrice? = some price := by
  obtain ⟨level, queue, levels, ho, -, -⟩ := h.ranked_cons hr
  rw [bestPrice?_eq, ho]
  rfl

theorem WellFormed.bestPrice?_of_ranked_nil {book : Book side} (h : book.WellFormed)
    (hr : book.ranked = []) : book.bestPrice? = none := by
  rw [bestPrice?_eq]
  cases ho : side.inOrder book.levels.entries with
  | nil => rfl
  | cons e levels =>
    have hget : book.levels.get? e.1 = some e.2 := get?_of_mem_inOrder (ho ▸ List.mem_cons_self)
    rw [h.ranked_eq, ho, List.flatMap_cons, List.append_eq_nil_iff] at hr
    exact absurd (List.map_eq_nil_iff.mp hr.1) (h.nonempty hget)

theorem WellFormed.front?_of_ranked {book : Book side} (h : book.WellFormed) {price : Price}
    {entry : QueueEntry} {rest : List (Price × QueueEntry)}
    (hr : book.ranked = (price, entry) :: rest) : book.front? price = some entry := by
  obtain ⟨level, queue, levels, ho, hq, -⟩ := h.ranked_cons hr
  have hget : book.levels.get? price = some level :=
    get?_of_mem_inOrder (ho ▸ List.mem_cons_self)
  unfold front?
  rw [hget]
  show level.queue.head? = some entry
  rw [hq]
  rfl

/-- **Popping the best price takes the head of the book.** -/
theorem WellFormed.ranked_pop {book : Book side} (h : book.WellFormed) {price : Price}
    {entry : QueueEntry} {rest : List (Price × QueueEntry)}
    (hr : book.ranked = (price, entry) :: rest) : (book.pop price).ranked = rest := by
  obtain ⟨level, queue, levels, ho, hq, rfl⟩ := h.ranked_cons hr
  have hget : book.levels.get? price = some level :=
    get?_of_mem_inOrder (ho ▸ List.mem_cons_self)
  -- the other levels are filed under other prices
  have hother : ∀ e ∈ levels, e.1 ≠ price := by
    intro e he heq
    have hbetter := (List.pairwise_cons.mp (ho ▸ side.pairwise_inOrder book.levels.ascending)).1 e he
    rw [heq, Side.isBetter_irrefl] at hbetter
    cases hbetter
  rw [(h.pop price).ranked_eq]
  unfold Book.pop
  rw [hget]
  dsimp only
  by_cases hempty : level.rest.isEmpty = true
  · rw [if_pos hempty]
    have hnil : queue = [] := by simpa [Level.rest, Level.isEmpty, hq] using hempty
    have hkeep : levels.filter (fun e => decide (e.1 ≠ price)) = levels :=
      List.filter_eq_self.mpr fun e he => decide_eq_true (hother e he)
    show (side.inOrder (book.levels.entries.filter _)).flatMap listed = _
    rw [← Side.filter_inOrder, ho, List.filter_cons_of_neg (by simp), hkeep, hnil]
    rfl
  · rw [if_neg hempty]
    show (side.inOrder (book.levels.entries.map _)).flatMap listed = _
    rw [← Side.map_inOrder, ho, List.map_cons, List.flatMap_cons, if_pos rfl]
    congr 1
    · simp [listed, Level.rest, hq]
    · refine congrArg (List.flatMap listed) ((List.map_congr_left fun e he => ?_).trans (List.map_id _))
      rw [if_neg (hother e he)]
      rfl

/-- The book lists an entry at a price exactly if the queue there holds it. -/
theorem WellFormed.mem_ranked_iff {book : Book side} (h : book.WellFormed) {price : Price}
    {entry : QueueEntry} : (price, entry) ∈ book.ranked ↔ entry ∈ book.queueAt price := by
  rw [h.ranked_eq, List.mem_flatMap]
  constructor
  · rintro ⟨e, he, hm⟩
    obtain ⟨x, hx, heq⟩ := List.mem_map.mp hm
    cases heq
    rw [queueAt_of_get? (get?_of_mem_inOrder he)]
    exact hx
  · intro hm
    unfold queueAt at hm
    cases hget : book.levels.get? price with
    | none =>
      rw [hget] at hm
      cases hm
    | some level =>
      rw [hget] at hm
      exact ⟨(price, level), Side.mem_inOrder.mpr (SortedMap.get?_eq_some_iff.mp hget),
        List.mem_map.mpr ⟨entry, hm, rfl⟩⟩

/-- **Where every queue is in order of age, the book is in order of price and then of age.** -/
theorem WellFormed.pairwise_ranked {book : Book side} (h : book.WellFormed)
    (hage : ∀ p, (book.queueAt p).Pairwise (·.offer < ·.offer)) :
    book.ranked.Pairwise fun a b =>
      side.isBetter a.1 b.1 = true ∨ (a.1 = b.1 ∧ a.2.offer < b.2.offer) := by
  rw [h.ranked_eq, List.pairwise_flatMap]
  constructor
  · intro e he
    have hqueue := hage e.1
    rw [queueAt_of_get? (get?_of_mem_inOrder he)] at hqueue
    exact List.pairwise_map.mpr (hqueue.imp fun hlt => .inr ⟨rfl, hlt⟩)
  · refine (side.pairwise_inOrder book.levels.ascending).imp fun hbetter a ha b hb => .inl ?_
    obtain ⟨x, -, rfl⟩ := List.mem_map.mp ha
    obtain ⟨y, -, rfl⟩ := List.mem_map.mp hb
    exact hbetter

end Book

end Bourse
