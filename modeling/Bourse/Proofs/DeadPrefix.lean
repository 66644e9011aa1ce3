import Bourse.Book.Run
import Bourse.Proofs.Pruning

/-!
# `Bourse.Proofs.DeadPrefix` — pruning drops what is dead in front, and nothing else

Seen from the end at which it is pruned, a book is a list of levels, and pruning trims the front of that list
whichever end it is (`levelsFrom_prune`, `prune_fst_eq_head?`). Trimming drops the levels that have no live
entry and stops at the first that has one (`SortedMap.trimFront_cases`); of that level it drops the entries in
front of its first live one (`Level.pruned?_cases`). What comes behind is not looked at.

`prune_exact` is the result, for a book that has been changed in any way before.
-/

namespace Bourse

namespace Book

variable {side : Side}

/-! ## Both ends at once -/

theorem mem_levelsFrom_iff {book : Book side} {priceEnd : PriceEnd} {e : Price × Level} :
    e ∈ book.levelsFrom priceEnd ↔ book.levels.get? e.1 = some e.2 := by
  rw [SortedMap.get?_eq_some_iff]
  cases priceEnd with
  | lowest => rfl
  | highest => exact List.mem_reverse

/-- A book is determined by its levels, seen from either end. -/
theorem eq_of_levelsFrom_eq {book other : Book side} (priceEnd : PriceEnd)
    (h : book.levelsFrom priceEnd = other.levelsFrom priceEnd) : book = other := by
  have hentries : book.levels.entries = other.levels.entries := by
    cases priceEnd with
    | lowest => exact h
    | highest => exact List.reverse_injective h
  cases book
  cases other
  exact congrArg mk (SortedMap.ext hentries)

/-- Pruning an end trims the front of the list of levels that begins there. -/
theorem levelsFrom_prune (book : Book side) (priceEnd : PriceEnd) (isLive : QueueEntry → Bool) :
    (book.prune priceEnd isLive).2.levelsFrom priceEnd =
      SortedMap.trimFront (·.pruned? isLive) (book.levelsFrom priceEnd) := by
  cases priceEnd with
  | lowest => rfl
  | highest =>
    show (SortedMap.trimBack (·.pruned? isLive) book.levels.entries).reverse = _
    rw [SortedMap.trimBack_eq_reverse, List.reverse_reverse]
    rfl

/-- The price that pruning finds is that of the first level which is left. -/
theorem prune_fst_eq_head? (book : Book side) (priceEnd : PriceEnd) (isLive : QueueEntry → Bool) :
    (book.prune priceEnd isLive).1 =
      ((book.prune priceEnd isLive).2.levelsFrom priceEnd).head?.map (·.1) := by
  cases priceEnd with
  | lowest => rfl
  | highest =>
    show (book.levels.trimLast (·.pruned? isLive)).entries.getLast?.map _ =
      (book.levels.trimLast (·.pruned? isLive)).entries.reverse.head?.map _
    rw [List.head?_reverse]

/-! ## Books over time -/

theorem WellFormed.changed {book : Book side} (h : book.WellFormed) (change : Change) :
    (book.changed change).WellFormed := by
  cases change with
  | call call =>
    cases call with
    | insert price entry => exact h.insert price entry
    | pop price => exact h.pop price
  | prune priceEnd isLive => exact h.prune priceEnd isLive

/-- Whatever has become of a book, its levels are filed under their prices and have an entry. -/
theorem WellFormed.evolve {book : Book side} (h : book.WellFormed) (changes : List Change) :
    (book.evolve changes).WellFormed := by
  induction changes generalizing book with
  | nil => exact h
  | cons change rest ih => exact ih (h.changed change)

/-! ## The dead prefix -/

/-- A book without a live entry is left empty. Of any other one pruning finds the first level with a live
    entry, takes the levels before it and the entries in front of its first live one, and leaves the rest. -/
theorem WellFormed.prune_cases {book : Book side} (h : book.WellFormed) (priceEnd : PriceEnd)
    (isLive : QueueEntry → Bool) :
    ((∀ e ∈ book.levelsFrom priceEnd, ∀ entry ∈ e.2.queue, isLive entry = false) ∧
      book.prune priceEnd isLive = (none, {})) ∨
    ∃ before level after dead entry rest,
      book.levelsFrom priceEnd = before ++ (level.price, level) :: after ∧
      level.queue = dead ++ entry :: rest ∧
      (∀ e ∈ before, ∀ x ∈ e.2.queue, isLive x = false) ∧ (∀ x ∈ dead, isLive x = false) ∧
      isLive entry = true ∧ (book.prune priceEnd isLive).1 = some level.price ∧
      (book.prune priceEnd isLive).2.levelsFrom priceEnd =
        (level.price, { level with queue := entry :: rest }) :: after := by
  have hdead : ∀ level : Level, level.pruned? isLive = none → ∀ x ∈ level.queue, isLive x = false := by
    intro level hnone
    rcases level.pruned?_cases isLive with ⟨hall, -⟩ | ⟨dead, entry, rest, -, -, -, hsome⟩
    · exact hall
    · rw [hnone] at hsome
      cases hsome
  have hlevels := book.levelsFrom_prune priceEnd isLive
  have hprice := book.prune_fst_eq_head? priceEnd isLive
  rcases SortedMap.trimFront_cases (·.pruned? isLive) (book.levelsFrom priceEnd) with
    ⟨hnone, htrim⟩ | ⟨before, e, left, after, hsplit, hbefore, hleft, htrim⟩
  · rw [htrim] at hlevels
    rw [hlevels] at hprice
    have hempty : (book.prune priceEnd isLive).2 = {} :=
      eq_of_levelsFrom_eq priceEnd (hlevels.trans (by cases priceEnd <;> rfl))
    exact .inl ⟨fun e he => hdead e.2 (hnone e he), Prod.ext hprice hempty⟩
  · have hfiled : e.2.price = e.1 :=
      h.price_eq (mem_levelsFrom_iff.mp (hsplit ▸ List.mem_append_right before List.mem_cons_self))
    rcases e.2.pruned?_cases isLive with ⟨-, hgone⟩ | ⟨dead, entry, rest, hqueue, hfront, hlive, hsome⟩
    · rw [hgone] at hleft
      cases hleft
    · rw [hsome] at hleft
      cases hleft
      rw [htrim, ← hfiled] at hlevels
      rw [hlevels] at hprice
      refine .inr ⟨before, e.2, after, dead, entry, rest, ?_, hqueue, fun x hx => hdead x.2 (hbefore x hx),
        hfront, hlive, hprice, hlevels⟩
      rw [hsplit, hfiled]

/-- **Pruning removes exactly what is dead in front.** Let a book have been changed in any way, by queueing,
    taking and pruning, and let its levels be listed from one end. If no entry is live, pruning from that end
    finds no price and leaves the book empty. Otherwise it finds the price of the first level with a live
    entry: the levels before it go, it loses the dead entries in front of its first live one, and all other
    levels and entries stay as they are, in their order. Pruning again finds the same price and drops
    nothing. -/
theorem prune_exact (side : Side) (changes : List Change) (priceEnd : PriceEnd)
    (isLive : QueueEntry → Bool) :
    let book := ({} : Book side).evolve changes
    let pruned := book.prune priceEnd isLive
    (((∀ e ∈ book.levelsFrom priceEnd, ∀ entry ∈ e.2.queue, isLive entry = false) ∧
        pruned = (none, {})) ∨
      ∃ before level after dead entry rest,
        book.levelsFrom priceEnd = before ++ (level.price, level) :: after ∧
        level.queue = dead ++ entry :: rest ∧
        (∀ e ∈ before, ∀ x ∈ e.2.queue, isLive x = false) ∧ (∀ x ∈ dead, isLive x = false) ∧
        isLive entry = true ∧ pruned.1 = some level.price ∧
        pruned.2.levelsFrom priceEnd = (level.price, { level with queue := entry :: rest }) :: after) ∧
    pruned.2.prune priceEnd isLive = pruned := by
  intro book pruned
  have hformed : book.WellFormed := wellFormed_empty.evolve changes
  exact ⟨hformed.prune_cases priceEnd isLive, book.prune_prune priceEnd isLive⟩

end Book

end Bourse
