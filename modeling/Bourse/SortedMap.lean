/-!
# `Bourse.SortedMap` — finite maps listed by ascending key

A map is the list of its bindings in strictly ascending key order, so two maps with the same bindings
are equal and every walk over a map follows the order of its keys.

## Contents
- **Lists of bindings.** `lookup`, `insertEntry`, `trimFront` and `trimBack`, each with what it keeps of
  the order of the keys.
- **The type.** `SortedMap κ α`, with `get?`, `insert`, `erase`, `modify`, the two ends
  `first?` / `last?`, and `trimFirst` / `trimLast`, which drop bindings from one end.
- **The view.** `get?_insert`, `get?_erase` and `get?_modify` say what a look-up finds after each change,
  `weigh_erase` and `weigh_modify` what becomes of a sum over the values, `ext_get?` that look-ups
  determine the map.
-/

namespace Bourse

namespace SortedMap

variable {κ α : Type}

/-! ## Lists of bindings -/

/-- The value that a list of bindings gives to `k` first. -/
def lookup [DecidableEq κ] (k : κ) : List (κ × α) → Option α
  | [] => none
  | e :: rest => if e.1 = k then some e.2 else lookup k rest

/-- Binds `k` in an ascending list of bindings: in front of the first greater key, or in place of `k`
    itself. -/
def insertEntry [LT κ] [DecidableLT κ] (k : κ) (v : α) : List (κ × α) → List (κ × α)
  | [] => [(k, v)]
  | e :: rest =>
    if k < e.1 then (k, v) :: e :: rest
    else if e.1 < k then e :: insertEntry k v rest
    else (k, v) :: rest

/-- Drops bindings from the front as long as `f` gives nothing; the first for which it gives a value
    is kept with that value. -/
def trimFront (f : α → Option α) : List (κ × α) → List (κ × α)
  | [] => []
  | e :: rest =>
    match f e.2 with
    | none => trimFront f rest
    | some v => (e.1, v) :: rest

/-- Drops bindings from the back as long as `f` gives nothing; the last for which it gives a value is
    kept with that value. -/
def trimBack (f : α → Option α) : List (κ × α) → List (κ × α)
  | [] => []
  | e :: rest =>
    match trimBack f rest with
    | [] =>
      match f e.2 with
      | none => []
      | some v => [(e.1, v)]
    | kept :: more => e :: kept :: more

theorem mem_of_lookup [DecidableEq κ] {k : κ} {v : α} {l : List (κ × α)}
    (h : lookup k l = some v) : (k, v) ∈ l := by
  induction l with
  | nil => simp [lookup] at h
  | cons e rest ih => grind [lookup]

theorem lookup_filter_ne [DecidableEq κ] (k k' : κ) (l : List (κ × α)) :
    lookup k' (l.filter (fun e => e.1 ≠ k)) = if k' = k then none else lookup k' l := by
  induction l with
  | nil => simp [lookup]
  | cons e rest ih => grind [lookup]

theorem lookup_map_modify [DecidableEq κ] (k k' : κ) (f : α → α) (l : List (κ × α)) :
    lookup k' (l.map (fun e => if e.1 = k then (e.1, f e.2) else e)) =
      if k' = k then (lookup k' l).map f else lookup k' l := by
  induction l with
  | nil => simp [lookup]
  | cons e rest ih => grind [lookup]

theorem trimFront_keys_sublist (f : α → Option α) (l : List (κ × α)) :
    ((trimFront f l).map (·.1)).Sublist (l.map (·.1)) := by
  induction l with
  | nil => exact .refl _
  | cons e rest ih =>
    unfold trimFront
    split
    · exact ih.trans (List.sublist_cons_self _ _)
    · exact .refl _

theorem trimBack_keys_sublist (f : α → Option α) (l : List (κ × α)) :
    ((trimBack f l).map (·.1)).Sublist (l.map (·.1)) := by
  induction l with
  | nil => exact .refl _
  | cons e rest ih =>
    unfold trimBack
    split
    · split
      · exact List.nil_sublist _
      · exact (List.nil_sublist _).cons_cons _
    case h_2 kept more hk =>
      rw [hk] at ih
      exact ih.cons_cons _

/-! ## Ascending lists -/

section Ascending

variable [LT κ]

theorem ascending_of_keys_sublist {l l' : List (κ × α)} (h : l.Pairwise (·.1 < ·.1))
    (hs : (l'.map (·.1)).Sublist (l.map (·.1))) : l'.Pairwise (·.1 < ·.1) :=
  List.pairwise_map.mp ((List.pairwise_map.mpr h).sublist hs)

theorem mem_insertEntry [DecidableLT κ] {k : κ} {v : α} {l : List (κ × α)} {x : κ × α}
    (h : x ∈ insertEntry k v l) : x = (k, v) ∨ x ∈ l := by
  induction l with
  | nil => simpa [insertEntry] using h
  | cons e rest ih => grind [insertEntry]

variable [LE κ] [Std.LawfulOrderLT κ] [Std.IsLinearOrder κ]

theorem eq_of_not_lt {a b : κ} (h₁ : ¬a < b) (h₂ : ¬b < a) : a = b :=
  Std.le_antisymm (Std.not_lt.mp h₂) (Std.not_lt.mp h₁)

theorem insertEntry_ascending [DecidableLT κ] (k : κ) (v : α) {l : List (κ × α)}
    (h : l.Pairwise (·.1 < ·.1)) : (insertEntry k v l).Pairwise (·.1 < ·.1) := by
  induction l with
  | nil => exact List.pairwise_singleton _ _
  | cons e rest ih =>
    have hrest := List.pairwise_cons.mp h
    unfold insertEntry
    split
    case isTrue hlt =>
      refine List.pairwise_cons.mpr ⟨fun x hx => ?_, h⟩
      rcases List.mem_cons.mp hx with rfl | hx
      · exact hlt
      · exact Std.lt_trans hlt (hrest.1 x hx)
    case isFalse hge =>
      split
      case isTrue hlt =>
        refine List.pairwise_cons.mpr ⟨fun x hx => ?_, ih hrest.2⟩
        rcases mem_insertEntry hx with rfl | hx
        · exact hlt
        · exact hrest.1 x hx
      case isFalse hle =>
        have hk : k = e.1 := eq_of_not_lt hge hle
        exact List.pairwise_cons.mpr ⟨fun x hx => hk ▸ hrest.1 x hx, hrest.2⟩

theorem lookup_insertEntry [DecidableEq κ] [DecidableLT κ] (k k' : κ) (v : α) {l : List (κ × α)} :
    lookup k' (insertEntry k v l) = if k' = k then some v else lookup k' l := by
  induction l with
  | nil => grind [insertEntry, lookup]
  | cons e rest ih =>
    unfold insertEntry
    split
    case isTrue hlt => grind [lookup]
    case isFalse hge =>
      split
      case isTrue hlt =>
        have hne : e.1 ≠ k := fun he => Std.lt_irrefl (he ▸ hlt)
        grind [lookup]
      case isFalse hle =>
        have hk : k = e.1 := eq_of_not_lt hge hle
        grind [lookup]

omit [Std.IsLinearOrder κ] in
theorem lookup_of_mem [DecidableEq κ] {k : κ} {v : α} {l : List (κ × α)}
    (hl : l.Pairwise (·.1 < ·.1)) (h : (k, v) ∈ l) : lookup k l = some v := by
  induction l with
  | nil => simp at h
  | cons e rest ih =>
    have hrest := List.pairwise_cons.mp hl
    rcases List.mem_cons.mp h with rfl | h
    · simp [lookup]
    · have hne : e.1 ≠ k := fun he => Std.lt_irrefl (he ▸ hrest.1 _ h)
      simpa [lookup, hne] using ih hrest.2 h

end Ascending

end SortedMap

/-! ## The type -/

/-- A finite map as its bindings in strictly ascending key order. -/
structure SortedMap (κ : Type) (α : Type) [LT κ] where
  /-- The bindings, least key first. -/
  entries : List (κ × α)
  /-- No key occurs twice and the keys ascend. -/
  ascending : entries.Pairwise (·.1 < ·.1)
deriving DecidableEq

namespace SortedMap

variable {κ α : Type} [LT κ]

@[ext] theorem ext {m n : SortedMap κ α} (h : m.entries = n.entries) : m = n := by
  cases m
  cases n
  simpa using h

/-- The map without bindings. -/
def empty : SortedMap κ α := ⟨[], .nil⟩

instance : EmptyCollection (SortedMap κ α) := ⟨empty⟩

instance : Inhabited (SortedMap κ α) := ⟨empty⟩

/-- The number of bindings. -/
def size (m : SortedMap κ α) : Nat := m.entries.length

/-- Nothing is bound. -/
def isEmpty (m : SortedMap κ α) : Bool := m.entries.isEmpty

/-- The values, by ascending key. -/
def values (m : SortedMap κ α) : List α := m.entries.map (·.2)

/-- The binding of the least key. -/
def first? (m : SortedMap κ α) : Option (κ × α) := m.entries.head?

/-- The binding of the greatest key. -/
def last? (m : SortedMap κ α) : Option (κ × α) := m.entries.getLast?

/-- The value bound to `k`. -/
def get? [DecidableEq κ] (m : SortedMap κ α) (k : κ) : Option α := lookup k m.entries

/-- Some value is bound to `k`. -/
def contains [DecidableEq κ] (m : SortedMap κ α) (k : κ) : Bool := (m.get? k).isSome

/-- The map with `v` bound to `k`, in place of any value bound to it before. -/
def insert [DecidableLT κ] [LE κ] [Std.LawfulOrderLT κ] [Std.IsLinearOrder κ] (m : SortedMap κ α)
    (k : κ) (v : α) : SortedMap κ α :=
  ⟨insertEntry k v m.entries, insertEntry_ascending k v m.ascending⟩

/-- The map without the binding of `k`. -/
def erase [DecidableEq κ] (m : SortedMap κ α) (k : κ) : SortedMap κ α :=
  ⟨m.entries.filter (fun e => e.1 ≠ k), m.ascending.filter _⟩

/-- The map with the value bound to `k`, if there is one, replaced by its image under `f`. -/
def modify [DecidableEq κ] (m : SortedMap κ α) (k : κ) (f : α → α) : SortedMap κ α :=
  ⟨m.entries.map (fun e => if e.1 = k then (e.1, f e.2) else e), by
    refine List.pairwise_map.mpr (m.ascending.imp ?_)
    intro a b h
    split <;> split <;> exact h⟩

/-- Drops the bindings of the least keys as long as `f` gives nothing; the first for which it gives a
    value is kept with that value. -/
def trimFirst (m : SortedMap κ α) (f : α → Option α) : SortedMap κ α :=
  ⟨trimFront f m.entries, ascending_of_keys_sublist m.ascending (trimFront_keys_sublist f _)⟩

/-- Drops the bindings of the greatest keys as long as `f` gives nothing; the first for which it gives
    a value is kept with that value. -/
def trimLast (m : SortedMap κ α) (f : α → Option α) : SortedMap κ α :=
  ⟨trimBack f m.entries, ascending_of_keys_sublist m.ascending (trimBack_keys_sublist f _)⟩

/-! ## Look-ups and sums after a change -/

section Laws

variable [DecidableEq κ]

@[simp] theorem get?_empty (k : κ) : (empty : SortedMap κ α).get? k = none := rfl

theorem get?_erase (m : SortedMap κ α) (k k' : κ) :
    (m.erase k).get? k' = if k' = k then none else m.get? k' :=
  lookup_filter_ne k k' m.entries

theorem get?_modify (m : SortedMap κ α) (k k' : κ) (f : α → α) :
    (m.modify k f).get? k' = if k' = k then (m.get? k').map f else m.get? k' :=
  lookup_map_modify k k' f m.entries

variable [LE κ] [Std.LawfulOrderLT κ] [Std.IsLinearOrder κ]

omit [Std.IsLinearOrder κ] in
/-- A look-up finds exactly the bindings. -/
theorem get?_eq_some_iff {m : SortedMap κ α} {k : κ} {v : α} :
    m.get? k = some v ↔ (k, v) ∈ m.entries :=
  ⟨mem_of_lookup, lookup_of_mem m.ascending⟩

/-- After an insertion the key has the new value and every other key what it had. -/
theorem get?_insert [DecidableLT κ] (m : SortedMap κ α) (k k' : κ) (v : α) :
    (m.insert k v).get? k' = if k' = k then some v else m.get? k' :=
  lookup_insertEntry k k' v

/-- The sum of a weight over all values. -/
def weigh (m : SortedMap κ α) (weight : α → Nat) : Nat :=
  m.values.foldr (fun v total => weight v + total) 0

omit [Std.IsLinearOrder κ] in
/-- Erasing a binding takes its weight away. -/
theorem weigh_erase {m : SortedMap κ α} {k : κ} {v : α} (h : m.get? k = some v)
    (weight : α → Nat) : (m.erase k).weigh weight + weight v = m.weigh weight := by
  obtain ⟨l, hl⟩ := m
  simp only [weigh, values, erase, get?] at h ⊢
  induction l with
  | nil => simp [lookup] at h
  | cons e rest ih =>
    have hrest := List.pairwise_cons.mp hl
    by_cases he : e.1 = k
    · have hkeep : rest.filter (fun e => decide (e.1 ≠ k)) = rest :=
        List.filter_eq_self.mpr fun x hx => by
          have : x.1 ≠ k := fun hk => Std.lt_irrefl (a := k) (by simpa [he, hk] using hrest.1 x hx)
          simpa using this
      simp only [lookup, he, if_true, Option.some.injEq] at h
      rw [List.filter_cons_of_neg (by simp [he]), hkeep]
      simp only [List.map_cons, List.foldr_cons, h]
      omega
    · simp only [lookup, he, if_false] at h
      have := ih hrest.2 h
      rw [List.filter_cons_of_pos (by simp [he])]
      simp only [List.map_cons, List.foldr_cons]
      omega

omit [Std.IsLinearOrder κ] in
/-- Replacing a value trades its weight for that of the new one. -/
theorem weigh_modify {m : SortedMap κ α} {k : κ} {v : α} (h : m.get? k = some v)
    (weight : α → Nat) (f : α → α) :
    (m.modify k f).weigh weight + weight v = m.weigh weight + weight (f v) := by
  obtain ⟨l, hl⟩ := m
  simp only [weigh, values, modify, get?] at h ⊢
  induction l with
  | nil => simp [lookup] at h
  | cons e rest ih =>
    have hrest := List.pairwise_cons.mp hl
    by_cases he : e.1 = k
    · have hkeep : rest.map (fun e => if e.1 = k then (e.1, f e.2) else e) = rest := by
        refine (List.map_congr_left fun x hx => ?_).trans (List.map_id rest)
        have : x.1 ≠ k := fun hk => Std.lt_irrefl (a := k) (by simpa [he, hk] using hrest.1 x hx)
        simp [this]
      simp only [lookup, he, if_true, Option.some.injEq] at h
      simp only [List.map_cons, he, if_true, hkeep, List.foldr_cons, h]
      omega
    · simp only [lookup, he, if_false] at h
      have := ih hrest.2 h
      simp only [List.map_cons, he, if_false, List.foldr_cons]
      omega

omit [DecidableEq κ] [Std.IsLinearOrder κ] in
/-- Keys that ascend do not repeat. -/
theorem nodup_keys (m : SortedMap κ α) : (m.entries.map (·.1)).Nodup :=
  List.pairwise_map.mpr (List.Pairwise.imp (fun {a b} (hlt : a.1 < b.1) (he : a.1 = b.1) =>
    Std.lt_irrefl (a := b.1) (by rwa [he] at hlt)) m.ascending)

omit [DecidableEq κ] [Std.IsLinearOrder κ] in
theorem nodup_entries (m : SortedMap κ α) : m.entries.Nodup :=
  (List.pairwise_map.mp (nodup_keys m)).imp fun hne he => hne (congrArg (·.1) he)

/-- Maps that agree on every look-up are equal. -/
theorem ext_get? {m n : SortedMap κ α} (h : ∀ k, m.get? k = n.get? k) : m = n := by
  have hmem : ∀ e, e ∈ m.entries ↔ e ∈ n.entries := fun e => by
    rw [show e = (e.1, e.2) from rfl, ← get?_eq_some_iff, ← get?_eq_some_iff, h]
  -- the same bindings in the one order that is ascending
  exact ext (((List.perm_ext_iff_of_nodup (nodup_entries m) (nodup_entries n)).mpr hmem).eq_of_pairwise
    (fun _ _ _ _ hab hba => absurd (Std.lt_trans hab hba) Std.lt_irrefl) m.ascending n.ascending)

end Laws

end SortedMap

end Bourse
