import Bourse.SortedMap

/-!
# `Bourse.Proofs.Bindings` — a map as a collection of bindings

What a change of a map does to the *collection* of its bindings, and so to sums over its values.

* `entries_insert` is the one fact about the list of bindings: an insertion puts one binding in front of
  those of the other keys, up to order. `modify_eq_insert`, `insert_eq_self` and `erase_eq_self` bring
  every other change back to it.
* `total` is an integer sum over the values. `total_insert` says what a new binding adds to it,
  `total_insert_of_get?` what a changed one does.
* `mapWithKey` changes all values at once, each in the light of its key.
* `get?_trimFirst` and `get?_trimLast`: trimming an end leaves each binding alone or trims it.
-/

namespace Bourse.SortedMap

variable {κ α : Type} [LT κ]

/-- The integer sum of a weight over all values. -/
def total (m : SortedMap κ α) (weight : α → Int) : Int :=
  m.values.foldr (fun v sum => weight v + sum) 0

/-- The map with every value replaced by what `f` makes of it and its key. -/
def mapWithKey {β : Type} (m : SortedMap κ α) (f : κ → α → β) : SortedMap κ β :=
  ⟨m.entries.map fun e => (e.1, f e.1 e.2), List.pairwise_map.mpr m.ascending⟩

variable [DecidableEq κ]

omit [LT κ] in
theorem lookup_map_withKey {β : Type} (f : κ → α → β) (k : κ) (l : List (κ × α)) :
    lookup k (l.map fun e => (e.1, f e.1 e.2)) = (lookup k l).map (f k) := by
  induction l with
  | nil => rfl
  | cons e rest ih =>
    by_cases he : e.1 = k
    · simp [lookup, he]
    · simp [lookup, he, ih]

@[simp] theorem get?_mapWithKey {β : Type} (m : SortedMap κ α) (f : κ → α → β) (k : κ) :
    (m.mapWithKey f).get? k = (m.get? k).map (f k) :=
  lookup_map_withKey f k m.entries

/-- A change that keeps a part of the values keeps it under every key. -/
theorem map_get?_modify {β : Type} (m : SortedMap κ α) {f : α → α} {part : α → β}
    (h : ∀ v, part (f v) = part v) (k k' : κ) :
    ((m.modify k f).get? k').map part = (m.get? k').map part := by
  rw [get?_modify]
  split
  · rw [Option.map_map]
    exact congrArg (Option.map · (m.get? k')) (funext h)
  · rfl

variable [LE κ] [Std.LawfulOrderLT κ] [Std.IsLinearOrder κ]

omit [Std.IsLinearOrder κ] in
theorem mem_values_iff {m : SortedMap κ α} {v : α} : v ∈ m.values ↔ ∃ k, m.get? k = some v := by
  constructor
  · intro h
    obtain ⟨e, he, rfl⟩ := List.mem_map.mp h
    exact ⟨e.1, get?_eq_some_iff.mpr he⟩
  · rintro ⟨k, h⟩
    exact List.mem_map.mpr ⟨(k, v), get?_eq_some_iff.mp h, rfl⟩

omit [Std.IsLinearOrder κ] in
/-- Values that carry their own keys are listed by these. -/
theorem pairwise_values {m : SortedMap κ α} {key : α → κ}
    (h : ∀ {k v}, m.get? k = some v → key v = k) : m.values.Pairwise fun v w => key v < key w := by
  have hkey : ∀ {e : κ × α}, e ∈ m.entries → key e.2 = e.1 := fun he => h (get?_eq_some_iff.mpr he)
  refine List.pairwise_map.mpr (m.ascending.imp_of_mem fun hd he hlt => ?_)
  rw [hkey hd, hkey he]
  exact hlt

/-! ## Trimming an end -/

section Trimming

variable {κ α : Type} [DecidableEq κ]

theorem lookup_eq_none_of_not_mem {k : κ} {l : List (κ × α)} (h : k ∉ l.map (·.1)) :
    lookup k l = none := by
  cases hl : lookup k l with
  | none => rfl
  | some v => exact absurd (List.mem_map_of_mem (mem_of_lookup hl)) h

/-- Trimming the front of a list without repeated keys leaves each binding alone, or makes of its value
    what `f` does. -/
theorem lookup_trimFront (f : α → Option α) (k : κ) {l : List (κ × α)}
    (h : (l.map (·.1)).Nodup) :
    lookup k (trimFront f l) = lookup k l ∨ lookup k (trimFront f l) = (lookup k l).bind f := by
  induction l with
  | nil => exact .inl rfl
  | cons e rest ih =>
    have hcons := List.nodup_cons.mp h
    unfold trimFront
    split
    case h_1 hf =>
      by_cases hk : e.1 = k
      · -- the binding is dropped, and nothing behind it has its key
        have hgone : k ∉ (trimFront f rest).map (·.1) := fun hmem =>
          hcons.1 (by simpa [hk] using (trimFront_keys_sublist f rest).subset hmem)
        rw [lookup_eq_none_of_not_mem hgone]
        simp [lookup, hk, hf]
      · simpa [lookup, hk] using ih hcons.2
    case h_2 v hf =>
      by_cases hk : e.1 = k
      · simp [lookup, hk, hf]
      · simp [lookup, hk]

/-- The same for the back. -/
theorem lookup_trimBack (f : α → Option α) (k : κ) {l : List (κ × α)}
    (h : (l.map (·.1)).Nodup) :
    lookup k (trimBack f l) = lookup k l ∨ lookup k (trimBack f l) = (lookup k l).bind f := by
  induction l with
  | nil => exact .inl rfl
  | cons e rest ih =>
    have hcons := List.nodup_cons.mp h
    have hrest := ih hcons.2
    unfold trimBack
    split
    case h_1 hb =>
      rw [hb] at hrest
      by_cases hk : e.1 = k
      · split <;> simp_all [lookup]
      · split <;> simpa [lookup, hk] using hrest
    case h_2 kept more hb =>
      rw [hb] at hrest
      by_cases hk : e.1 = k
      · simp [lookup, hk]
      · simpa [lookup, hk] using hrest

omit [DecidableEq κ] in
/-- Trimming the front drops what has no value and gives the first binding that has one its value, if there
    is such a binding at all. -/
theorem trimFront_cases (f : α → Option α) (l : List (κ × α)) :
    ((∀ e ∈ l, f e.2 = none) ∧ trimFront f l = []) ∨
      ∃ before e v after, l = before ++ e :: after ∧ (∀ x ∈ before, f x.2 = none) ∧ f e.2 = some v ∧
        trimFront f l = (e.1, v) :: after := by
  induction l with
  | nil => exact .inl ⟨nofun, rfl⟩
  | cons first rest ih =>
    unfold trimFront
    cases hfirst : f first.2 with
    | some v => exact .inr ⟨[], first, v, rest, rfl, nofun, hfirst, rfl⟩
    | none =>
      rcases ih with ⟨hnone, htrim⟩ | ⟨before, e, v, after, hsplit, hbefore, hv, htrim⟩
      · exact .inl ⟨List.forall_mem_cons.mpr ⟨hfirst, hnone⟩, htrim⟩
      · exact .inr ⟨first :: before, e, v, after, by rw [hsplit, List.cons_append],
          List.forall_mem_cons.mpr ⟨hfirst, hbefore⟩, hv, htrim⟩

omit [DecidableEq κ] in
/-- Where the front is trimmed to nothing, trimming goes on behind it. -/
theorem trimFront_append_of_eq_nil {f : α → Option α} {l : List (κ × α)} (h : trimFront f l = [])
    (m : List (κ × α)) : trimFront f (l ++ m) = trimFront f m := by
  induction l with
  | nil => rfl
  | cons e rest ih =>
    rw [List.cons_append, trimFront]
    rw [trimFront] at h
    cases he : f e.2 with
    | none =>
      rw [he] at h
      exact ih h
    | some v =>
      rw [he] at h
      cases h

omit [DecidableEq κ] in
/-- Where it is not, what is behind it stays. -/
theorem trimFront_append_of_ne_nil {f : α → Option α} {l : List (κ × α)} (h : trimFront f l ≠ [])
    (m : List (κ × α)) : trimFront f (l ++ m) = trimFront f l ++ m := by
  induction l with
  | nil => exact absurd rfl h
  | cons e rest ih =>
    rw [List.cons_append, trimFront, trimFront]
    rw [trimFront] at h
    cases he : f e.2 with
    | none =>
      rw [he] at h
      exact ih h
    | some v => rfl

omit [DecidableEq κ] in
/-- **Trimming the back is trimming the front of the reversed list.** -/
theorem trimBack_eq_reverse (f : α → Option α) (l : List (κ × α)) :
    trimBack f l = (trimFront f l.reverse).reverse := by
  induction l with
  | nil => rfl
  | cons e rest ih =>
    rw [trimBack, ih, List.reverse_cons]
    by_cases hrest : trimFront f rest.reverse = []
    · rw [hrest, trimFront_append_of_eq_nil hrest, trimFront]
      cases f e.2 <;> rfl
    · rw [trimFront_append_of_ne_nil hrest, List.reverse_append]
      cases hkept : (trimFront f rest.reverse).reverse with
      | nil => exact absurd (List.reverse_eq_nil_iff.mp hkept) hrest
      | cons kept more => rfl

omit [DecidableEq κ] in
/-- What the front is trimmed to comes of the first binding for which there is a value. -/
theorem mem_of_head?_trimFront {f : α → Option α} {l : List (κ × α)} {e : κ × α}
    (h : (trimFront f l).head? = some e) : ∃ v, (e.1, v) ∈ l ∧ f v = some e.2 := by
  induction l with
  | nil => cases h
  | cons first rest ih =>
    unfold trimFront at h
    split at h
    · obtain ⟨v, hmem, hv⟩ := ih h
      exact ⟨v, List.mem_cons_of_mem _ hmem, hv⟩
    case h_2 v hf =>
      cases h
      exact ⟨first.2, List.mem_cons_self, hf⟩

omit [DecidableEq κ] in
/-- The same for the back. -/
theorem mem_of_getLast?_trimBack {f : α → Option α} {l : List (κ × α)} {e : κ × α}
    (h : (trimBack f l).getLast? = some e) : ∃ v, (e.1, v) ∈ l ∧ f v = some e.2 := by
  rw [trimBack_eq_reverse, List.getLast?_reverse] at h
  obtain ⟨v, hmem, hv⟩ := mem_of_head?_trimFront h
  exact ⟨v, List.mem_reverse.mp hmem, hv⟩

omit [DecidableEq κ] in
/-- The front is trimmed to the first key whose value is kept. -/
theorem key_head?_trimFront (f : α → Option α) (l : List (κ × α)) :
    (trimFront f l).head?.map (·.1) = (l.filter fun e => (f e.2).isSome).head?.map (·.1) := by
  induction l with
  | nil => rfl
  | cons e rest ih =>
    unfold trimFront
    split
    case h_1 hf => rw [ih, List.filter_cons_of_neg (by simp [hf])]
    case h_2 v hf =>
      rw [List.filter_cons_of_pos (by simp [hf])]
      rfl

omit [DecidableEq κ] in
/-- The back is trimmed to the last one. -/
theorem key_getLast?_trimBack (f : α → Option α) (l : List (κ × α)) :
    (trimBack f l).getLast?.map (·.1) = (l.filter fun e => (f e.2).isSome).getLast?.map (·.1) := by
  rw [trimBack_eq_reverse, List.getLast?_reverse, key_head?_trimFront, List.filter_reverse,
    List.head?_reverse]

end Trimming

omit [Std.IsLinearOrder κ] in
theorem get?_of_first?_trimFirst {m : SortedMap κ α} {f : α → Option α} {e : κ × α}
    (h : (m.trimFirst f).first? = some e) : ∃ v, m.get? e.1 = some v ∧ f v = some e.2 := by
  obtain ⟨v, hmem, hv⟩ := mem_of_head?_trimFront h
  exact ⟨v, get?_eq_some_iff.mpr hmem, hv⟩

omit [Std.IsLinearOrder κ] in
theorem get?_of_last?_trimLast {m : SortedMap κ α} {f : α → Option α} {e : κ × α}
    (h : (m.trimLast f).last? = some e) : ∃ v, m.get? e.1 = some v ∧ f v = some e.2 := by
  obtain ⟨v, hmem, hv⟩ := mem_of_getLast?_trimBack h
  exact ⟨v, get?_eq_some_iff.mpr hmem, hv⟩

omit [Std.IsLinearOrder κ] in
theorem get?_trimFirst (m : SortedMap κ α) (f : α → Option α) (k : κ) :
    (m.trimFirst f).get? k = m.get? k ∨ (m.trimFirst f).get? k = (m.get? k).bind f :=
  lookup_trimFront f k (nodup_keys m)

omit [Std.IsLinearOrder κ] in
theorem get?_trimLast (m : SortedMap κ α) (f : α → Option α) (k : κ) :
    (m.trimLast f).get? k = m.get? k ∨ (m.trimLast f).get? k = (m.get? k).bind f :=
  lookup_trimBack f k (nodup_keys m)

/-! ## One binding among the others -/

theorem modify_eq_insert [DecidableLT κ] {m : SortedMap κ α} {k : κ} {v : α} (h : m.get? k = some v)
    (f : α → α) : m.modify k f = m.insert k (f v) := by
  refine ext_get? fun k' => ?_
  rw [get?_modify, get?_insert]
  by_cases hk : k' = k
  · rw [if_pos hk, if_pos hk, hk, h]
    rfl
  · rw [if_neg hk, if_neg hk]

theorem insert_eq_self [DecidableLT κ] {m : SortedMap κ α} {k : κ} {v : α} (h : m.get? k = some v) :
    m.insert k v = m := by
  refine ext_get? fun k' => ?_
  rw [get?_insert]
  by_cases hk : k' = k
  · rw [if_pos hk, hk, h]
  · rw [if_neg hk]

theorem erase_eq_self {m : SortedMap κ α} {k : κ} (h : m.get? k = none) : m.erase k = m := by
  refine ext_get? fun k' => ?_
  rw [get?_erase]
  by_cases hk : k' = k
  · rw [if_pos hk, hk, h]
  · rw [if_neg hk]

/-- Taking out a binding that is new undoes its insertion. -/
theorem erase_insert_of_new [DecidableLT κ] {m : SortedMap κ α} {k : κ} (h : m.get? k = none) (v : α) :
    (m.insert k v).erase k = m := by
  refine ext_get? fun k' => ?_
  rw [get?_erase, get?_insert]
  by_cases hk : k' = k
  · rw [if_pos hk, hk, h]
  · rw [if_neg hk, if_neg hk]

/-- Up to order, an insertion puts the new binding in front of those of all other keys. -/
theorem entries_insert [DecidableLT κ] (m : SortedMap κ α) (k : κ) (v : α) :
    (m.insert k v).entries.Perm ((k, v) :: (m.erase k).entries) := by
  have hfresh : (k, v) ∉ (m.erase k).entries := fun h => by
    rw [← get?_eq_some_iff, get?_erase, if_pos rfl] at h
    cases h
  refine (List.perm_ext_iff_of_nodup (nodup_entries _)
    (List.nodup_cons.mpr ⟨hfresh, nodup_entries _⟩)).mpr fun e => ?_
  rw [List.mem_cons, show e = (e.1, e.2) from rfl, ← get?_eq_some_iff, ← get?_eq_some_iff,
    get?_insert, get?_erase]
  by_cases hk : e.1 = k
  · rw [if_pos hk, if_pos hk, Prod.mk.injEq, Option.some.injEq]
    exact ⟨fun he => .inl ⟨hk, he.symm⟩, fun h => h.elim (·.2.symm) nofun⟩
  · rw [if_neg hk, if_neg hk, Prod.mk.injEq]
    exact ⟨.inr, fun h => h.elim (fun he => absurd he.1 hk) id⟩

omit [DecidableEq κ] in
/-- A key above all others is bound at the end. -/
theorem entries_insert_of_lt [DecidableLT κ] {m : SortedMap κ α} {k : κ}
    (h : ∀ e ∈ m.entries, e.1 < k) (v : α) : (m.insert k v).entries = m.entries ++ [(k, v)] := by
  unfold insert
  dsimp only
  generalize m.entries = l at h
  induction l with
  | nil => rfl
  | cons e rest ih =>
    have hlt : e.1 < k := h e List.mem_cons_self
    rw [insertEntry, if_neg fun hgt => Std.lt_irrefl (Std.lt_trans hlt hgt), if_pos hlt,
      ih fun x hx => h x (List.mem_cons_of_mem _ hx)]
    rfl

/-! ## Sums over the values -/

theorem values_insert [DecidableLT κ] (m : SortedMap κ α) (k : κ) (v : α) :
    (m.insert k v).values.Perm (v :: (m.erase k).values) :=
  (entries_insert m k v).map _

theorem total_insert [DecidableLT κ] (m : SortedMap κ α) (k : κ) (v : α) (weight : α → Int) :
    (m.insert k v).total weight = weight v + (m.erase k).total weight :=
  (values_insert m k v).foldr_eq'
    (fun x _ y _ z => Int.add_left_comm (weight y) (weight x) z) 0

theorem total_of_get? [DecidableLT κ] {m : SortedMap κ α} {k : κ} {v : α} (h : m.get? k = some v)
    (weight : α → Int) : m.total weight = weight v + (m.erase k).total weight := by
  rw [← total_insert m k v weight, insert_eq_self h]

/-- Binding a key anew changes the sum by what the new value weighs more than the old one. -/
theorem total_insert_of_get? [DecidableLT κ] {m : SortedMap κ α} {k : κ} {v : α}
    (h : m.get? k = some v) (v' : α) (weight : α → Int) :
    (m.insert k v').total weight = m.total weight + (weight v' - weight v) := by
  rw [total_insert, total_of_get? h]
  omega

omit [LE κ] [Std.LawfulOrderLT κ] [Std.IsLinearOrder κ] [DecidableEq κ] in
theorem total_mapWithKey {β : Type} (m : SortedMap κ α) (f : κ → α → β) (weight : β → Int) :
    (m.mapWithKey f).total weight =
      m.entries.foldr (fun e sum => weight (f e.1 e.2) + sum) 0 := by
  unfold total values mapWithKey
  rw [List.map_map, List.foldr_map]
  rfl

/-- Maps whose values weigh the same under every key have the same sum. -/
theorem total_congr {β : Type} {m : SortedMap κ α} {n : SortedMap κ β} {weight : α → Int}
    {weight' : β → Int} (h : ∀ k, (m.get? k).map weight = (n.get? k).map weight') :
    m.total weight = n.total weight' := by
  have hweights : (m.mapWithKey fun _ => weight) = n.mapWithKey fun _ => weight' :=
    ext_get? fun k => by rw [get?_mapWithKey, get?_mapWithKey, h k]
  have htotal : (m.mapWithKey fun _ => weight).total id = (n.mapWithKey fun _ => weight').total id := by
    rw [hweights]
  rw [total_mapWithKey, total_mapWithKey] at htotal
  unfold total values
  rw [List.foldr_map, List.foldr_map]
  exact htotal

end Bourse.SortedMap
