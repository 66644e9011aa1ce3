import Bourse.Wire.Grammar

/-!
# `Bourse.Proofs.Fields` — the parts of a message are read as they may stand

What is read as a part of a message, against the values that stand for it, and which values the fields of a
message have in an object or in an array.
-/

namespace Bourse

open Json

/-! ## Parts -/

namespace WireValue

theorem ofJson?_string {v : Json} {s : String} : ofJson? v = some s ↔ v = .string s := by
  cases v <;> simp [ofJson?]

theorem ofJson?_nat {v : Json} {n : Nat} : ofJson? v = some n ↔ IsUnsigned n v := by
  cases v with
  | int i =>
    simp only [ofJson?]
    constructor
    · intro h
      obtain ⟨⟨hnonneg, hword⟩, heq⟩ := Option.ite_none_right_eq_some.mp h
      obtain rfl := Option.some.inj heq
      exact ⟨congrArg Json.int (Int.toNat_of_nonneg hnonneg).symm, hword⟩
    · rintro ⟨heq, hword⟩
      obtain rfl := Json.int.inj heq
      simp [hword]
  | _ => simp [ofJson?, IsUnsigned]

theorem ofJson?_int {v : Json} {i : Int} : ofJson? v = some i ↔ IsSigned i v := by
  cases v with
  | int j =>
    simp only [ofJson?]
    constructor
    · intro h
      obtain ⟨hword, heq⟩ := Option.ite_none_right_eq_some.mp h
      obtain rfl := Option.some.inj heq
      exact ⟨rfl, hword⟩
    · rintro ⟨heq, hword⟩
      obtain rfl := Json.int.inj heq
      simp [hword]
  | _ => simp [ofJson?, IsSigned]

theorem choice?_eq_some_iff {v : Json} {name : String} : choice? v = some name ↔ IsChoice name v := by
  constructor
  · intro h
    unfold choice? at h
    split at h
    case h_1 =>
      cases h
      exact .inl rfl
    case h_2 =>
      cases h
      exact .inr (.inl rfl)
    case h_3 =>
      cases h
      exact .inr (.inr rfl)
    case h_4 => cases h
  · rintro (rfl | rfl | rfl) <;> rfl

/-- A choice is read from its name alone. -/
theorem bind_choice?_eq_some_iff {α : Type} {read : String → Option α} {nameOf : α → String}
    (hread : ∀ name a, read name = some a ↔ name = nameOf a) {v : Json} {a : α} :
    (choice? v).bind read = some a ↔ IsChoice (nameOf a) v := by
  simp only [Option.bind_eq_some_iff, hread, exists_eq_right, choice?_eq_some_iff]

theorem side?_eq_some_iff (name : String) (side : Side) : side? name = some side ↔ name = side.wireName := by
  constructor
  · intro h
    unfold side? at h
    split at h <;> cases h <;> rfl
  · rintro rfl
    cases side <;> rfl

theorem currency?_eq_some_iff (name : String) (currency : Currency) :
    currency? name = some currency ↔ name = currency.wireName := by
  constructor
  · intro h
    unfold currency? at h
    split at h <;> cases h <;> rfl
  · rintro rfl
    cases currency <;> rfl

theorem ofJson?_side {v : Json} {side : Side} : ofJson? v = some side ↔ IsChoice side.wireName v :=
  bind_choice?_eq_some_iff side?_eq_some_iff

theorem ofJson?_currency {v : Json} {currency : Currency} :
    ofJson? v = some currency ↔ IsChoice currency.wireName v :=
  bind_choice?_eq_some_iff currency?_eq_some_iff

end WireValue

/-! ## Fields -/

theorem mapM_eq_some_iff {α β : Type} {f : α → Option β} {as : List α} {bs : List β} :
    as.mapM f = some bs ↔ List.Forall₂ (fun a b => f a = some b) as bs := by
  induction as generalizing bs with
  | nil => cases bs <;> simp
  | cons a rest ih =>
    cases bs with
    | nil => simp [List.mapM_cons, Option.bind_eq_some_iff]
    | cons b more => simp [List.mapM_cons, ← ih, Option.bind_eq_some_iff]

namespace Body

/-- A field that may not be missing has a value exactly if its name occurs once. -/
theorem field?_eq_some_iff {ms : List (String × Json)} {name : String} {v : Json} :
    field? ms { name } = some v ↔ ms.filter (·.1 = name) = [(name, v)] := by
  unfold field?
  split
  case h_1 hnil => simp [hnil]
  case h_2 m hone =>
    have hname : m.1 = name := by
      have hm : m ∈ ms.filter (·.1 = name) := by simp [hone]
      simpa using (List.mem_filter.mp hm).2
    -- the one member that is found has the name
    rw [hone]
    constructor
    · intro h
      cases h
      rw [← hname]
    · intro h
      obtain rfl := (List.cons.inj h).1
      rfl
  case h_3 hnil hmany =>
    constructor
    · nofun
    · intro h
      exact absurd h (hmany (name, v))

/-- The values that fields have among members: the name of each occurs once. -/
theorem fields?_members {ms : List (String × Json)} {fields : List (String × (Json → Prop))}
    {values : List Json} :
    fields? (.members ms) (fields.map fun field => { name := field.1 }) = some values ↔
      List.Forall₂ (fun field v => ms.filter (·.1 = field.1) = [(field.1, v)]) fields values := by
  simp only [fields?, mapM_eq_some_iff, List.forall₂_map_left_iff, field?_eq_some_iff]

/-- The values that fields have as items: there are as many. -/
theorem fields?_items {found : List Json} {fields : List WireField} {values : List Json} :
    fields? (.items found) fields = some values ↔ values.length = fields.length ∧ found = values := by
  constructor
  · intro h
    obtain ⟨hlength, heq⟩ := Option.ite_none_right_eq_some.mp h
    obtain rfl := Option.some.inj heq
    exact ⟨hlength, rfl⟩
  · rintro ⟨hlength, rfl⟩
    simp [fields?, hlength]

/-- Members carry fields exactly if the name of each occurs once and its value is as the field says. -/
theorem exists_fields?_members {ms : List (String × Json)} {fields : List (String × (Json → Prop))} :
    (∃ values, fields? (.members ms) (fields.map fun field => { name := field.1 }) = some values ∧
      List.Forall₂ (fun field v => field.2 v) fields values) ↔
      ∀ field ∈ fields, OccursOnce ms field.1 field.2 := by
  simp only [fields?_members]
  induction fields with
  | nil => simp
  | cons field rest ih =>
    simp only [List.forall_mem_cons, ← ih, List.forall₂_cons_left_iff]
    constructor
    · rintro ⟨_, ⟨v, values, hv, hvalues, rfl⟩, ⟨_, _, hpart, hparts, heq⟩⟩
      obtain ⟨rfl, rfl⟩ := List.cons.inj heq
      exact ⟨⟨v, hv, hpart⟩, values, hvalues, hparts⟩
    · rintro ⟨⟨v, hv, hpart⟩, values, hvalues, hparts⟩
      exact ⟨v :: values, ⟨v, values, hv, hvalues, rfl⟩, v, values, hpart, hparts, rfl⟩

/-- Items carry fields exactly if each is as the field in its place says. -/
theorem exists_fields?_items {items : List Json} {fields : List (String × (Json → Prop))} :
    (∃ values, fields? (.items items) (fields.map fun field => { name := field.1 }) = some values ∧
      List.Forall₂ (fun field v => field.2 v) fields values) ↔
      List.Forall₂ (fun field v => field.2 v) fields items := by
  simp only [fields?_items]
  constructor
  · rintro ⟨values, ⟨-, rfl⟩, hparts⟩
    exact hparts
  · intro hparts
    exact ⟨items, ⟨by simp [hparts.length_eq], rfl⟩, hparts⟩

/-- The tag of a message is a member that occurs once, or the first item. -/
theorem tagged?_eq_some_iff {v : Json} {tag : String} {body : Body} :
    tagged? v = some (tag, body) ↔
      (∃ ms, v = .object ms ∧ ms.filter (·.1 = "TYPE") = [("TYPE", .string tag)] ∧ body = .members ms) ∨
        ∃ items, v = .array (.string tag :: items) ∧ body = .items items := by
  constructor
  · intro h
    unfold tagged? at h
    split at h
    case h_1 ms =>
      split at h
      case h_1 htag =>
        cases h
        exact .inl ⟨ms, rfl, field?_eq_some_iff.mp htag, rfl⟩
      case h_2 => cases h
    case h_2 items =>
      cases h
      exact .inr ⟨items, rfl, rfl⟩
    case h_3 => cases h
  · rintro (⟨ms, rfl, htag, rfl⟩ | ⟨items, rfl, rfl⟩)
    · simp only [tagged?, field?_eq_some_iff.mpr htag]
    · rfl

end Body

/-! ## Messages -/

section

variable {α β γ δ ε : Type} [WireValue α] [WireValue β] [WireValue γ] [WireValue δ]
  {found : Option (List Json)} {message : ε}

theorem one_field {f : α → ε} :
    (do
      let [a] ← found | none
      return f (← WireValue.ofJson? a)) = some message ↔
      ∃ a x, found = some [a] ∧ WireValue.ofJson? a = some x ∧ f x = message := by
  constructor
  · intro h
    obtain ⟨values, hfound, hread⟩ := Option.bind_eq_some_iff.mp h
    split at hread
    case h_1 a =>
      obtain ⟨x, hx, heq⟩ := Option.bind_eq_some_iff.mp hread
      exact ⟨a, x, hfound, hx, Option.some.inj heq⟩
    case h_2 => cases hread
  · rintro ⟨a, x, rfl, hx, rfl⟩
    simp [hx]

theorem two_fields {f : α → β → ε} :
    (do
      let [a, b] ← found | none
      return f (← WireValue.ofJson? a) (← WireValue.ofJson? b)) = some message ↔
      ∃ a b x y, found = some [a, b] ∧ WireValue.ofJson? a = some x ∧ WireValue.ofJson? b = some y ∧
        f x y = message := by
  constructor
  · intro h
    obtain ⟨values, hfound, hread⟩ := Option.bind_eq_some_iff.mp h
    split at hread
    case h_1 a b =>
      obtain ⟨x, hx, hread⟩ := Option.bind_eq_some_iff.mp hread
      obtain ⟨y, hy, heq⟩ := Option.bind_eq_some_iff.mp hread
      exact ⟨a, b, x, y, hfound, hx, hy, Option.some.inj heq⟩
    case h_2 => cases hread
  · rintro ⟨a, b, x, y, rfl, hx, hy, rfl⟩
    simp [hx, hy]

theorem three_fields {f : α → β → γ → ε} :
    (do
      let [a, b, c] ← found | none
      return f (← WireValue.ofJson? a) (← WireValue.ofJson? b) (← WireValue.ofJson? c)) = some message ↔
      ∃ a b c x y z, found = some [a, b, c] ∧ WireValue.ofJson? a = some x ∧
        WireValue.ofJson? b = some y ∧ WireValue.ofJson? c = some z ∧ f x y z = message := by
  constructor
  · intro h
    obtain ⟨values, hfound, hread⟩ := Option.bind_eq_some_iff.mp h
    split at hread
    case h_1 a b c =>
      obtain ⟨x, hx, hread⟩ := Option.bind_eq_some_iff.mp hread
      obtain ⟨y, hy, hread⟩ := Option.bind_eq_some_iff.mp hread
      obtain ⟨z, hz, heq⟩ := Option.bind_eq_some_iff.mp hread
      exact ⟨a, b, c, x, y, z, hfound, hx, hy, hz, Option.some.inj heq⟩
    case h_2 => cases hread
  · rintro ⟨a, b, c, x, y, z, rfl, hx, hy, hz, rfl⟩
    simp [hx, hy, hz]

theorem four_fields {f : α → β → γ → δ → ε} :
    (do
      let [a, b, c, d] ← found | none
      return f (← WireValue.ofJson? a) (← WireValue.ofJson? b) (← WireValue.ofJson? c)
        (← WireValue.ofJson? d)) = some message ↔
      ∃ a b c d x y z w, found = some [a, b, c, d] ∧ WireValue.ofJson? a = some x ∧
        WireValue.ofJson? b = some y ∧ WireValue.ofJson? c = some z ∧ WireValue.ofJson? d = some w ∧
        f x y z w = message := by
  constructor
  · intro h
    obtain ⟨values, hfound, hread⟩ := Option.bind_eq_some_iff.mp h
    split at hread
    case h_1 a b c d =>
      obtain ⟨x, hx, hread⟩ := Option.bind_eq_some_iff.mp hread
      obtain ⟨y, hy, hread⟩ := Option.bind_eq_some_iff.mp hread
      obtain ⟨z, hz, hread⟩ := Option.bind_eq_some_iff.mp hread
      obtain ⟨w, hw, heq⟩ := Option.bind_eq_some_iff.mp hread
      exact ⟨a, b, c, d, x, y, z, w, hfound, hx, hy, hz, hw, Option.some.inj heq⟩
    case h_2 => cases hread
  · rintro ⟨a, b, c, d, x, y, z, w, rfl, hx, hy, hz, hw, rfl⟩
    simp [hx, hy, hz, hw]

end

end Bourse
