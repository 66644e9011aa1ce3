import Bourse.Json.Grammar

/-!
# `Bourse.Proofs.Spelling` — strings are read as they may be written

The reader of strings against their grammar, in both directions: what is written in front is read and the
rest is left, and what was read had been written there.
-/

namespace Bourse.Json.Quoted

/-! ## Reading -/

theorem code?_append {digits : List Char} {n : Nat} (h : Code digits n) (rest : List Char) :
    code? (digits ++ rest) = some (n, rest) := by
  obtain ⟨ha, hb, hc, hd⟩ := h
  simp only [List.cons_append, List.nil_append, code?, ha, hb, hc, hd]

theorem exists_of_code? {s rest : List Char} {n : Nat} (h : code? s = some (n, rest)) :
    ∃ digits, Code digits n ∧ s = digits ++ rest := by
  unfold code? at h
  split at h
  case h_1 a b c d left =>
    split at h
    case h_1 x y z w ha hb hc hd =>
      cases h
      exact ⟨[a, b, c, d], .mk ha hb hc hd, rfl⟩
    case h_2 => cases h
  case h_2 => cases h

/-- A written character does not begin with a quote. -/
theorem Writes.exists_cons {written : List Char} {c : Char} (h : Writes written c) :
    ∃ first more, written = first :: more ∧ first ≠ '"' := by
  cases h with
  | plain _ hquote _ => exact ⟨_, _, rfl, hquote⟩
  | short => exact ⟨_, _, rfl, by decide⟩
  | code => exact ⟨_, _, rfl, by decide⟩
  | pair => exact ⟨_, _, rfl, by decide⟩

theorem char?_append {written : List Char} {c : Char} (h : Writes written c) (rest : List Char) :
    char? (written ++ rest) = some (c, rest) := by
  cases h with
  | plain hcontrol hquote hslash =>
    have hnot : ¬c.toNat < 0x20 := Nat.not_lt.mpr hcontrol
    simp [char?, hslash, hnot]
  | @short letter _ h =>
    have hletter : letter ≠ 'u' := by
      rintro rfl
      cases h
    simp [char?, h]
  | code h hlead htrail =>
    simp [char?, coded?, code?_append h, hlead, htrail]
  | pair h h' hlead htrail =>
    simp [char?, coded?, code?_append h, code?_append h', hlead, htrail]

theorem exists_of_coded? {s rest : List Char} {c : Char} (h : coded? s = some (c, rest)) :
    ∃ written, Writes written c ∧ '\\' :: 'u' :: s = written ++ rest := by
  unfold coded? at h
  split at h
  · cases h
  case h_2 n left hfirst =>
    obtain ⟨first, hcode, rfl⟩ := exists_of_code? hfirst
    split at h
    case isTrue hlead =>
      split at h
      case h_1 tail =>
        split at h
        · cases h
        case h_2 m left' hsecond =>
          obtain ⟨second, hcode', rfl⟩ := exists_of_code? hsecond
          split at h
          case isTrue htrail =>
            simp only [Option.some.injEq, Prod.mk.injEq] at h
            obtain ⟨rfl, rfl⟩ := h
            exact ⟨_, .pair hcode hcode' hlead htrail, by simp⟩
          case isFalse => cases h
      case h_2 => cases h
    case isFalse hlead =>
      split at h
      · cases h
      case isFalse htrail =>
        cases h
        exact ⟨_, .code hcode (by simpa using hlead) (by simpa using htrail), rfl⟩

theorem exists_of_char? {s rest : List Char} {c : Char} (hquote : s.head? ≠ some '"')
    (h : char? s = some (c, rest)) : ∃ written, Writes written c ∧ s = written ++ rest := by
  unfold char? at h
  split at h
  · cases h
  · exact exists_of_coded? h
  · cases h
  case h_4 _ letter tail _ =>
    obtain ⟨d, hd, heq⟩ := Option.map_eq_some_iff.mp h
    cases heq
    exact ⟨['\\', letter], .short hd, rfl⟩
  case h_5 first tail _ hend hslash =>
    split at h
    · cases h
    case isFalse hcontrol =>
      cases h
      refine ⟨[c], .plain (Nat.not_lt.mp hcontrol) (by simpa using hquote) ?_, rfl⟩
      rintro rfl
      cases rest with
      | nil => exact hend rfl rfl
      | cons d more => exact hslash d more rfl rfl

/-- A character that is no closing quote is read in front of the others. -/
theorem body?_of_char? {s rest : List Char} {c : Char} (hquote : s.head? ≠ some '"')
    (h : char? s = some (c, rest)) :
    body? s = (body? rest).map fun (text, rest) => (c :: text, rest) := by
  rw [body?]
  · split
    case h_1 hnone =>
      rw [h] at hnone
      cases hnone
    case h_2 d left hsome =>
      rw [h] at hsome
      cases hsome
      rfl
  · rintro left rfl
    exact hquote rfl

theorem body?_append {written text : List Char} (h : Spells written text) (rest : List Char) :
    body? (written ++ '"' :: rest) = some (text, rest) := by
  induction h with
  | nil => rw [List.nil_append, body?]
  | @cons written left text c h h' ih =>
    have hchar := char?_append h (left ++ '"' :: rest)
    obtain ⟨first, more, rfl, hfirst⟩ := h.exists_cons
    rw [List.append_assoc, body?_of_char? (by simpa using hfirst) hchar, ih]
    rfl

theorem exists_of_body? {s text rest : List Char} (h : body? s = some (text, rest)) :
    ∃ written, Spells written text ∧ s = written ++ '"' :: rest := by
  fun_induction body? s generalizing text with
  | case1 left =>
    cases h
    exact ⟨[], .nil, rfl⟩
  | case2 => cases h
  | case3 s hquote c left hchar ih =>
    obtain ⟨⟨inner, after⟩, hinner, heq⟩ := Option.map_eq_some_iff.mp h
    cases heq
    obtain ⟨written, hwritten, rfl⟩ := ih hinner
    have hhead : s.head? ≠ some '"' := by
      intro hs
      obtain ⟨tail, rfl⟩ := List.head?_eq_some_iff.mp hs
      exact hquote tail rfl
    obtain ⟨first, hfirst, rfl⟩ := exists_of_char? hhead hchar
    exact ⟨first ++ written, .cons hfirst hwritten, (List.append_assoc _ _ _).symm⟩

/-! ## Writing -/

theorem hexValue?_digitChar {n : Nat} (h : n < 16) : hexValue? (Nat.digitChar n) = some n := by
  revert n
  decide

/-- The code of a control character. -/
theorem code_of_lt {n : Nat} (h : n < 0x20) :
    Code ['0', '0', Nat.digitChar (n / 16), Nat.digitChar (n % 16)] n := by
  have hcode := Code.mk (hexValue?_digitChar (n := 0) (by decide)) (hexValue?_digitChar (n := 0) (by decide))
    (hexValue?_digitChar (show n / 16 < 16 by omega)) (hexValue?_digitChar (show n % 16 < 16 by omega))
  rwa [show ((0 * 16 + 0) * 16 + n / 16) * 16 + n % 16 = n by omega] at hcode

theorem writes_escape (c : Char) : Writes (escape c) c := by
  unfold escape
  split
  case h_8 hquote hslash _ _ _ _ _ =>
    split
    case isTrue hcontrol =>
      have hwrites := Writes.code (code_of_lt hcontrol) (by simp [isLeading]; omega)
        (by simp [isTrailing]; omega)
      rwa [Char.ofNat_toNat] at hwrites
    case isFalse hcontrol => exact .plain (Nat.not_lt.mp hcontrol) hquote hslash
  all_goals exact .short rfl

/-- **The characters of a string are written** as they may be. -/
theorem spells_flatMap (text : List Char) : Spells (text.flatMap escape) text := by
  induction text with
  | nil => exact .nil
  | cons c rest ih => exact .cons (writes_escape c) ih

end Bourse.Json.Quoted
