import Bourse.Session

/-!
# `Bourse.Proofs.Lines` — a stream of lines falls apart into its lines

The text of a value has no control character in it, and in UTF-8 no byte of another character is taken for
a line end. So the line ends of a stream of responses are the ones behind the responses.
-/

namespace Bourse

namespace Json

/-! ## Texts without control characters -/

/-- No control character is in the text. -/
def Clear (text : List Char) : Prop := ∀ c ∈ text, 0x20 ≤ c.toNat

@[simp] theorem clear_nil : Clear [] := nofun

@[simp] theorem clear_cons {c : Char} {rest : List Char} : Clear (c :: rest) ↔ 0x20 ≤ c.toNat ∧ Clear rest :=
  List.forall_mem_cons

@[simp] theorem clear_append {first second : List Char} :
    Clear (first ++ second) ↔ Clear first ∧ Clear second :=
  List.forall_mem_append

theorem clear_toDigits (n : Nat) : Clear (Nat.toDigits 10 n) := by
  intro c hc
  obtain ⟨hleast, -⟩ := Char.isDigit_iff_toNat.mp (Nat.isDigit_of_mem_toDigits (by decide) (by decide) hc)
  exact Nat.le_trans (by decide) hleast

theorem clear_renderInt (i : Int) : Clear (renderInt i) := by
  cases i with
  | ofNat n => exact clear_toDigits n
  | negSucc n => simpa [renderInt] using clear_toDigits (n + 1)

theorem toList_toString_int (i : Int) : (toString i).toList = renderInt i := by
  cases i with
  | ofNat n => simp [renderInt, toString, Int.repr]
  | negSucc n => simp [renderInt, toString, Int.repr]

theorem clear_escape (c : Char) : Clear (Quoted.escape c) := by
  unfold Quoted.escape
  split
  case h_8 =>
    split
    case isTrue hcontrol =>
      have hdigit : ∀ n < 16, 0x20 ≤ (Nat.digitChar n).toNat := by decide
      simp [hdigit (c.toNat / 16) (by omega), hdigit (c.toNat % 16) (by omega)]
    case isFalse hcontrol => simpa using Nat.not_lt.mp hcontrol
  all_goals simp

theorem clear_encode (text : List Char) : Clear (Quoted.encode text) := by
  have hbody : Clear (text.flatMap Quoted.escape) := by
    intro c hc
    obtain ⟨d, -, hd⟩ := List.mem_flatMap.mp hc
    exact clear_escape d c hd
  simpa [Quoted.encode] using hbody

theorem clear_decimal (d : Decimal) : Clear d.render := by
  unfold Decimal.render
  rw [toList_toString_int]
  cases d.negative <;> simp [clear_toDigits, clear_renderInt]

mutual

/-- **The text of a value has no control character in it.** -/
theorem clear_render (v : Json) : Clear v.render := by
  match v with
  | .null | .bool true | .bool false | .array [] | .object [] => simp [render]
  | .int i => exact clear_renderInt i
  | .decimal d => exact clear_decimal d
  | .string s => exact clear_encode s.toList
  | .array (item :: items) => simp [render, clear_render item, clear_renderItems items]
  | .object ((key, held) :: members) =>
    simp [render, clear_encode, clear_render held, clear_renderMembers members]

theorem clear_renderItems (items : List Json) : Clear (renderItems items) := by
  match items with
  | [] => exact clear_nil
  | item :: items => simp [renderItems, clear_render item, clear_renderItems items]

theorem clear_renderMembers (members : List (String × Json)) : Clear (renderMembers members) := by
  match members with
  | [] => exact clear_nil
  | (key, held) :: members =>
    simp [renderMembers, clear_encode, clear_render held, clear_renderMembers members]

end

end Json

/-! ## Bytes -/

/-- A character that is no control character has no byte that is one. -/
theorem le_of_mem_utf8EncodeChar {c : Char} (hc : 0x20 ≤ c.toNat) {b : UInt8}
    (hb : b ∈ String.utf8EncodeChar c) : 0x20 ≤ b.toNat := by
  have hval : c.val.toNat = c.toNat := rfl
  simp only [String.utf8EncodeChar, hval] at hb
  split at hb
  case isTrue hshort =>
    obtain rfl := List.mem_singleton.mp hb
    rw [UInt8.toNat_ofNat']
    omega
  case isFalse =>
    have hbyte {n m : Nat} (h : 0x20 ≤ n + m) (h' : n + m < 0x100) : 0x20 ≤ (UInt8.ofNat (n + m)).toNat := by
      rw [UInt8.toNat_ofNat']
      omega
    split at hb
    · simp only [List.mem_cons, List.not_mem_nil, or_false] at hb
      rcases hb with rfl | rfl <;> exact hbyte (by omega) (by omega)
    · split at hb
      · simp only [List.mem_cons, List.not_mem_nil, or_false] at hb
        rcases hb with rfl | rfl | rfl <;> exact hbyte (by omega) (by omega)
      · simp only [List.mem_cons, List.not_mem_nil, or_false] at hb
        rcases hb with rfl | rfl | rfl | rfl <;> exact hbyte (by omega) (by omega)

/-- A text without control characters has no byte that is one. -/
theorem le_of_mem_encode {text : List Char} (h : Json.Clear text) {b : UInt8}
    (hb : b ∈ Text.Utf8.encode text) : 0x20 ≤ b.toNat := by
  obtain ⟨c, hc, hb⟩ := List.mem_flatMap.mp hb
  exact le_of_mem_utf8EncodeChar (h c hc) hb

theorem not_mem_encode {text : List Char} (h : Json.Clear text) : (0x0a : UInt8) ∉ Text.Utf8.encode text := by
  intro hmem
  have : 0x20 ≤ (0x0a : UInt8).toNat := le_of_mem_encode h hmem
  exact absurd this (by decide)

/-! ## Lines -/

/-- The bytes of a response are those of its text and a line end. -/
theorem Response.encode_eq (response : Response) :
    response.encode = Text.Utf8.encode response.text ++ [0x0a] := by
  simp [Response.encode, Text.Utf8.encode, String.utf8EncodeChar]

/-- **A stream of responses has one line for each.** -/
theorem splitOn_lines (responses : List Response) :
    (Session.lines responses).splitOn 0x0a =
      responses.map (fun response => Text.Utf8.encode response.text) ++ [[]] := by
  induction responses with
  | nil => rfl
  | cons response rest ih =>
    have hline : (0x0a : UInt8) ∉ Text.Utf8.encode response.text :=
      not_mem_encode (Json.clear_render response.toJson)
    have hsplit : Session.lines (response :: rest) =
        Text.Utf8.encode response.text ++ 0x0a :: Session.lines rest := by
      simp [Session.lines, response.encode_eq]
    rw [hsplit, List.splitOn_append_cons_self_of_not_mem hline, ih]
    rfl

end Bourse
