import Bourse.Json

/-!
# `Bourse.Json.Quoted` — strings between quotes

A string is written with the short escape of a character where there is one, with a four-digit code for
the other control characters, and with everything else as it is. Reading also takes the escape of a
slash, codes of any character, and pairs of codes for characters beyond the first plane; it refuses raw
control characters and half a pair.
-/

namespace Bourse.Json.Quoted

/-! ## Writing -/

/-- A character as it is written between quotes. -/
def escape (c : Char) : List Char :=
  match c with
  | '"' => ['\\', '"']
  | '\\' => ['\\', '\\']
  | '\x08' => ['\\', 'b']
  | '\t' => ['\\', 't']
  | '\n' => ['\\', 'n']
  | '\x0c' => ['\\', 'f']
  | '\r' => ['\\', 'r']
  | c =>
    if c.toNat < 0x20 then
      ['\\', 'u', '0', '0', Nat.digitChar (c.toNat / 16), Nat.digitChar (c.toNat % 16)]
    else [c]

/-- A string with its quotes. -/
def encode (text : List Char) : List Char := '"' :: text.flatMap escape ++ ['"']

/-! ## Reading -/

/-- The character that a backslash and this letter stand for. -/
def shortEscape? : Char → Option Char
  | '"' => some '"'
  | '\\' => some '\\'
  | '/' => some '/'
  | 'b' => some '\x08'
  | 'f' => some '\x0c'
  | 'n' => some '\n'
  | 'r' => some '\r'
  | 't' => some '\t'
  | _ => none

/-- The value of a hexadecimal digit of either case. -/
def hexValue? (c : Char) : Option Nat :=
  if '0' ≤ c ∧ c ≤ '9' then some (c.toNat - '0'.toNat)
  else if 'a' ≤ c ∧ c ≤ 'f' then some (c.toNat - 'a'.toNat + 10)
  else if 'A' ≤ c ∧ c ≤ 'F' then some (c.toNat - 'A'.toNat + 10)
  else none

/-- The number that the next four hexadecimal digits stand for, and what follows them. -/
def code? : List Char → Option (Nat × List Char)
  | a :: b :: c :: d :: rest =>
    match hexValue? a, hexValue? b, hexValue? c, hexValue? d with
    | some a, some b, some c, some d => some (((a * 16 + b) * 16 + c) * 16 + d, rest)
    | _, _, _, _ => none
  | _ => none

/-- The code opens a pair. -/
def isLeading (code : Nat) : Bool := 0xd800 ≤ code && code < 0xdc00

/-- The code closes a pair. -/
def isTrailing (code : Nat) : Bool := 0xdc00 ≤ code && code < 0xe000

/-- The character of a code or of a pair of codes, after the letter that announces the first. -/
def coded? (s : List Char) : Option (Char × List Char) :=
  match code? s with
  | none => none
  | some (code, rest) =>
    if isLeading code then
      -- the other half has to follow at once
      match rest with
      | '\\' :: 'u' :: rest =>
        match code? rest with
        | none => none
        | some (second, rest) =>
          if isTrailing second then
            some (Char.ofNat (0x10000 + (code - 0xd800) * 0x400 + (second - 0xdc00)), rest)
          else none
      | _ => none
    else if isTrailing code then none
    else some (Char.ofNat code, rest)

/-- The next character between quotes, and what follows it. -/
def char? : List Char → Option (Char × List Char)
  | [] => none
  | '\\' :: 'u' :: rest => coded? rest
  | ['\\'] => none
  | '\\' :: c :: rest => (shortEscape? c).map (·, rest)
  | c :: rest => if c.toNat < 0x20 then none else some (c, rest)

theorem length_code? {s rest : List Char} {code : Nat} (h : code? s = some (code, rest)) :
    rest.length < s.length := by
  unfold code? at h
  split at h
  · split at h
    · simp only [Option.some.injEq, Prod.mk.injEq] at h
      simp only [← h.2, List.length_cons]
      omega
    · cases h
  · cases h

theorem length_coded? {s rest : List Char} {c : Char} (h : coded? s = some (c, rest)) :
    rest.length < s.length := by
  unfold coded? at h
  split at h
  · cases h
  case h_2 hcode =>
    have hfirst := length_code? hcode
    split at h
    · split at h
      · split at h
        · cases h
        case h_2 hcode =>
          have hsecond := length_code? hcode
          split at h
          · simp only [Option.some.injEq, Prod.mk.injEq] at h
            simp only [List.length_cons] at hfirst
            simp only [← h.2]
            omega
          · cases h
      · cases h
    · split at h
      · cases h
      · cases h
        exact hfirst

theorem length_char? {s rest : List Char} {c : Char} (h : char? s = some (c, rest)) :
    rest.length < s.length := by
  unfold char? at h
  split at h
  · cases h
  · have := length_coded? h
    simp only [List.length_cons]
    omega
  · cases h
  · obtain ⟨x, -, hx⟩ := Option.map_eq_some_iff.mp h
    cases hx
    simp only [List.length_cons]
    omega
  · split at h
    · cases h
    · cases h
      simp

/-- The characters up to the closing quote, and what follows it. -/
def body? (s : List Char) : Option (List Char × List Char) :=
  match s with
  | '"' :: rest => some ([], rest)
  | s =>
    match _h : char? s with
    | none => none
    | some (c, rest) => (body? rest).map fun (text, rest) => (c :: text, rest)
termination_by s.length
decreasing_by exact length_char? ‹_›

theorem length_body? {s text rest : List Char} (h : body? s = some (text, rest)) :
    rest.length < s.length := by
  fun_induction body? s generalizing text with
  | case1 rest =>
    cases h
    simp
  | case2 => cases h
  | case3 s _ c tail hchar ih =>
    obtain ⟨⟨inner, left⟩, hinner, heq⟩ := Option.map_eq_some_iff.mp h
    cases heq
    have := ih hinner
    have := length_char? hchar
    omega

end Bourse.Json.Quoted
