import Bourse.Json
import Bourse.Text

/-!
# `Bourse.Json.Numeral` — numbers as they are written

A number is a whole part without leading zeros, then a fraction and an exponent that may both be
missing. Only one without either is an integer, and only within 64 bits: from `-2 ^ 63` to `-1` with a
sign, below `2 ^ 64` without. Any other number is read as a decimal whose significand has 64 bits at
most, and is refused when even the nearest double is infinite.

## Contents
- **Text.** `Numeral` and `Numeral.scan?`.
- **Precision.** `takeDigits` reads digits while they fit, `Decimal.isInfinite` tells what a double
  cannot hold.
- **Value.** `Numeral.value?`.
-/

namespace Bourse

/-! ## Text -/

/-- A number as written. -/
structure Numeral where
  negative : Bool
  /-- The digits before the point. -/
  whole : List Char
  /-- The digits after the point, if there is one. -/
  fraction : Option (List Char)
  /-- The sign of the exponent (`true` for a minus) and its digits, if there is one. -/
  exponent : Option (Bool × List Char)
deriving DecidableEq, Repr

namespace Numeral

/-- Splits the digits off the front; there has to be one. -/
def digits? (s : List Char) : Option (List Char × List Char) :=
  match s.takeWhile Char.isDigit with
  | [] => none
  | digits => some (digits, s.dropWhile Char.isDigit)

/-- The whole part: a zero alone, or digits of which the first is no zero. -/
def whole? (s : List Char) : Option (List Char × List Char) :=
  match digits? s with
  | some ('0' :: _ :: _, _) => none
  | found => found

/-- The fraction, if a point follows. -/
def fraction? : List Char → Option (Option (List Char) × List Char)
  | '.' :: rest => (digits? rest).map fun (digits, rest) => (some digits, rest)
  | s => some (none, s)

/-- The sign of an exponent. -/
def exponentSign : List Char → Bool × List Char
  | '-' :: rest => (true, rest)
  | '+' :: rest => (false, rest)
  | s => (false, s)

/-- The exponent, if its letter follows. -/
def exponent? (s : List Char) : Option (Option (Bool × List Char) × List Char) :=
  match s with
  | [] => some (none, [])
  | c :: rest =>
    if c = 'e' ∨ c = 'E' then
      let sign := exponentSign rest
      (digits? sign.2).map fun (digits, rest) => (some (sign.1, digits), rest)
    else some (none, s)

/-- The sign of a number. -/
def sign : List Char → Bool × List Char
  | '-' :: rest => (true, rest)
  | s => (false, s)

/-- The number at the front, and what follows it. -/
def scan? (s : List Char) : Option (Numeral × List Char) :=
  match whole? (sign s).2 with
  | none => none
  | some (whole, afterWhole) =>
    match fraction? afterWhole with
    | none => none
    | some (fraction, afterFraction) =>
      match exponent? afterFraction with
      | none => none
      | some (exponent, rest) => some ({ negative := (sign s).1, whole, fraction, exponent }, rest)

end Numeral

/-! ## Precision -/

/-- Reads digits into a significand as long as a word can hold it. Gives the significand and how
    many digits were left out. -/
def takeDigits (significand : Nat) : List Char → Nat × Nat
  | [] => (significand, 0)
  | c :: rest =>
    let longer := Nat.ofDigitChars 10 [c] significand
    if Word.Unsigned longer then takeDigits longer rest else (significand, rest.length + 1)

/-- The natural number with at most 53 significant bits that is nearest to `n`; of two, the one whose
    last bit is zero. -/
def roundToDouble (n : Nat) : Nat :=
  let dropped := n.log2 + 1 - 53
  let unit := 1 <<< dropped
  let low := n / unit
  let rest := n % unit
  -- less than half a unit goes down, more goes up, and a half goes to the even neighbour
  if 2 * rest < unit ∨ (2 * rest = unit ∧ low % 2 = 0) then low * unit else (low + 1) * unit

/-- The least number that rounds to infinity, `2 ^ 1024 - 2 ^ 970`. -/
def doubleLimit : Nat := (1 <<< 1024) - (1 <<< 970)

/-- The decimal is out of the range of doubles, as the product of its significand and its power of ten,
    each rounded to a double first. A small number never is. -/
def Decimal.isInfinite (d : Decimal) : Bool :=
  d.significand ≠ 0 &&
    (308 < d.exponent ||
      0 ≤ d.exponent &&
        doubleLimit ≤ roundToDouble d.significand * roundToDouble (Nat.pow 10 d.exponent.toNat))

namespace Numeral

/-! ## Value -/

/-- The number as a decimal. Digits of the whole part that do not fit count for its size, digits of the
    fraction that do not fit count for nothing. -/
def toDecimal (n : Numeral) : Decimal :=
  let fraction := n.fraction.getD []
  -- the fraction goes on with the significand where the whole part has left it
  let whole := takeDigits 0 n.whole
  let all := takeDigits whole.1 fraction
  let power : Int :=
    match n.exponent with
    | none => 0
    | some (true, digits) => -(Text.ofDigits digits : Int)
    | some (false, digits) => Text.ofDigits digits
  { negative := n.negative
    significand := all.1
    exponent := whole.2 - ((fraction.length : Int) - all.2) + power }

/-- The integer, if the number is written as one and fits 64 bits. A zero with a minus is none. -/
def toInt? (n : Numeral) : Option Int :=
  if n.fraction.isSome ∨ n.exponent.isSome then none
  else
    let size := Text.ofDigits n.whole
    if n.negative then
      if 0 < size ∧ Word.Signed (-(size : Int)) then some (-(size : Int)) else none
    else if Word.Unsigned size then some size
    else none

/-- The value of the number, unless it is out of range. -/
def value? (n : Numeral) : Option Json :=
  match n.toInt? with
  | some i => some (.int i)
  | none => if n.toDecimal.isInfinite then none else some (.decimal n.toDecimal)

/-! ## Progress -/

theorem length_digits? {s digits rest : List Char} (h : digits? s = some (digits, rest)) :
    rest.length < s.length := by
  unfold digits? at h
  split at h
  · cases h
  case h_2 hne =>
    cases h
    have hsplit := congrArg List.length (List.takeWhile_append_dropWhile (p := Char.isDigit) (l := s))
    have hpos := List.length_pos_iff.mpr hne
    rw [List.length_append] at hsplit
    omega

theorem length_whole? {s digits rest : List Char} (h : whole? s = some (digits, rest)) :
    rest.length < s.length := by
  unfold whole? at h
  split at h
  · cases h
  · exact length_digits? h

theorem length_fraction? {s rest : List Char} {digits : Option (List Char)}
    (h : fraction? s = some (digits, rest)) : rest.length ≤ s.length := by
  unfold fraction? at h
  split at h
  · obtain ⟨x, hx, heq⟩ := Option.map_eq_some_iff.mp h
    cases heq
    have := length_digits? hx
    simp only [List.length_cons]
    omega
  · cases h
    exact Nat.le_refl _

theorem length_exponentSign (s : List Char) : (exponentSign s).2.length ≤ s.length := by
  unfold exponentSign
  split <;> simp

theorem length_exponent? {s rest : List Char} {exponent : Option (Bool × List Char)}
    (h : exponent? s = some (exponent, rest)) : rest.length ≤ s.length := by
  unfold exponent? at h
  split at h
  · cases h
    exact Nat.le_refl _
  case h_2 c tail =>
    split at h
    · obtain ⟨x, hx, heq⟩ := Option.map_eq_some_iff.mp h
      cases heq
      have := length_digits? hx
      have := length_exponentSign tail
      simp only [List.length_cons]
      omega
    · cases h
      exact Nat.le_refl _

theorem length_sign (s : List Char) : (sign s).2.length ≤ s.length := by
  unfold sign
  split <;> simp

/-- A number has at least one character. -/
theorem length_scan? {s rest : List Char} {n : Numeral} (h : scan? s = some (n, rest)) :
    rest.length < s.length := by
  have hsign := length_sign s
  unfold scan? at h
  split at h
  · cases h
  case h_2 hwhole =>
    have := length_whole? hwhole
    split at h
    · cases h
    case h_2 hfraction =>
      have := length_fraction? hfraction
      split at h
      · cases h
      case h_2 hexponent =>
        have := length_exponent? hexponent
        cases h
        omega

end Numeral

end Bourse
