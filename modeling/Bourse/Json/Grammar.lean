import Bourse.Json.Printer
import Bourse.Json.Reader

/-!
# `Bourse.Json.Grammar` — what a JSON text is

The grammar of JSON, said without reading anything from left to right. A value stands for one row of pieces;
each piece can be written in one or in several ways, and between the pieces there may be space.

## Contents
- **Strings.** `Quoted.Writes`, the ways to write one character between quotes, and `Quoted.Spells`.
- **Numbers.** `Numeral.Written`, the texts of a number.
- **Pieces.** `Token.Written`, the texts of a piece, and `Token.Spaced`, the texts of a row of pieces.
- **Values.** `Json.pieces`, the row of pieces of a value, `Json.depth`, how deep containers are nested in
  it, and `Json.Written`, the texts of a value; `Json.WrittenBytes` are their bytes.
-/

namespace Bourse

/-! ## Strings -/

namespace Json.Quoted

/-- Four hexadecimal digits and the number that they stand for. -/
inductive Code : List Char → Nat → Prop
  | mk {a b c d : Char} {x y z w : Nat} (ha : hexValue? a = some x) (hb : hexValue? b = some y)
      (hc : hexValue? c = some z) (hd : hexValue? d = some w) :
      Code [a, b, c, d] (((x * 16 + y) * 16 + z) * 16 + w)

/-- The ways to write a character between quotes. -/
inductive Writes : List Char → Char → Prop
  /-- As it is, unless it is a control character, a quote or a backslash. -/
  | plain {c : Char} (hcontrol : 0x20 ≤ c.toNat) (hquote : c ≠ '"') (hslash : c ≠ '\\') : Writes [c] c
  /-- With the letter of its short escape. -/
  | short {letter c : Char} (h : shortEscape? letter = some c) : Writes ['\\', letter] c
  /-- With its code. -/
  | code {digits : List Char} {n : Nat} (h : Code digits n) (hlead : isLeading n = false)
      (htrail : isTrailing n = false) : Writes ('\\' :: 'u' :: digits) (Char.ofNat n)
  /-- With a pair of codes. -/
  | pair {first second : List Char} {n m : Nat} (h : Code first n) (h' : Code second m)
      (hlead : isLeading n = true) (htrail : isTrailing m = true) :
      Writes ('\\' :: 'u' :: first ++ '\\' :: 'u' :: second)
        (Char.ofNat (0x10000 + (n - 0xd800) * 0x400 + (m - 0xdc00)))

/-- The ways to write a row of characters between quotes. -/
inductive Spells : List Char → List Char → Prop
  | nil : Spells [] []
  | cons {written rest text : List Char} {c : Char} (h : Writes written c) (h' : Spells rest text) :
      Spells (written ++ rest) (c :: text)

end Json.Quoted

/-! ## Numbers -/

namespace Numeral

/-- Digits, and at least one. -/
structure Digits (s : List Char) : Prop where
  ne_nil : s ≠ []
  isDigit : ∀ c ∈ s, c.isDigit = true

/-- A zero alone, or digits of which the first is no zero. -/
structure Whole (s : List Char) : Prop extends Digits s where
  eq_zero : s.head? = some '0' → s = ['0']

/-- A number may have a minus in front. -/
inductive SignWritten : List Char → Bool → Prop
  | none : SignWritten [] false
  | minus : SignWritten ['-'] true

/-- A fraction is a point and digits. -/
inductive FractionWritten : List Char → Option (List Char) → Prop
  | none : FractionWritten [] none
  | some {digits : List Char} (h : Digits digits) : FractionWritten ('.' :: digits) (some digits)

/-- An exponent is its letter, perhaps a sign, and digits. -/
inductive ExponentWritten : List Char → Option (Bool × List Char) → Prop
  | none : ExponentWritten [] none
  | bare {letter : Char} {digits : List Char} (hletter : letter = 'e' ∨ letter = 'E')
      (h : Digits digits) : ExponentWritten (letter :: digits) (some (false, digits))
  | plus {letter : Char} {digits : List Char} (hletter : letter = 'e' ∨ letter = 'E')
      (h : Digits digits) : ExponentWritten (letter :: '+' :: digits) (some (false, digits))
  | minus {letter : Char} {digits : List Char} (hletter : letter = 'e' ∨ letter = 'E')
      (h : Digits digits) : ExponentWritten (letter :: '-' :: digits) (some (true, digits))

/-- The texts of a number. -/
inductive Written : List Char → Numeral → Prop
  | mk {sign whole fraction exponent : List Char} {negative : Bool} {fractionDigits : Option (List Char)}
      {power : Option (Bool × List Char)} (hsign : SignWritten sign negative) (hwhole : Whole whole)
      (hfraction : FractionWritten fraction fractionDigits) (hexponent : ExponentWritten exponent power) :
      Written (sign ++ whole ++ fraction ++ exponent)
        { negative, whole, fraction := fractionDigits, exponent := power }

end Numeral

/-! ## Pieces -/

namespace Json

/-- The integers that are read as such, from `-2 ^ 63` to `2 ^ 64 - 1`. -/
def IsWord (i : Int) : Prop := Word.least ≤ i ∧ i < Word.unsignedLimit

namespace Token

/-- The texts of a piece. -/
inductive Written : List Char → Token → Prop
  | openArray : Written ['['] .openArray
  | closeArray : Written [']'] .closeArray
  | openObject : Written ['\x7b'] .openObject
  | closeObject : Written ['\x7d'] .closeObject
  | comma : Written [','] .comma
  | colon : Written [':'] .colon
  | word {text : List Char} {v : Json} (h : (text, v) ∈ words) : Written text (.value v)
  /-- An integer of a word is written in decimal digits, a negative one behind a minus. -/
  | integer {i : Int} (h : IsWord i) : Written (renderInt i) (.value (.int i))
  /-- Every other number is a decimal, if a double can hold it. -/
  | decimal {text : List Char} {n : Numeral} (h : Numeral.Written text n) (hint : n.toInt? = none)
      (hfinite : n.toDecimal.isInfinite = false) : Written text (.value (.decimal n.toDecimal))
  | string {written text : List Char} (h : Quoted.Spells written text) :
      Written ('"' :: written ++ ['"']) (.value (.string (.ofList text)))

/-- Characters that may stand between two pieces. -/
def Space (s : List Char) : Prop := ∀ c ∈ s, isSpace c = true

/-- The texts of a row of pieces: space may stand in front of each and after the last. -/
inductive Spaced : List Char → List Token → Prop
  | nil {space : List Char} (h : Space space) : Spaced space []
  | cons {space text rest : List Char} {t : Token} {pieces : List Token} (hspace : Space space)
      (htext : Written text t) (hrest : Spaced rest pieces) :
      Spaced (space ++ text ++ rest) (t :: pieces)

end Token

/-! ## Values -/

mutual

/-- The pieces of a value. -/
def pieces : Json → List Token
  | .array [] => [.openArray, .closeArray]
  | .array (v :: rest) => .openArray :: (pieces v ++ morePieces rest ++ [.closeArray])
  | .object [] => [.openObject, .closeObject]
  | .object ((key, v) :: rest) =>
    .openObject :: .value (.string key) :: .colon ::
      (pieces v ++ moreMemberPieces rest ++ [.closeObject])
  | v => [.value v]

/-- The pieces of the items after the first, each behind a comma. -/
def morePieces : List Json → List Token
  | [] => []
  | v :: rest => .comma :: (pieces v ++ morePieces rest)

/-- The pieces of the members after the first, each behind a comma. -/
def moreMemberPieces : List (String × Json) → List Token
  | [] => []
  | (key, v) :: rest =>
    .comma :: .value (.string key) :: .colon :: (pieces v ++ moreMemberPieces rest)

end

mutual

/-- How many containers are nested in each other, at most. -/
def depth : Json → Nat
  | .array items => depthOfItems items + 1
  | .object members => depthOfMembers members + 1
  | _ => 0

/-- The greatest depth of an item. -/
def depthOfItems : List Json → Nat
  | [] => 0
  | v :: rest => max (depth v) (depthOfItems rest)

/-- The greatest depth of the value of a member. -/
def depthOfMembers : List (String × Json) → Nat
  | [] => 0
  | (_, v) :: rest => max (depth v) (depthOfMembers rest)

end

/-- The texts of a value. -/
structure Written (text : List Char) (v : Json) : Prop where
  spaced : Token.Spaced text v.pieces
  depth_le : v.depth ≤ maxDepth

/-- The bytes are a text of the value in UTF-8. -/
def WrittenBytes (bytes : List UInt8) (v : Json) : Prop :=
  ∃ text, bytes = Text.Utf8.encode text ∧ Written text v

end Json

end Bourse
