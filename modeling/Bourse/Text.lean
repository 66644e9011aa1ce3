import Bourse.Word

/-!
# `Bourse.Text` — characters, numbers and bytes

What settings and frames have in common as texts: white space, unsigned numbers in ASCII digits, most
significant first, and the bytes of a text. These are its characters in UTF-8, and only the shortest form of
each character is read back: `decode?_encode`.
-/

namespace Bourse.Text

/-! ## White space -/

/-- The code points of Unicode's White_Space, as closed ranges. -/
def whiteSpace : List (Nat × Nat) :=
  [(0x09, 0x0d), (0x20, 0x20), (0x85, 0x85), (0xa0, 0xa0), (0x1680, 0x1680), (0x2000, 0x200a),
    (0x2028, 0x2029), (0x202f, 0x202f), (0x205f, 0x205f), (0x3000, 0x3000)]

/-- The character is white space. -/
def isWhiteSpace (c : Char) : Bool :=
  whiteSpace.any fun (least, greatest) => least ≤ c.toNat && c.toNat ≤ greatest

/-- The text has no character but white space. -/
def isBlank (text : String) : Bool := text.toList.all isWhiteSpace

/-! ## Unsigned numbers -/

/-- The number that a row of ASCII digits stands for. -/
def ofDigits (digits : List Char) : Nat := Nat.ofDigitChars 10 digits 0

/-- Reads an unsigned number of at most 64 bits: digits and nothing else, except for a plus sign that
    may come first. -/
def readUnsigned? (text : String) : Option Nat :=
  let digits :=
    match text.toList with
    | '+' :: rest => rest
    | cs => cs
  if digits.isEmpty || !digits.all Char.isDigit then none
  else
    let n := ofDigits digits
    if Word.Unsigned n then some n else none

/-! ## Bytes -/

namespace Utf8

/-- The characters as bytes. -/
def encode (text : List Char) : List UInt8 := text.flatMap String.utf8EncodeChar

/-- The characters whose bytes these are, if they are any. -/
def decode? (bytes : List UInt8) : Option (List Char) :=
  bytes.toByteArray.utf8Decode?.map Array.toList

/-- Decoding gives back what was encoded. -/
@[simp] theorem decode?_encode (text : List Char) : decode? (encode text) = some text := by
  have : (encode text).toByteArray = text.utf8Encode := rfl
  simp [decode?, this, List.utf8Decode?_utf8Encode]

end Utf8

end Bourse.Text
