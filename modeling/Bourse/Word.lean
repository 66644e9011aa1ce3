/-!
# `Bourse.Word` — what 64 bits can hold

The numbers of this library have no bounds of their own. Where a number has to fit a word, on the wire or
in an account, the test is one of the two here.
-/

namespace Bourse.Word

/-- The number of unsigned words, `2 ^ 64`. -/
def unsignedLimit : Nat := 0x10000000000000000

/-- The least signed word, `-2 ^ 63`. -/
def least : Int := -0x8000000000000000

/-- The greatest signed word, `2 ^ 63 - 1`. -/
def greatest : Int := 0x7fffffffffffffff

/-- An unsigned word can hold the number. -/
def Unsigned (n : Nat) : Prop := n < unsignedLimit

/-- A signed word can hold the number. -/
def Signed (i : Int) : Prop := least ≤ i ∧ i ≤ greatest

instance (n : Nat) : Decidable (Unsigned n) := inferInstanceAs (Decidable (_ < _))

instance (i : Int) : Decidable (Signed i) := inferInstanceAs (Decidable (_ ∧ _))

end Bourse.Word
