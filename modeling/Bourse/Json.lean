/-!
# `Bourse.Json` — JSON values

Members keep their order and may repeat a key. A number is an integer if it is written as one and fits
64 bits; any other number is a decimal of limited precision.
-/

namespace Bourse

/-- The significand times ten to the power of the exponent, with a sign. -/
structure Decimal where
  negative : Bool
  significand : Nat
  exponent : Int
deriving DecidableEq, Repr

/-- A JSON value. -/
inductive Json
  | null
  | bool (b : Bool)
  | int (i : Int)
  | decimal (d : Decimal)
  | string (s : String)
  | array (items : List Json)
  | object (members : List (String × Json))
deriving Repr

instance : Inhabited Json := ⟨.null⟩

end Bourse
