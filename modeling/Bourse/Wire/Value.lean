import Bourse.Balance
import Bourse.Json
import Bourse.Side

/-!
# `Bourse.Wire.Value` — what the parts of a message look like

Each type of part has one JSON form in which it is written and a few in which it is read. Numbers are
integers of 64 bits, without a sign for ids and quantities and with one for prices and sums. A choice
out of a few names is written as the name and also read from an object with that name as its only key
and nothing behind it.

## Contents
- **Plain parts.** `WireValue` and its instances for numbers, truth values, texts, parts that may be
  missing, and lists.
- **Choices.** Sides and currencies.
- **Fields.** `Body` is what carries the fields of a message, by name or by position; `Body.fields?` gives
  their values in order.
-/

namespace Bourse

/-- A part of a message. -/
class WireValue (α : Type) where
  toJson : α → Json
  ofJson? : Json → Option α

namespace WireValue

/-! ## Plain parts -/

instance : WireValue Nat where
  toJson n := .int n
  ofJson?
    | .int i => if 0 ≤ i ∧ Word.Unsigned i.toNat then some i.toNat else none
    | _ => none

instance : WireValue Int where
  toJson i := .int i
  ofJson?
    | .int i => if Word.Signed i then some i else none
    | _ => none

instance : WireValue Bool where
  toJson b := .bool b
  ofJson?
    | .bool b => some b
    | _ => none

instance : WireValue String where
  toJson s := .string s
  ofJson?
    | .string s => some s
    | _ => none

instance {α : Type} [WireValue α] : WireValue (Option α) where
  toJson
    | none => .null
    | some a => toJson a
  ofJson?
    | .null => some none
    | j => (ofJson? j).map some

instance {α : Type} [WireValue α] : WireValue (List α) where
  toJson as := .array (as.map toJson)
  ofJson?
    | .array items => items.mapM ofJson?
    | _ => none

/-! ## Choices -/

/-- The name in a choice. -/
def choice? : Json → Option String
  | .string name => some name
  | .object [(name, .null)] => some name
  | .object [(name, .object [])] => some name
  | _ => none

/-- A side by its name on the wire. -/
def side? : String → Option Side
  | "BUY" => some .buy
  | "SELL" => some .sell
  | _ => none

/-- A currency by its name on the wire. -/
def currency? : String → Option Currency
  | "USD" => some .usd
  | "RUB" => some .rub
  | _ => none

instance : WireValue Side where
  toJson
    | .buy => .string "BUY"
    | .sell => .string "SELL"
  ofJson? j := (choice? j).bind side?

instance : WireValue Currency where
  toJson
    | .usd => .string "USD"
    | .rub => .string "RUB"
  ofJson? j := (choice? j).bind currency?

end WireValue

/-! ## Fields -/

/-- A field of a message. -/
structure WireField where
  name : String
  /-- An object without the field is read as if its value were null. -/
  omittable : Bool := false
deriving DecidableEq, Repr

instance : Coe String WireField := ⟨fun name => { name }⟩

/-- What carries the fields: the members of an object or the items of an array. -/
inductive Body
  | members (ms : List (String × Json))
  | items (values : List Json)
deriving Repr

namespace Body

/-- The value of one field among the members of an object. The field may not be repeated; members with
    other names do not matter. -/
def field? (ms : List (String × Json)) (field : WireField) : Option Json :=
  match ms.filter (·.1 = field.name) with
  | [] => if field.omittable then some .null else none
  | [m] => some m.2
  | _ => none

/-- The values of the fields, in their order. An array has to have exactly as many items. -/
def fields? (body : Body) (fields : List WireField) : Option (List Json) :=
  match body with
  | .members ms => fields.mapM (field? ms)
  | .items values => if values.length = fields.length then some values else none

/-- What carries the fields of a part that has no tag. -/
def ofJson? : Json → Option Body
  | .object ms => some (.members ms)
  | .array values => some (.items values)
  | _ => none

/-- The tag of a message and what carries its fields. The tag is the member `TYPE` of an object, which
    may not be repeated, or the first item of an array. -/
def tagged? : Json → Option (String × Body)
  | .object ms =>
    match field? ms "TYPE" with
    | some (.string tag) => some (tag, .members ms)
    | _ => none
  | .array (.string tag :: values) => some (tag, .items values)
  | _ => none

end Body

/-- A message as it is written: its tag, then its fields in order. -/
def Json.tagged (tag : String) (fields : List (String × Json)) : Json :=
  .object (("TYPE", .string tag) :: fields)

end Bourse
