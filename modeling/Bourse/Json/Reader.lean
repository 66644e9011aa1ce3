import Bourse.Json.Token
import Bourse.Text

/-!
# `Bourse.Json.Reader` — from pieces to a value

The reader takes one piece after the other and keeps the containers whose end has not come yet on a
stack, the innermost first. At most `maxDepth` of them may be open at once. `Json.read?` reads a value
from bytes: UTF-8 throughout, one value, and nothing else but space around it.
-/

namespace Bourse.Json

/-- The greatest number of containers that are open at once. -/
def maxDepth : Nat := 127

namespace Reader

/-- A container that is still open, with what it holds so far, last first. -/
inductive Open
  | array (items : List Json)
  | object (members : List (String × Json))
  /-- An object of which a key has been read and its value has not. -/
  | member (members : List (String × Json)) (key : String)
deriving Repr

/-- What may come next. -/
inductive Expected
  | value
  | firstItem
  | firstKey
  | key
  | colon
  | separator
  /-- Nothing: the value is complete. -/
  | nothing (v : Json)
deriving Repr

/-- How far the reader has come. -/
structure State where
  stack : List Open := []
  expected : Expected := .value
deriving Repr

/-- A value has ended, within the containers of `stack`. -/
def finish (v : Json) : List Open → Option State
  | [] => some { expected := .nothing v }
  | .array items :: rest => some { stack := .array (v :: items) :: rest, expected := .separator }
  | .member members key :: rest =>
    some { stack := .object ((key, v) :: members) :: rest, expected := .separator }
  | .object _ :: _ => none

/-- A value begins, within the containers of `stack`. -/
def begin? (stack : List Open) : Token → Option State
  | .value v => finish v stack
  | .openArray =>
    if stack.length < maxDepth then some { stack := .array [] :: stack, expected := .firstItem }
    else none
  | .openObject =>
    if stack.length < maxDepth then some { stack := .object [] :: stack, expected := .firstKey }
    else none
  | _ => none

/-- The key of a member. -/
def key? : List Open → Token → Option State
  | .object members :: rest, .value (.string key) =>
    some { stack := .member members key :: rest, expected := .colon }
  | _, _ => none

/-- The end of the innermost container. -/
def close? : List Open → Token → Option State
  | .array items :: rest, .closeArray => finish (.array items.reverse) rest
  | .object members :: rest, .closeObject => finish (.object members.reverse) rest
  | _, _ => none

/-- A comma within the innermost container. -/
def comma? : List Open → Option State
  | stack@(.array _ :: _) => some { stack, expected := .value }
  | stack@(.object _ :: _) => some { stack, expected := .key }
  | _ => none

/-- Takes the next piece. -/
def step (state : State) (t : Token) : Option State :=
  match state.expected, t with
  | .value, t => begin? state.stack t
  | .firstItem, .closeArray => close? state.stack .closeArray
  | .firstItem, t => begin? state.stack t
  | .firstKey, .closeObject => close? state.stack .closeObject
  | .firstKey, t => key? state.stack t
  | .key, t => key? state.stack t
  | .colon, .colon => some { state with expected := .value }
  | .separator, .comma => comma? state.stack
  | .separator, t => close? state.stack t
  | _, _ => none

/-- The value of a row of pieces. -/
def value? (pieces : List Token) : Option Json :=
  match pieces.foldlM step {} with
  | some { expected := .nothing v, .. } => some v
  | _ => none

end Reader

/-- Reads a value from characters. -/
def parse? (text : List Char) : Option Json := (Token.all? text).bind Reader.value?

/-- Reads a value from bytes. -/
def read? (bytes : List UInt8) : Option Json := (Text.Utf8.decode? bytes).bind parse?

end Bourse.Json
