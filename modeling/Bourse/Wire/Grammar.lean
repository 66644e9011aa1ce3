import Bourse.Json.Grammar
import Bourse.Wire.Request
import Mathlib.Data.List.Forall2

/-!
# `Bourse.Wire.Grammar` — which frames carry a request

The grammar of requests, said without reading anything: which values stand for a part of a request, which
members or items carry its parts, and hence which bytes carry a request.

## Contents
- **Parts.** `Json.IsUnsigned`, `Json.IsSigned` and `Json.IsChoice`; a text stands for itself.
- **Requests.** `Request.tag` and `Request.fields` describe a request; `Request.CarriedBy` are the values that
  carry it, `Request.InFrame` the frames.
- **Names.** `Request.names` are the names that matter to a request, `Request.known` those that matter to any.
-/

namespace Bourse

/-! ## Parts -/

namespace Json

/-- The value is the number, and an unsigned word can hold it. -/
def IsUnsigned (n : Nat) (v : Json) : Prop := v = .int n ∧ Word.Unsigned n

/-- The value is the number, and a signed word can hold it. -/
def IsSigned (i : Int) (v : Json) : Prop := v = .int i ∧ Word.Signed i

/-- The value is the name, or an object with the name as its only key and nothing behind it. -/
def IsChoice (name : String) (v : Json) : Prop :=
  v = .string name ∨ v = .object [(name, .null)] ∨ v = .object [(name, .object [])]

/-- The name occurs once among the members, and its value is as described. -/
def OccursOnce (ms : List (String × Json)) (name : String) (IsPart : Json → Prop) : Prop :=
  ∃ v, ms.filter (·.1 = name) = [(name, v)] ∧ IsPart v

end Json

/-- The name of a side on the wire. -/
def Side.wireName : Side → String
  | .buy => "BUY"
  | .sell => "SELL"

/-- The name of a currency on the wire. -/
def Currency.wireName : Currency → String
  | .usd => "USD"
  | .rub => "RUB"

/-! ## Requests -/

namespace Request

open Json

/-- The tag of the kind of a request. -/
def tag : Request → String
  | .register .. => "Reg"
  | .login .. => "Log"
  | .balance .. => "Balance"
  | .activeOffers .. => "Active"
  | .closedDeals .. => "Deal"
  | .postOffer .. => "PostOffer"
  | .quotes .. => "Quotes"
  | .cancel .. => "Cancel"
  | .deposit .. => "Deposit"

/-- The fields of a request in their order, each with the values that stand for what it holds. -/
def fields : Request → List (String × (Json → Prop))
  | .register username passwordHash =>
    [("USERNAME", (· = .string username)), ("PW_HASH", IsUnsigned passwordHash)]
  | .login username passwordHash =>
    [("USERNAME", (· = .string username)), ("PW_HASH", IsUnsigned passwordHash)]
  | .balance user => [("USER_ID", IsUnsigned user)]
  | .activeOffers user => [("USER_ID", IsUnsigned user)]
  | .closedDeals user => [("USER_ID", IsUnsigned user)]
  | .postOffer user side price amount =>
    [("USER_ID", IsUnsigned user), ("OFFER_SIDE", IsChoice side.wireName), ("PRICE", IsSigned price),
      ("AMOUNT", IsUnsigned amount)]
  | .quotes user => [("USER_ID", IsUnsigned user)]
  | .cancel user offer => [("USER_ID", IsUnsigned user), ("OFFER_ID", IsUnsigned offer)]
  | .deposit user currency amount =>
    [("USER_ID", IsUnsigned user), ("CURRENCY", IsChoice currency.wireName), ("AMOUNT", IsUnsigned amount)]

/-- The values that carry a request. -/
inductive CarriedBy (r : Request) : Json → Prop
  /-- An object with the tag and each field once; whatever else is in it does not matter, nor does the
  order. -/
  | object {ms : List (String × Json)} (htag : OccursOnce ms "TYPE" (· = .string r.tag))
      (hfields : ∀ field ∈ r.fields, OccursOnce ms field.1 field.2) : CarriedBy r (.object ms)
  /-- An array of the tag and the fields in their order, and nothing else. -/
  | array {values : List Json} (h : List.Forall₂ (fun field v => field.2 v) r.fields values) :
      CarriedBy r (.array (.string r.tag :: values))

/-- The frames that carry a request. -/
def InFrame (r : Request) (frame : List UInt8) : Prop := ∃ v, WrittenBytes frame v ∧ r.CarriedBy v

/-! ## Names -/

/-- The names of the members that carry a request. -/
def names (r : Request) : List String := "TYPE" :: r.fields.map (·.1)

/-- The names of the members that carry some request. -/
def known : List String :=
  ["TYPE", "USERNAME", "PW_HASH", "USER_ID", "OFFER_SIDE", "PRICE", "AMOUNT", "OFFER_ID", "CURRENCY"]

end Request

end Bourse
