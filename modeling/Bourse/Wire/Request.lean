import Bourse.Json.Printer
import Bourse.Json.Reader
import Bourse.Wire.Frame
import Bourse.Wire.Value

/-!
# `Bourse.Wire.Request` — what a client may ask

A request is one JSON value with the tag of its kind. `Request.read?` accepts an object with the tag and
each field of that kind exactly once, in any order and among any other members, or an array of the tag
and the fields in order. In which words a reader explains that it declines a frame is up to the reader, so
`Request.decode` is given them.
-/

namespace Bourse

/-- A request of a client. -/
inductive Request
  | register (username : String) (passwordHash : Nat)
  | login (username : String) (passwordHash : Nat)
  | balance (user : UserId)
  | activeOffers (user : UserId)
  | closedDeals (user : UserId)
  | postOffer (user : UserId) (side : Side) (price : Price) (amount : Quantity)
  | quotes (user : UserId)
  | cancel (user : UserId) (offer : OfferId)
  | deposit (user : UserId) (currency : Currency) (amount : Quantity)
deriving DecidableEq, Repr

namespace Request

open WireValue

/-- The JSON form of a request. -/
def toJson : Request → Json
  | .register username passwordHash =>
    .tagged "Reg" [("USERNAME", WireValue.toJson username),
      ("PW_HASH", WireValue.toJson passwordHash)]
  | .login username passwordHash =>
    .tagged "Log" [("USERNAME", WireValue.toJson username),
      ("PW_HASH", WireValue.toJson passwordHash)]
  | .balance user => .tagged "Balance" [("USER_ID", WireValue.toJson user)]
  | .activeOffers user => .tagged "Active" [("USER_ID", WireValue.toJson user)]
  | .closedDeals user => .tagged "Deal" [("USER_ID", WireValue.toJson user)]
  | .postOffer user side price amount =>
    .tagged "PostOffer" [("USER_ID", WireValue.toJson user), ("OFFER_SIDE", WireValue.toJson side),
      ("PRICE", WireValue.toJson price), ("AMOUNT", WireValue.toJson amount)]
  | .quotes user => .tagged "Quotes" [("USER_ID", WireValue.toJson user)]
  | .cancel user offer =>
    .tagged "Cancel" [("USER_ID", WireValue.toJson user), ("OFFER_ID", WireValue.toJson offer)]
  | .deposit user currency amount =>
    .tagged "Deposit" [("USER_ID", WireValue.toJson user), ("CURRENCY", WireValue.toJson currency),
      ("AMOUNT", WireValue.toJson amount)]

/-- The request that a tag and the carrier of its fields stand for. -/
def ofBody? (tag : String) (body : Body) : Option Request :=
  match tag with
  | "Reg" => do
    let [username, hash] ← body.fields? ["USERNAME", "PW_HASH"] | none
    return .register (← ofJson? username) (← ofJson? hash)
  | "Log" => do
    let [username, hash] ← body.fields? ["USERNAME", "PW_HASH"] | none
    return .login (← ofJson? username) (← ofJson? hash)
  | "Balance" => do
    let [user] ← body.fields? ["USER_ID"] | none
    return .balance (← ofJson? user)
  | "Active" => do
    let [user] ← body.fields? ["USER_ID"] | none
    return .activeOffers (← ofJson? user)
  | "Deal" => do
    let [user] ← body.fields? ["USER_ID"] | none
    return .closedDeals (← ofJson? user)
  | "PostOffer" => do
    let [user, side, price, amount] ←
      body.fields? ["USER_ID", "OFFER_SIDE", "PRICE", "AMOUNT"] | none
    return .postOffer (← ofJson? user) (← ofJson? side) (← ofJson? price) (← ofJson? amount)
  | "Quotes" => do
    let [user] ← body.fields? ["USER_ID"] | none
    return .quotes (← ofJson? user)
  | "Cancel" => do
    let [user, offer] ← body.fields? ["USER_ID", "OFFER_ID"] | none
    return .cancel (← ofJson? user) (← ofJson? offer)
  | "Deposit" => do
    let [user, currency, amount] ← body.fields? ["USER_ID", "CURRENCY", "AMOUNT"] | none
    return .deposit (← ofJson? user) (← ofJson? currency) (← ofJson? amount)
  | _ => none

/-- The request that a JSON value stands for. -/
def ofValue? (j : Json) : Option Request := do
  let (tag, body) ← Body.tagged? j
  ofBody? tag body

/-- The request that the bytes of a frame stand for. -/
def read? (frame : List UInt8) : Option Request := (Json.read? frame).bind ofValue?

/-- Reads the request in a frame; `explain` is what the reader says of a frame that it declines. -/
def decode (explain : List UInt8 → String) (frame : List UInt8) : Except WireError Request :=
  match read? frame with
  | none => .error (.unreadable (explain frame))
  | some request => .ok request

/-- The text of a request. -/
def text (request : Request) : List Char := request.toJson.render

end Request

end Bourse
