import Bourse.Json.Printer
import Bourse.Json.Reader
import Bourse.Market.Quotes
import Bourse.Wire.Value

/-!
# `Bourse.Wire.Response` — what a client is told

A response is one line: the JSON text of its tag and fields, and a line end. Reports of offers and of
deals are sorted into lists by side. A response is read by the same rules as a request; the spread of
quotes is only read back when it is null.
-/

namespace Bourse

/-- A line of a report of offers. -/
structure OfferLine where
  offer : OfferId
  price : Price
  amount : Quantity
deriving DecidableEq, Repr

/-- A line of a report of deals. -/
structure DealLine where
  price : Price
  amount : Quantity
deriving DecidableEq, Repr

/-- An answer to a client. -/
inductive Response
  | registration (success : Bool) (user : Option UserId)
  | login (success : Bool) (user : Option UserId)
  | balance (usd rub : Int)
  | activeOffers (buy sell : List OfferLine)
  | closedDeals (buy sell both : List DealLine)
  | quotes (last ask bid : Option Price) (spread : Option Int)
  | cancel (success : Bool)
  | postOffer (offer : OfferId)
  | deposit (usd rub : Int)
  | error (message : String)
deriving DecidableEq, Repr

/-! ## Lines of reports -/

instance : WireValue OfferLine where
  toJson e := .object [("OFFER_ID", WireValue.toJson e.offer), ("PRICE", WireValue.toJson e.price),
    ("AMOUNT", WireValue.toJson e.amount)]
  ofJson? j := do
    let body ← Body.ofJson? j
    let [offer, price, amount] ← body.fields? ["OFFER_ID", "PRICE", "AMOUNT"] | none
    return {
      offer := ← WireValue.ofJson? offer
      price := ← WireValue.ofJson? price
      amount := ← WireValue.ofJson? amount }

instance : WireValue DealLine where
  toJson e := .object [("PRICE", WireValue.toJson e.price), ("AMOUNT", WireValue.toJson e.amount)]
  ofJson? j := do
    let body ← Body.ofJson? j
    let [price, amount] ← body.fields? ["PRICE", "AMOUNT"] | none
    return { price := ← WireValue.ofJson? price, amount := ← WireValue.ofJson? amount }

/-- The line of an offer: what is left of it. -/
def Offer.toLine (offer : Offer) : OfferLine where
  offer := offer.id
  price := offer.price
  amount := offer.remaining

/-- The line of a deal. -/
def Deal.toLine (deal : Deal) : DealLine where
  price := deal.price
  amount := deal.quantity

namespace Response

/-! ## Reports -/

/-- The report of a user's active offers, by side. -/
def ofOffers (offers : List Offer) : Response :=
  .activeOffers ((offers.filter (·.side = .buy)).map (·.toLine))
    ((offers.filter (·.side = .sell)).map (·.toLine))

/-- The report of a user's deals: bought from others, sold to others, and both from and to
    themselves. -/
def ofDeals (user : UserId) (deals : List Deal) : Response :=
  -- of two parties that differ, the user is the one or the other
  let others := deals.filter fun deal => !deal.isSelfTrade
  .closedDeals ((others.filter (·.buyer = user)).map (·.toLine))
    ((others.filter (·.buyer ≠ user)).map (·.toLine))
    ((deals.filter (·.isSelfTrade)).map (·.toLine))

/-- The report of the last price and the reference prices. -/
def ofQuotes (last : Option Price) (quotes : Quotes) : Response :=
  .quotes last quotes.ask quotes.bid quotes.spread

/-! ## Writing -/

/-- The JSON form of a response. -/
def toJson : Response → Json
  | .registration success user =>
    .tagged "RegConf" [("SUCCESS", WireValue.toJson success), ("USER_ID", WireValue.toJson user)]
  | .login success user =>
    .tagged "Log" [("SUCCESS", WireValue.toJson success), ("USER_ID", WireValue.toJson user)]
  | .balance usd rub =>
    .tagged "Balance" [("USD", WireValue.toJson usd), ("RUB", WireValue.toJson rub)]
  | .activeOffers buy sell =>
    .tagged "Active" [("BUY", WireValue.toJson buy), ("SELL", WireValue.toJson sell)]
  | .closedDeals buy sell both =>
    .tagged "Deal" [("BUY", WireValue.toJson buy), ("SELL", WireValue.toJson sell),
      ("BUY-SELL", WireValue.toJson both)]
  | .quotes last ask bid spread =>
    .tagged "Quotes" [("QUOTE", WireValue.toJson last), ("ASK_QUOTE", WireValue.toJson ask),
      ("BID_QUOTE", WireValue.toJson bid), ("SPREAD", WireValue.toJson spread)]
  | .cancel success => .tagged "Cancel" [("SUCCESS", WireValue.toJson success)]
  | .postOffer offer => .tagged "PostOffer" [("OFFER_ID", WireValue.toJson offer)]
  | .deposit usd rub =>
    .tagged "Deposit" [("USD", WireValue.toJson usd), ("RUB", WireValue.toJson rub)]
  | .error message => .tagged "Error" [("MESSAGE", WireValue.toJson message)]

/-- The text of a response, without its line end. -/
def text (response : Response) : List Char := response.toJson.render

/-- The bytes of a response: its text and a line end. -/
def encode (response : Response) : List UInt8 := Text.Utf8.encode (response.text ++ ['\n'])

/-! ## Reading -/

/-- The spread of quotes, which is only read when there is none. -/
def spread? : Json → Option (Option Int)
  | .null => some none
  | _ => none

/-- The response that a tag and the carrier of its fields stand for. -/
def ofBody? (tag : String) (body : Body) : Option Response :=
  match tag with
  | "RegConf" => do
    let [success, user] ← body.fields? ["SUCCESS", ⟨"USER_ID", true⟩] | none
    return .registration (← WireValue.ofJson? success) (← WireValue.ofJson? user)
  | "Log" => do
    let [success, user] ← body.fields? ["SUCCESS", ⟨"USER_ID", true⟩] | none
    return .login (← WireValue.ofJson? success) (← WireValue.ofJson? user)
  | "Balance" => do
    let [usd, rub] ← body.fields? ["USD", "RUB"] | none
    return .balance (← WireValue.ofJson? usd) (← WireValue.ofJson? rub)
  | "Active" => do
    let [buy, sell] ← body.fields? ["BUY", "SELL"] | none
    return .activeOffers (← WireValue.ofJson? buy) (← WireValue.ofJson? sell)
  | "Deal" => do
    let [buy, sell, both] ← body.fields? ["BUY", "SELL", "BUY-SELL"] | none
    return .closedDeals (← WireValue.ofJson? buy) (← WireValue.ofJson? sell)
      (← WireValue.ofJson? both)
  | "Quotes" => do
    let [last, ask, bid, spread] ←
      body.fields? [⟨"QUOTE", true⟩, ⟨"ASK_QUOTE", true⟩, ⟨"BID_QUOTE", true⟩, ⟨"SPREAD", true⟩]
      | none
    return .quotes (← WireValue.ofJson? last) (← WireValue.ofJson? ask) (← WireValue.ofJson? bid)
      (← spread? spread)
  | "Cancel" => do
    let [success] ← body.fields? ["SUCCESS"] | none
    return .cancel (← WireValue.ofJson? success)
  | "PostOffer" => do
    let [offer] ← body.fields? ["OFFER_ID"] | none
    return .postOffer (← WireValue.ofJson? offer)
  | "Deposit" => do
    let [usd, rub] ← body.fields? ["USD", "RUB"] | none
    return .deposit (← WireValue.ofJson? usd) (← WireValue.ofJson? rub)
  | "Error" => do
    let [message] ← body.fields? ["MESSAGE"] | none
    return .error (← WireValue.ofJson? message)
  | _ => none

/-- The response that a JSON value stands for. -/
def ofValue? (j : Json) : Option Response := do
  let (tag, body) ← Body.tagged? j
  ofBody? tag body

/-- The response that bytes stand for; space may follow it. -/
def read? (bytes : List UInt8) : Option Response := (Json.read? bytes).bind ofValue?

end Response

end Bourse
