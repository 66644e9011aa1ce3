import Bourse.Market.Posting
import Bourse.Market.Quotes
import Bourse.Wire.Frame
import Bourse.Wire.Request
import Bourse.Wire.Response

/-!
# `Bourse.Exchange` — a market with named users

The exchange knows its users by name and password hash. The first who registers a name has it for good.
Every request is answered; a request that the market refuses is answered with the text of the refusal.
-/

namespace Bourse

/-- How a user is known. -/
structure Credential where
  user : UserId
  passwordHash : Nat
deriving DecidableEq, Repr

/-- A market and the names of its users. -/
structure Exchange (σ : Type) where
  market : Market σ
  credentials : SortedMap String Credential := .empty
deriving DecidableEq

namespace Exchange

variable {σ : Type} [RecordStore σ]

/-- Registers a name, unless it is taken. -/
def register (exchange : Exchange σ) (username : String) (passwordHash : Nat) :
    Option UserId × Exchange σ :=
  if exchange.credentials.contains username then (none, exchange)
  else
    let opened := exchange.market.register username
    (some opened.1, {
      market := { opened.2 with
        store := RecordStore.notify opened.2.store (.user opened.1 username passwordHash) }
      credentials := exchange.credentials.insert username { user := opened.1, passwordHash } })

omit [RecordStore σ] in
/-- The user who registered the name with this password hash. -/
def login (exchange : Exchange σ) (username : String) (passwordHash : Nat) : Option UserId :=
  match exchange.credentials.get? username with
  | none => none
  | some credential =>
    if credential.passwordHash = passwordHash then some credential.user else none

/-- Applies an operation of the market. -/
def onMarket {σ α : Type} (exchange : Exchange σ) (operation : Market σ → α × Market σ) :
    α × Exchange σ :=
  let result := operation exchange.market
  (result.1, { exchange with market := result.2 })

/-- Carries out a request, unless it is refused. -/
def perform (exchange : Exchange σ) (request : Request) : Attempt (Exchange σ) Response :=
  match request with
  | .register username passwordHash =>
    let registered := exchange.register username passwordHash
    (.ok (.registration registered.1.isSome registered.1), registered.2)
  | .login username passwordHash =>
    let user := exchange.login username passwordHash
    (.ok (.login user.isSome user), exchange)
  | .balance user =>
    ((exchange.market.balance user).map fun b => .balance b.usd b.rub, exchange)
  | .activeOffers user => ((exchange.market.activeOffers user).map .ofOffers, exchange)
  | .closedDeals user => ((exchange.market.closedDeals user).map (.ofDeals user), exchange)
  | .postOffer user side price amount =>
    let posted := exchange.onMarket fun market => market.post user side price amount
    (posted.1.map fun posting => .postOffer posting.offer, posted.2)
  | .quotes user =>
    match exchange.market.account user with
    | .error cause => (.error cause, exchange)
    | .ok _ =>
      -- the last price is not touched by reading the others
      let read := exchange.onMarket (·.quotes)
      (.ok (.ofQuotes read.2.market.quote read.1), read.2)
  | .cancel user offer =>
    let canceled := exchange.onMarket fun market => market.cancel user offer
    (canceled.1.map .cancel, canceled.2)
  | .deposit user currency amount =>
    let deposited : Attempt (Exchange σ) Unit :=
      exchange.onMarket fun market => market.deposit user currency amount
    deposited.andThen fun _ after =>
      ((after.market.balance user).map fun b => .deposit b.usd b.rub, after)

/-- Answers a request. -/
def handle (exchange : Exchange σ) (request : Request) : Response × Exchange σ :=
  match exchange.perform request with
  | (.ok response, after) => (response, after)
  | (.error cause, after) => (.error cause.message, after)

/-- Answers the request in a frame, unless it cannot be read. -/
def answer (exchange : Exchange σ) (explain : List UInt8 → String) (frame : List UInt8) :
    Except WireError Response × Exchange σ :=
  match Request.decode explain frame with
  | .error cause => (.error cause, exchange)
  | .ok request =>
    let handled := exchange.handle request
    (.ok handled.1, handled.2)

end Exchange

end Bourse
