import Bourse.Exchange
import Bourse.Market.Run

/-!
# `Bourse.Exchange.Run` — an exchange over time

An exchange is driven by requests of clients and, from within, by registrations and by operations on its
market. A run applies them one after the other; the states it can lead to are the reachable ones.

## Contents
- **Events.** `Event`, what each answers (`EventAnswer`), and `apply`.
- **Runs.** `run`.
- **Reachable states.** `Reachable` and `Reachable.run`.
-/

namespace Bourse

namespace Exchange

/-! ## Events -/

/-- What can happen to an exchange. -/
inductive Event
  /-- A client asks for something. -/
  | request (r : Request)
  /-- A name is registered from within. -/
  | register (username : String) (passwordHash : Nat)
  /-- An operation is applied to the market from within. -/
  | market (operation : Operation)
deriving DecidableEq, Repr

/-- What comes back. -/
inductive EventAnswer
  | response (r : Response)
  | registered (user : Option UserId)
  | market (answer : Answer)
deriving DecidableEq, Repr

variable {σ : Type} [RecordStore σ]

/-- Lets one thing happen. -/
def apply (exchange : Exchange σ) : Event → EventAnswer × Exchange σ
  | .request r =>
    let handled := exchange.handle r
    (.response handled.1, handled.2)
  | .register username passwordHash =>
    let registered := exchange.register username passwordHash
    (.registered registered.1, registered.2)
  | .market operation =>
    let applied := exchange.onMarket (·.apply operation)
    (.market applied.1, applied.2)

/-! ## Runs -/

/-- Lets one thing happen after the other; gives what comes back each time. -/
def run (exchange : Exchange σ) : List Event → List EventAnswer × Exchange σ
  | [] => ([], exchange)
  | event :: rest =>
    let first := exchange.apply event
    let more := first.2.run rest
    (first.1 :: more.1, more.2)

@[simp] theorem run_nil (exchange : Exchange σ) : exchange.run [] = ([], exchange) := rfl

@[simp] theorem run_cons (exchange : Exchange σ) (event : Event) (rest : List Event) :
    exchange.run (event :: rest) =
      ((exchange.apply event).1 :: ((exchange.apply event).2.run rest).1,
        ((exchange.apply event).2.run rest).2) := rfl

/-! ## Reachable states -/

/-- The states that an exchange can be in: one without names on a reachable market, and whatever comes of
    it. -/
inductive Reachable : Exchange σ → Prop
  | start {market : Market σ} (h : market.Reachable) : Reachable { market }
  | apply {exchange : Exchange σ} (h : Reachable exchange) (event : Event) :
      Reachable (exchange.apply event).2

/-- A run leads from reachable states to reachable states. -/
theorem Reachable.run {exchange : Exchange σ} (h : exchange.Reachable) (events : List Event) :
    (exchange.run events).2.Reachable := by
  induction events generalizing exchange with
  | nil => exact h
  | cons event rest ih => exact ih (h.apply event)

end Exchange

end Bourse
