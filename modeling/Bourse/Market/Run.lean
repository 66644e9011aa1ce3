import Bourse.Market.Posting
import Bourse.Market.Quotes
import Bourse.Market.Setup

/-!
# `Bourse.Market.Run` — a market over time

What happens to a market is a row of operations, each applied to the state that the one before it left.
The states that come about in this way from a start are the reachable ones.

## Contents
- **Operations.** `Operation`, what each answers (`Answer`), and `apply`.
- **Runs.** `run` applies a row of operations.
- **Reachable states.** `Reachable`, with `Reachable.run` and the rule `Reachable.invariant`: what a start
  has and every operation keeps, every reachable state has.
-/

namespace Bourse

/-! ## Operations -/

/-- An operation that can change a market. -/
inductive Operation
  | register (username : String)
  | deposit (user : UserId) (currency : Currency) (amount : Nat)
  | post (user : UserId) (side : Side) (price : Price) (quantity : Quantity)
  | cancel (user : UserId) (offer : OfferId)
  | quotes
deriving DecidableEq, Repr

/-- What an operation answers. -/
inductive Answer
  | registered (user : UserId)
  | deposited (result : Except TradeError Unit)
  | posted (result : Except TradeError Posting)
  | canceled (result : Except TradeError Bool)
  | quoted (quotes : Quotes)
deriving DecidableEq, Repr

namespace Market

variable {σ : Type} [RecordStore σ]

/-- Applies one operation. -/
def apply (market : Market σ) : Operation → Answer × Market σ
  | .register username =>
    let registered := market.register username
    (.registered registered.1, registered.2)
  | .deposit user currency amount =>
    let deposited := market.deposit user currency amount
    (.deposited deposited.1, deposited.2)
  | .post user side price quantity =>
    let posted := market.post user side price quantity
    (.posted posted.1, posted.2)
  | .cancel user offer =>
    let canceled := market.cancel user offer
    (.canceled canceled.1, canceled.2)
  | .quotes =>
    let quoted := market.quotes
    (.quoted quoted.1, quoted.2)

/-! ## Runs -/

/-- Applies a row of operations; gives the answer to each. -/
def run (market : Market σ) : List Operation → List Answer × Market σ
  | [] => ([], market)
  | operation :: rest =>
    let first := market.apply operation
    let more := first.2.run rest
    (first.1 :: more.1, more.2)

@[simp] theorem run_nil (market : Market σ) : market.run [] = ([], market) := rfl

@[simp] theorem run_cons (market : Market σ) (operation : Operation) (rest : List Operation) :
    market.run (operation :: rest) =
      ((market.apply operation).1 :: ((market.apply operation).2.run rest).1,
        ((market.apply operation).2.run rest).2) := rfl

/-! ## Reachable states -/

/-- The states that a market can be in: a start, and whatever operations make of it. -/
inductive Reachable : Market σ → Prop
  | start {store : σ} {seed : Bool} {market : Market σ} (h : start store seed = .ok market) :
      Reachable market
  | apply {market : Market σ} (h : Reachable market) (operation : Operation) :
      Reachable (market.apply operation).2

/-- A run leads from reachable states to reachable states. -/
theorem Reachable.run {market : Market σ} (h : market.Reachable) (operations : List Operation) :
    (market.run operations).2.Reachable := by
  induction operations generalizing market with
  | nil => exact h
  | cons operation rest ih => exact ih (h.apply operation)

/-- What every start has and every operation keeps, every reachable state has. -/
theorem Reachable.invariant {P : Market σ → Prop}
    (hstart : ∀ {store : σ} {seed : Bool} {market : Market σ},
      Market.start store seed = .ok market → P market)
    (hstep : ∀ {market : Market σ}, market.Reachable → P market → ∀ operation : Operation,
      P (market.apply operation).2)
    {market : Market σ} (h : market.Reachable) : P market := by
  induction h with
  | start hs => exact hstart hs
  | apply h operation ih => exact hstep h ih operation

end Market

end Bourse
