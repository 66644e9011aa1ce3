import Bourse.Amount

/-!
# `Bourse.Side` — the two sides of a trade

A buy offer names the most its owner pays for a unit, a sell offer the least its owner takes. Each side
is the other one reversed, so everything that depends on the side goes through `opposite`, `crosses`,
`isBetter`, `buyer` and `seller`.
-/

namespace Bourse

/-- Whether an offer buys or sells the traded currency. -/
inductive Side
  | buy
  | sell
deriving DecidableEq, Repr

namespace Side

/-- The side an offer trades against. -/
def opposite : Side → Side
  | .buy => .sell
  | .sell => .buy

@[simp] theorem opposite_opposite (side : Side) : side.opposite.opposite = side := by
  cases side <;> rfl

/-- An offer of this side with the limit `limit` may trade at the price `resting` of an offer of the
    other side. -/
def crosses (side : Side) (limit resting : Price) : Bool :=
  match side with
  | .buy => resting ≤ limit
  | .sell => limit ≤ resting

/-- Of two offers of this side, one at `price` comes before one at `other`: the highest price comes first
    of buy offers, the lowest of sell offers. -/
def isBetter (side : Side) (price other : Price) : Bool :=
  match side with
  | .buy => other < price
  | .sell => price < other

/-- Of the owner of an offer of this side and the owner of one of the other side, who buys. -/
def buyer (side : Side) (own other : UserId) : UserId :=
  match side with
  | .buy => own
  | .sell => other

/-- Of the owner of an offer of this side and the owner of one of the other side, who sells. -/
def seller (side : Side) (own other : UserId) : UserId :=
  match side with
  | .buy => other
  | .sell => own

/-- The side in plain text. -/
def name : Side → String
  | .buy => "Buy"
  | .sell => "Sell"

end Side

end Bourse
