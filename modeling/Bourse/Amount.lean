import Bourse.Word

/-!
# `Bourse.Amount` — ids, quantities, prices and the range of money

Quantities are natural numbers and sums of money are integers, both exact. What an account may hold
is a sum that a signed 64-bit word can hold: `Amount.InRange`. Every operation that would leave that
range is refused before it changes anything, so no arithmetic here wraps.
-/

namespace Bourse

/-- The number of a user. -/
abbrev UserId := Nat

/-- The number of an offer. -/
abbrev OfferId := Nat

/-- The number of a deal. -/
abbrev DealId := Nat

/-- An amount of the traded currency. -/
abbrev Quantity := Nat

/-- The price of one unit of the traded currency; it may be negative. -/
abbrev Price := Int

namespace Amount

/-- A sum that an account can hold. -/
abbrev InRange (x : Int) : Prop := Word.Signed x

/-- What `quantity` units cost at `price`, if both the quantity and the cost are in range. -/
def notional? (price : Price) (quantity : Quantity) : Option Int :=
  if InRange quantity ∧ InRange (price * quantity) then some (price * quantity) else none

theorem notional?_eq_some_iff {price : Price} {quantity : Quantity} {cost : Int} :
    notional? price quantity = some cost ↔
      InRange quantity ∧ InRange (price * quantity) ∧ cost = price * quantity := by
  unfold notional?
  split
  · simp_all [eq_comm]
  · simp_all

end Amount

end Bourse
