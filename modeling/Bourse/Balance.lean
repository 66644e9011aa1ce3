import Bourse.Amount

/-!
# `Bourse.Balance` — the two sums of an account

USD is the currency that is traded, RUB the one that prices are in. A balance may be negative; what it
may not do is leave `Amount.InRange`, so each change gives the new balance or nothing.
-/

namespace Bourse

/-- The currencies an account holds: the traded one and the one of prices. -/
inductive Currency
  | usd
  | rub
deriving DecidableEq, Repr

/-- The sums held in the two currencies. -/
structure Balance where
  usd : Int := 0
  rub : Int := 0
deriving DecidableEq, Repr

namespace Balance

instance : Inhabited Balance := ⟨{}⟩

/-- Both sums are in range. -/
def InRange (b : Balance) : Prop := Amount.InRange b.usd ∧ Amount.InRange b.rub

instance (b : Balance) : Decidable b.InRange := inferInstanceAs (Decidable (_ ∧ _))

/-- The balance itself, if it is in range. -/
def checked? (b : Balance) : Option Balance := if b.InRange then some b else none

/-- The balance after both sums are shifted. -/
def shifted? (b : Balance) (usd rub : Int) : Option Balance :=
  checked? { usd := b.usd + usd, rub := b.rub + rub }

/-- The balance after `usd` is bought for `rub`. -/
def bought? (b : Balance) (usd rub : Int) : Option Balance :=
  checked? { usd := b.usd + usd, rub := b.rub - rub }

/-- The balance after `usd` is sold for `rub`. -/
def sold? (b : Balance) (usd rub : Int) : Option Balance :=
  checked? { usd := b.usd - usd, rub := b.rub + rub }

theorem checked?_eq_some_iff {b c : Balance} : b.checked? = some c ↔ b.InRange ∧ c = b := by
  unfold checked?
  split
  · simp_all [eq_comm]
  · simp_all

end Balance

end Bourse
