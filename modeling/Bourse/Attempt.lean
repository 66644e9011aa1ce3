import Bourse.Error

/-!
# `Bourse.Attempt` — operations that may be refused

An operation that may be refused gives its answer *and* the state after it. On a refusal that state is
whatever the operation had made of it by then, so that a refusal changes nothing is a fact about the
operation and not a matter of its type.
-/

namespace Bourse

/-- Answers and refusals can be told apart. -/
instance decidableEqExcept {ε α : Type} [DecidableEq ε] [DecidableEq α] :
    DecidableEq (Except ε α)
  | .ok a, .ok b => if h : a = b then isTrue (h ▸ rfl) else isFalse fun he => h (Except.ok.inj he)
  | .error d, .error e =>
    if h : d = e then isTrue (h ▸ rfl) else isFalse fun he => h (Except.error.inj he)
  | .ok _, .error _ => isFalse nofun
  | .error _, .ok _ => isFalse nofun

/-- The answer of an operation or the cause of its refusal, and the state it leaves. -/
abbrev Attempt (σ α : Type) := Except TradeError α × σ

/-- Goes on in the state that an attempt leaves, unless it was refused. -/
def Attempt.andThen {σ α β : Type} (attempt : Attempt σ α) (next : α → σ → Attempt σ β) :
    Attempt σ β :=
  match attempt with
  | (.error cause, state) => (.error cause, state)
  | (.ok answer, state) => next answer state

namespace Attempt

variable {σ α β : Type}

@[simp] theorem andThen_ok (answer : α) (state : σ) (next : α → σ → Attempt σ β) :
    andThen (.ok answer, state) next = next answer state := rfl

@[simp] theorem andThen_error (cause : TradeError) (state : σ) (next : α → σ → Attempt σ β) :
    andThen (.error cause, state) next = (.error cause, state) := rfl

end Attempt

end Bourse
