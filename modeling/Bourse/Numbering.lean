/-!
# `Bourse.Numbering` — consecutive ids

A market has one numbering for its users, one for its offers and one for its deals. A numbering that goes
on after the largest id in use never gives one out twice. The numbers have no end here. With ids of 64 bits
this is what happens as long as every id given out, and the one after it, is at most 2^64 - 1; past that an
id overflows, which is a panic or a start over at 0.
-/

namespace Bourse

/-- The ids from `next` on. -/
structure Numbering where
  /-- The id given out next. -/
  next : Nat := 0
deriving DecidableEq, Repr

namespace Numbering

/-- The ids that follow the largest one in use, or all of them if none is. -/
def after (largest : Option Nat) : Numbering :=
  match largest with
  | none => {}
  | some id => { next := id + 1 }

/-- The numbering after its next id was given out. -/
def advance (ids : Numbering) : Numbering := { next := ids.next + 1 }

/-- The next `n` ids, and the numbering that is left. -/
def take (ids : Numbering) : Nat → List Nat × Numbering
  | 0 => ([], ids)
  | n + 1 =>
    let more := ids.advance.take n
    (ids.next :: more.1, more.2)

end Numbering

end Bourse
