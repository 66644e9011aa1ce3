import Bourse.Amount

/-!
# `Bourse.Book.Level` — the queue at one price

A level lists the offers that rest at its price, the oldest in front. It names offers and does not hold
them: an entry whose offer is no longer active has expired and is dropped when it comes to the front.
-/

namespace Bourse

/-- A resting offer, by its number and its owner. -/
structure QueueEntry where
  offer : OfferId
  owner : UserId
deriving DecidableEq, Repr

/-- The entries resting at one price. -/
structure Level where
  price : Price
  /-- The entries, oldest first. -/
  queue : List QueueEntry := []
deriving DecidableEq, Repr

namespace Level

/-- The number of entries. -/
def size (level : Level) : Nat := level.queue.length

/-- Nothing rests here. -/
def isEmpty (level : Level) : Bool := level.queue.isEmpty

/-- Adds an entry behind all others. -/
def push (level : Level) (entry : QueueEntry) : Level :=
  { level with queue := level.queue ++ [entry] }

/-- The oldest entry. -/
def front? (level : Level) : Option QueueEntry := level.queue.head?

/-- The level without its oldest entry. -/
def rest (level : Level) : Level := { level with queue := level.queue.tail }

/-- The level from its first live entry on, if it has one. -/
def pruned? (level : Level) (isLive : QueueEntry → Bool) : Option Level :=
  match level.queue.dropWhile (fun entry => !isLive entry) with
  | [] => none
  | queue => some { level with queue }

end Level

end Bourse
