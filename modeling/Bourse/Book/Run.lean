import Bourse.Book

/-!
# `Bourse.Book.Run` — a book over time

A book is driven by two calls: an entry is queued at a price, or the oldest entry at a price is taken.
This module says what a row of calls does to a book, and what it does to a plain list of the entries that
wait, in order of their arrival. It also says how a book is emptied from its best price on, and how it changes
if it is pruned between the calls.

## Contents
- **Calls.** `Call`, `Book.apply` and `Book.run`.
- **Order of arrival.** `Arrivals.apply` and `Arrivals.run`, the same calls on the plain list.
- **Order of price.** `Side.isNoWorse`, how a side ranks prices, and the stable sort `Side.byPrice`.
- **Emptying a book.** `Book.drain`.
- **Changes.** `Change`, `Book.changed` and `Book.evolve`; `Book.levelsFrom`, the levels as pruning meets them.
-/

namespace Bourse

/-- Of two offers of this side, one at `price` need not come behind one at `other`. -/
def Side.isNoWorse (side : Side) (price other : Price) : Bool :=
  match side with
  | .buy => other ≤ price
  | .sell => price ≤ other

/-- The stable sort by price: what has the same price keeps its order. -/
def Side.byPrice {α : Type} (side : Side) (l : List (Price × α)) : List (Price × α) :=
  l.mergeSort fun a b => side.isNoWorse a.1 b.1

namespace Book

variable {side : Side}

/-! ## Calls -/

/-- What is asked of a book over time. -/
inductive Call
  /-- An entry is queued. -/
  | insert (price : Price) (entry : QueueEntry)
  /-- The oldest entry at a price is taken. -/
  | pop (price : Price)
deriving DecidableEq, Repr

/-- Does one call; gives the entry that is taken. -/
def apply (book : Book side) : Call → Option QueueEntry × Book side
  | .insert price entry => (none, book.insert price entry)
  | .pop price => (book.front? price, book.pop price)

/-- Does one call after the other; gives what each takes. -/
def run (book : Book side) : List Call → List (Option QueueEntry) × Book side
  | [] => ([], book)
  | call :: rest =>
    let first := book.apply call
    let more := first.2.run rest
    (first.1 :: more.1, more.2)

/-! ## Emptying a book -/

/-- Takes the oldest entry at the best price as long as there is one; gives the entries in the order in
    which they are taken, with their prices, and what is left of the book. -/
def drain (book : Book side) : List (Price × QueueEntry) × Book side :=
  match book.bestPrice? with
  | none => ([], book)
  | some price =>
    match _hfront : book.front? price with
    | none => ([], book)
    | some entry =>
      let more := (book.pop price).drain
      ((price, entry) :: more.1, more.2)
termination_by book.size
decreasing_by
  have := size_pop _hfront
  omega

/-! ## Changes -/

/-- What changes a book over time. -/
inductive Change
  /-- A call is made. -/
  | call (call : Call)
  /-- The book is pruned from one end of the price range. -/
  | prune (priceEnd : PriceEnd) (isLive : QueueEntry → Bool)

/-- The book after a change. -/
def changed (book : Book side) : Change → Book side
  | .call call => (book.apply call).2
  | .prune priceEnd isLive => (book.prune priceEnd isLive).2

/-- The book after one change after the other. -/
def evolve (book : Book side) (changes : List Change) : Book side := changes.foldl changed book

/-- The levels and the prices they are filed under, from one end of the price range on. -/
def levelsFrom (book : Book side) (priceEnd : PriceEnd) : List (Price × Level) :=
  match priceEnd with
  | .lowest => book.levels.entries
  | .highest => book.levels.entries.reverse

end Book

/-! ## Order of arrival -/

namespace Arrivals

/-- Does one call to the list of waiting entries, the oldest in front: an entry is queued behind all
    others, whatever their price, and the oldest one at a price is taken. -/
def apply (waiting : List (Price × QueueEntry)) :
    Book.Call → Option QueueEntry × List (Price × QueueEntry)
  | .insert price entry => (none, waiting ++ [(price, entry)])
  | .pop price => ((waiting.find? (·.1 = price)).map (·.2), waiting.eraseP (·.1 = price))

/-- Does one call after the other; gives what each takes. -/
def run (waiting : List (Price × QueueEntry)) :
    List Book.Call → List (Option QueueEntry) × List (Price × QueueEntry)
  | [] => ([], waiting)
  | call :: rest =>
    let first := apply waiting call
    let more := run first.2 rest
    (first.1 :: more.1, more.2)

end Arrivals

end Bourse
