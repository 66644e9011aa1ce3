import Bourse.Book.Level
import Bourse.Side
import Bourse.SortedMap

/-!
# `Bourse.Book` — one side of the order book

A book keeps one level for each price at which something rests. Matching order is best price first,
which is the highest for buy offers and the lowest for sell offers, and oldest first within a level:
`ranked` lists the whole book in that order.

## Contents
- **Queueing.** `insert`, `bestPrice?`, `front?`, `pop`.
- **Pruning.** `prune` drops expired entries from one end of the price range up to the first live one.
- **Views.** `ranked`, `depth` and `size`, and `size_pop`: a pop that finds an entry leaves one fewer.
- **Both sides.** `Books`, with `get` and `set` by side.
-/

namespace Bourse

/-- The offers of one side that rest in the market, level by level. -/
structure Book (side : Side) where
  levels : SortedMap Price Level := .empty
deriving DecidableEq

/-- An end of the range of prices. -/
inductive PriceEnd
  | lowest
  | highest
deriving DecidableEq, Repr

namespace Book

variable {side : Side}

/-! ## Queueing -/

/-- Queues an entry behind all that rests at `price`. -/
def insert (book : Book side) (price : Price) (entry : QueueEntry) : Book side :=
  let level := (book.levels.get? price).getD { price }
  { levels := book.levels.insert price (level.push entry) }

/-- The price at which the next incoming offer of the other side trades: the highest of buy offers,
    the lowest of sell offers. -/
def bestPrice? (book : Book side) : Option Price :=
  match side with
  | .buy => book.levels.last?.map (·.1)
  | .sell => book.levels.first?.map (·.1)

/-- The oldest entry at `price`. -/
def front? (book : Book side) (price : Price) : Option QueueEntry :=
  (book.levels.get? price).bind (·.front?)

/-- The book without the oldest entry at `price`; a level goes with its last entry. -/
def pop (book : Book side) (price : Price) : Book side :=
  match book.levels.get? price with
  | none => book
  | some level =>
    if level.rest.isEmpty then { levels := book.levels.erase price }
    else { levels := book.levels.modify price (·.rest) }

/-! ## Pruning -/

/-- Drops expired entries from the given end of the price range, and with them the levels they empty,
    up to the first live entry. Gives the price of that entry's level and the book that is left. -/
def prune (book : Book side) (priceEnd : PriceEnd) (isLive : QueueEntry → Bool) :
    Option Price × Book side :=
  match priceEnd with
  | .lowest =>
    let levels := book.levels.trimFirst (·.pruned? isLive)
    (levels.first?.map (·.1), { levels })
  | .highest =>
    let levels := book.levels.trimLast (·.pruned? isLive)
    (levels.last?.map (·.1), { levels })

/-! ## Views -/

/-- The levels, best price first. -/
def rankedLevels (book : Book side) : List Level :=
  match side with
  | .buy => book.levels.values.reverse
  | .sell => book.levels.values

/-- Every entry with its price in matching order, expired ones included. -/
def ranked (book : Book side) : List (Price × QueueEntry) :=
  book.rankedLevels.flatMap fun level => level.queue.map (level.price, ·)

/-- The number of entries at each price, lowest price first. -/
def depth (book : Book side) : List (Price × Nat) :=
  book.levels.values.map fun level => (level.price, level.size)

/-- The number of entries, expired ones included. -/
def size (book : Book side) : Nat := book.levels.weigh (·.size)

/-- Nothing rests on this side. -/
def isEmpty (book : Book side) : Bool := book.levels.isEmpty

/-- Popping an entry leaves one fewer. -/
theorem size_pop {book : Book side} {price : Price} {entry : QueueEntry}
    (h : book.front? price = some entry) : (book.pop price).size + 1 = book.size := by
  obtain ⟨level, hlevel, hfront⟩ := Option.bind_eq_some_iff.mp h
  have hsize : level.rest.size + 1 = level.size := by
    cases hq : level.queue with
    | nil => simp [Level.front?, hq] at hfront
    | cons e rest => simp [Level.rest, Level.size, hq]
  simp only [pop, hlevel, size]
  split
  -- the level goes with its last entry, or it stays with one fewer
  case isTrue hempty =>
    have : level.rest.size = 0 := by
      simpa [Level.isEmpty, Level.size] using hempty
    have := SortedMap.weigh_erase hlevel (·.size)
    dsimp only at this ⊢
    omega
  case isFalse =>
    have := SortedMap.weigh_modify hlevel (·.size) (·.rest)
    dsimp only at this ⊢
    omega

end Book

/-! ## Both sides -/

/-- The books of the two sides. -/
structure Books where
  buy : Book .buy := {}
  sell : Book .sell := {}
deriving DecidableEq

namespace Books

/-- The book of one side. -/
def get (books : Books) : (side : Side) → Book side
  | .buy => books.buy
  | .sell => books.sell

/-- Both books, one of them replaced. -/
def set (books : Books) : {side : Side} → Book side → Books
  | .buy, book => { books with buy := book }
  | .sell, book => { books with sell := book }

@[simp] theorem get_set (books : Books) {side : Side} (book : Book side) :
    (books.set book).get side = book := by
  cases side <;> rfl

end Books

end Bourse
