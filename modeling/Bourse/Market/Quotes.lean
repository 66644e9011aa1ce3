import Bourse.Market

/-!
# `Bourse.Market.Quotes` — reference prices read off the book

The ask is the lowest price on the buy side at which a live offer rests, the bid the highest such price
on the sell side. Reading them drops the expired entries in front of the offers they are read from.
-/

namespace Bourse

/-- The reference prices of the two sides. -/
structure Quotes where
  /-- The lowest live buy price. -/
  ask : Option Price
  /-- The highest live sell price. -/
  bid : Option Price
deriving DecidableEq, Repr

/-- How far the bid is above the ask, if there are both. -/
def Quotes.spread (quotes : Quotes) : Option Int :=
  match quotes.ask, quotes.bid with
  | some ask, some bid => some (bid - ask)
  | _, _ => none

/-- The end of the prices of a side from which its reference price is read. -/
def Side.quoteEnd : Side → PriceEnd
  | .buy => .lowest
  | .sell => .highest

namespace Market

variable {σ : Type}

/-- The reference price of one side, and the market without the expired entries in front of it. -/
def sideQuote (market : Market σ) (side : Side) : Option Price × Market σ :=
  let pruned := (market.book side).prune side.quoteEnd market.accounts.isLive
  (pruned.1, market.withBook pruned.2)

/-- Both reference prices, and the market without the expired entries in front of them. -/
def quotes (market : Market σ) : Quotes × Market σ :=
  let ask := market.sideQuote .buy
  let bid := ask.2.sideQuote .sell
  ({ ask := ask.1, bid := bid.1 }, bid.2)

end Market

end Bourse
