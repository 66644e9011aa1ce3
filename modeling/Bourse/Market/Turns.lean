import Bourse.Market.Matching

/-!
# `Bourse.Market.Turns` — a matching, turn by turn

`matchTaker` tells what a matching comes to. This module also tells how it got there: in every turn the
incoming offer meets the front entry of the best level on the other side, and another turn follows as long
as it is open and there was something to meet.

## Contents
- **Turns.** `Turn`, what it has before it (`waiting`), the entry it handles (`handled?`), what it finds, and
  what it `leaves` to the next.
- **Matchings.** `Market.turns`, the turns that a matching takes, and `Market.lastLeft`, what the last of them
  leaves.
-/

namespace Bourse

/-- One turn of a matching: the market and the incoming offer as they are when it begins. -/
structure Turn (σ : Type) where
  market : Market σ
  taker : Offer

namespace Turn

variable {σ : Type}

/-- The entries on the other side, in matching order. -/
def waiting (turn : Turn σ) : List (Price × QueueEntry) :=
  (turn.market.book turn.taker.side.opposite).ranked

/-- The entry that the turn handles: the oldest at the best price, if the limit admits that price. -/
def handled? (turn : Turn σ) : Option (Price × QueueEntry) :=
  let book := turn.market.book turn.taker.side.opposite
  book.bestPrice?.bind fun price =>
    if turn.taker.side.crosses turn.taker.price price then (book.front? price).map (price, ·) else none

variable [RecordStore σ]

/-- What the incoming offer finds. -/
def found (turn : Turn σ) : Encounter σ := turn.market.meet turn.taker

/-- The market and the incoming offer when the turn is over. -/
def leaves (turn : Turn σ) : Turn σ :=
  match turn.found with
  | .nothing => turn
  | .emptyLevel => turn
  | .expired after => { turn with market := after }
  | .refused _ after => { turn with market := after }
  | .traded _ left after => { market := after, taker := left }

/-- The deal that is made. -/
def deal? (turn : Turn σ) : Option Deal :=
  match turn.found with
  | .traded deal _ _ => some deal
  | _ => none

/-- Why the deal that was made could not be settled. -/
def refusal? (turn : Turn σ) : Option TradeError :=
  match turn.found with
  | .refused cause _ => some cause
  | _ => none

/-- The entries that wait before the turn and no longer do after it. -/
def removed (turn : Turn σ) : List (Price × QueueEntry) :=
  turn.waiting.filter fun x => x ∉ turn.leaves.waiting

end Turn

namespace Market

variable {σ : Type} [RecordStore σ]

/-- The turns that it takes to match an incoming offer. -/
def turns (market : Market σ) (taker : Offer) : List (Turn σ) :=
  if _hopen : taker.isFulfilled then []
  else
    match _h : market.meet taker with
    | .nothing => [{ market, taker }]
    | .emptyLevel => [{ market, taker }]
    | .expired after => { market, taker } :: after.turns taker
    | .refused _ _ => [{ market, taker }]
    | .traded _ left after => { market, taker } :: after.turns left
termination_by market.work taker
decreasing_by
  · exact work_expired ‹_›
  · exact work_traded (by simpa using _hopen) ‹_›

/-- What the last turn leaves; without a turn all is left as it was. -/
def lastLeft (market : Market σ) (taker : Offer) : Turn σ :=
  ((market.turns taker).getLast?.map (·.leaves)).getD { market, taker }

end Market

end Bourse
