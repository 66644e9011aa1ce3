import Bourse.Wire.Frame

/-!
# `Bourse.Wire.Frame.Run` — a framer over time

While a stream lasts, pieces of it are fed to a framer and frames are asked for, in any order: a run of
`Call`s. What it gives are the frames and the errors; that nothing is complete yet is not counted.

A framer may be used for one stream after the other, so among its `Use`s are the ends of streams. A `Metered`
framer is one of which it is known how much it was fed since it last had nothing to give.
-/

namespace Bourse

namespace Framer

/-- What is done with a framer while the stream lasts. -/
inductive Call
  | feed (bytes : List UInt8)
  | next
deriving DecidableEq, Repr

/-- The bytes that a row of calls feeds. -/
def Call.stream : List Call → List UInt8
  | [] => []
  | .feed bytes :: rest => bytes ++ stream rest
  | .next :: rest => stream rest

/-- The frame or the error that `next` gave, if it gave one. -/
def given? : Except WireError (Option (List UInt8)) → Option (Except WireError (List UInt8))
  | .ok none => none
  | .ok (some frame) => some (.ok frame)
  | .error cause => some (.error cause)

/-- Makes one call after the other; gives the frames and the errors that come of them. -/
def run (framer : Framer) : List Call → List (Except WireError (List UInt8)) × Framer
  | [] => ([], framer)
  | .feed bytes :: rest => (framer.feed bytes).run rest
  | .next :: rest =>
    let more := framer.next.2.run rest
    ((given? framer.next.1).toList ++ more.1, more.2)

/-- The framer after `next` was called so many times. -/
def advance (framer : Framer) : Nat → Framer
  | 0 => framer
  | times + 1 => framer.next.2.advance times

/-! ## One stream after the other -/

/-- What is done with a framer. -/
inductive Use
  | call (call : Call)
  | finish
deriving DecidableEq, Repr

/-- A framer and the number of bytes it was fed since `next` last gave nothing, or since it was new. -/
structure Metered where
  framer : Framer
  fed : Nat := 0
deriving DecidableEq, Repr

/-- Uses the framer once. -/
def Metered.use (metered : Metered) : Use → Metered
  | .call (.feed bytes) => { framer := metered.framer.feed bytes, fed := metered.fed + bytes.length }
  | .call .next =>
    match metered.framer.next with
    | (.ok none, left) => { framer := left }
    | (_, left) => { metered with framer := left }
  | .finish => { metered with framer := metered.framer.finish.2 }

/-- A framer that takes frames of at most `limit` bytes, after it was used in this way from the start. -/
def used (limit : Nat) (uses : List Use) : Metered := uses.foldl Metered.use { framer := { limit } }

end Framer

end Bourse
