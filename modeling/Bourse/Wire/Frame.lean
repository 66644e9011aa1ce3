/-!
# `Bourse.Wire.Frame` — frames in a stream of bytes

A frame ends at a line end or a NUL. A `Framer` splits a stream that arrives in pieces: `feed` takes a
piece, `next` gives one frame or one error, `finish` gives what is left when the stream ends. A frame that
is too long is reported once, as soon as that is certain, and the rest of it is dropped as it arrives.
Blank frames are passed over.

## Contents
- **Errors.** `WireError`, the ways in which a frame fails.
- **Streams.** `Frame.segments` splits a whole stream, `Frame.outcome?` says what becomes of one segment,
  and `Frame.outcomes` is the row of what becomes of all.
- **Framers.** `feed`, `next`, `finish` and `drain`. Each call of `next` that gives anything shortens the
  buffer (`length_next`), so that `drain` ends.
-/

namespace Bourse

/-! ## Errors -/

/-- Why a frame gives no request. -/
inductive WireError
  /-- The reader of requests declines it, for this reason. -/
  | unreadable (reason : String)
  /-- It has more bytes than this. -/
  | tooLong (limit : Nat)
deriving DecidableEq, Repr

/-- The text of the error. -/
def WireError.message : WireError → String
  | .unreadable reason => s!"malformed request: {reason}"
  | .tooLong limit => s!"frame exceeds {limit} bytes"

/-! ## Bytes -/

namespace Frame

/-- The byte ends a frame. -/
def endsFrame (b : UInt8) : Bool := b = 0x0a || b = 0

/-- The byte is white space in ASCII. -/
def isSpace (b : UInt8) : Bool := b = 0x20 || b = 0x09 || b = 0x0a || b = 0x0c || b = 0x0d

/-- The bytes are all white space. -/
def isBlank (bytes : List UInt8) : Bool := bytes.all isSpace

/-- The bytes in front of the first terminator. -/
def head (bytes : List UInt8) : List UInt8 := bytes.takeWhile fun b => !endsFrame b

/-- The first terminator and the bytes behind it. -/
def tail (bytes : List UInt8) : List UInt8 := bytes.dropWhile fun b => !endsFrame b

theorem length_tail {bytes rest : List UInt8} {b : UInt8} (h : tail bytes = b :: rest) :
    rest.length < bytes.length := by
  have hle := (List.dropWhile_sublist (fun b => !endsFrame b) (l := bytes)).length_le
  rw [show List.dropWhile _ bytes = b :: rest from h, List.length_cons] at hle
  exact hle

/-! ## Whole streams -/

/-- The parts of a stream between its terminators; there is always a last one, which nothing ends. -/
def segments : List UInt8 → List (List UInt8)
  | [] => [[]]
  | b :: rest =>
    if endsFrame b then [] :: segments rest
    else
      match segments rest with
      | [] => [[b]]
      | first :: more => (b :: first) :: more

/-- What becomes of one segment: an error, a frame, or nothing. -/
def outcome? (limit : Nat) (segment : List UInt8) : Option (Except WireError (List UInt8)) :=
  if limit < segment.length then some (.error (.tooLong limit))
  else if isBlank segment then none
  else some (.ok segment)

/-- The frames and errors of a whole stream. -/
def outcomes (limit : Nat) (stream : List UInt8) : List (Except WireError (List UInt8)) :=
  (segments stream).filterMap (outcome? limit)

end Frame

/-! ## Framers -/

/-- A splitter of a stream that arrives in pieces. -/
structure Framer where
  /-- The greatest number of bytes in a frame. -/
  limit : Nat
  /-- The bytes that have arrived and were not given out. -/
  buffer : List UInt8 := []
  /-- The bytes up to the next terminator belong to a frame that was reported as too long. -/
  skipping : Bool := false
deriving DecidableEq, Repr

namespace Framer

/-- Takes the next bytes of the stream. -/
def feed (framer : Framer) (bytes : List UInt8) : Framer :=
  { framer with buffer := framer.buffer ++ bytes }

/-- The next frame, or nothing if none is complete, or the error of a frame that is too long. -/
def next (framer : Framer) : Except WireError (Option (List UInt8)) × Framer :=
  match _h : Frame.tail framer.buffer with
  | [] =>
    -- the frame has not ended yet
    if framer.skipping then (.ok none, { framer with buffer := [] })
    else if framer.limit < framer.buffer.length then
      (.error (.tooLong framer.limit), { framer with buffer := [], skipping := true })
    else (.ok none, framer)
  | _ :: rest =>
    -- a frame that was reported before ends here without another word
    if framer.skipping then next { framer with buffer := rest, skipping := false }
    else if framer.limit < (Frame.head framer.buffer).length then
      (.error (.tooLong framer.limit), { framer with buffer := rest })
    else if Frame.isBlank (Frame.head framer.buffer) then next { framer with buffer := rest }
    else (.ok (some (Frame.head framer.buffer)), { framer with buffer := rest })
termination_by framer.buffer.length
decreasing_by all_goals exact Frame.length_tail _h

/-- The bytes left at the end of the stream, if they make a frame. The framer starts afresh. -/
def finish (framer : Framer) : Option (List UInt8) × Framer :=
  (if framer.skipping || Frame.isBlank framer.buffer then none else some framer.buffer,
    { limit := framer.limit })

/-- A call that gives a frame or an error shortens the buffer. -/
theorem length_next {framer : Framer} (h : framer.next.1 ≠ .ok none) :
    framer.next.2.buffer.length < framer.buffer.length := by
  fun_induction next framer with
  | case1 => exact absurd rfl h
  | case2 framer _ _ hlong =>
    simp only [List.length_nil]
    omega
  | case3 => exact absurd rfl h
  | case4 framer b rest htail _ ih => exact Nat.lt_trans (ih h) (Frame.length_tail htail)
  | case5 framer b rest htail => exact Frame.length_tail htail
  | case6 framer b rest htail _ _ _ ih => exact Nat.lt_trans (ih h) (Frame.length_tail htail)
  | case7 framer b rest htail => exact Frame.length_tail htail

/-- All frames and errors that can be given out now, and the framer after them. -/
def drain (framer : Framer) : List (Except WireError (List UInt8)) × Framer :=
  match _h : framer.next with
  | (.ok none, left) => ([], left)
  | (.ok (some frame), left) =>
    let more := left.drain
    (.ok frame :: more.1, more.2)
  | (.error e, left) =>
    let more := left.drain
    (.error e :: more.1, more.2)
termination_by framer.buffer.length
decreasing_by
  all_goals
    have := @length_next framer (by simp [_h])
    simpa [_h] using this

end Framer

end Bourse
