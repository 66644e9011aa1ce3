import Bourse.Wire.Frame.Run
import Mathlib.Data.List.TakeWhile

/-!
# `Bourse.Proofs.Framing` — frames do not depend on the pieces of the stream

What is still to come out of a framer is a function of its state and of the rest of the stream: `Framer.due`.
Feeding a piece moves bytes from the rest into the buffer and leaves it as it is; a call of `next` takes its
first outcome away. So a run gives the outcomes of the whole stream, whatever its pieces and wherever frames
are asked for in between.
-/

namespace Bourse

/-! ## Segments -/

namespace Frame

/-- The bytes in front of the first terminator have none. -/
theorem endsFrame_of_mem_head {bytes : List UInt8} {b : UInt8} (h : b ∈ head bytes) :
    endsFrame b = false := by
  simpa using List.mem_takeWhile_imp h

theorem head_append_tail (bytes : List UInt8) : head bytes ++ tail bytes = bytes :=
  List.takeWhile_append_dropWhile

/-- What is behind the bytes without a terminator begins with one. -/
theorem endsFrame_of_tail {bytes rest : List UInt8} {b : UInt8} (h : tail bytes = b :: rest) :
    endsFrame b = true := by
  have := List.head?_dropWhile_not (fun b => !endsFrame b) bytes
  rw [show List.dropWhile _ bytes = b :: rest from h] at this
  simpa using this

/-- Without a terminator all is in front of the first one. -/
theorem endsFrame_of_tail_nil {bytes : List UInt8} (h : tail bytes = []) :
    ∀ b ∈ bytes, endsFrame b = false := by
  intro b hb
  rw [← head_append_tail bytes, h, List.append_nil] at hb
  exact endsFrame_of_mem_head hb

/-- The segments are what stands between the terminators. -/
theorem segments_eq_splitOnP (stream : List UInt8) : segments stream = stream.splitOnP endsFrame := by
  induction stream with
  | nil => rw [segments, List.splitOnP_nil]
  | cons b rest ih =>
    rw [segments, List.splitOnP_cons_eq_if_modifyHead, ih]
    cases endsFrame b with
    | true => rfl
    | false =>
      cases hrest : rest.splitOnP endsFrame with
      | nil => exact absurd hrest (List.splitOnP_ne_nil _ _)
      | cons first more => rfl

/-- Bytes in front of a terminator are a segment. -/
theorem segments_append_cons {bytes : List UInt8} (h : ∀ b ∈ bytes, endsFrame b = false) {b : UInt8}
    (hb : endsFrame b = true) (rest : List UInt8) :
    segments (bytes ++ b :: rest) = bytes :: segments rest := by
  simp only [segments_eq_splitOnP]
  exact List.splitOnP_append_cons_of_forall_mem h b hb rest

/-- Bytes without a terminator belong to the first segment of what follows. -/
theorem segments_append {bytes : List UInt8} (h : ∀ b ∈ bytes, endsFrame b = false)
    (rest : List UInt8) :
    ∃ first more, segments rest = first :: more ∧ segments (bytes ++ rest) = (bytes ++ first) :: more := by
  obtain ⟨first, more, hrest⟩ := List.exists_cons_of_ne_nil
    (segments_eq_splitOnP rest ▸ List.splitOnP_ne_nil endsFrame rest)
  refine ⟨first, more, hrest, ?_⟩
  induction bytes with
  | nil => exact hrest
  | cons b bytes ih =>
    have hb : endsFrame b = false := h b List.mem_cons_self
    rw [List.cons_append, segments, hb, ih fun c hc => h c (List.mem_cons_of_mem b hc)]
    rfl

/-- The bytes in front of the first terminator are the first segment, and what is behind it goes on. -/
theorem segments_of_tail {bytes left : List UInt8} {b : UInt8} (h : tail bytes = b :: left)
    (rest : List UInt8) : segments (bytes ++ rest) = head bytes :: segments (left ++ rest) := by
  have hsplit : bytes ++ rest = head bytes ++ b :: (left ++ rest) := by
    rw [← List.cons_append, ← h, ← List.append_assoc, head_append_tail]
  rw [hsplit]
  exact segments_append_cons (fun _ => endsFrame_of_mem_head) (endsFrame_of_tail h) _

end Frame

namespace Framer

/-! ## What is still to come -/

/-- The frames and errors that are still to come out of a framer, if `rest` is what it has not been fed
    yet. What is left of a frame that was reported counts for nothing. -/
def due (framer : Framer) (rest : List UInt8) : List (Except WireError (List UInt8)) :=
  let segments := Frame.segments (framer.buffer ++ rest)
  (if framer.skipping then segments.tail else segments).filterMap (Frame.outcome? framer.limit)

/-- A framer that is new gives the outcomes of the stream. -/
theorem due_new (limit : Nat) (rest : List UInt8) :
    due { limit } rest = Frame.outcomes limit rest := rfl

/-- Feeding moves bytes from the rest of the stream into the buffer. -/
theorem due_feed (framer : Framer) (bytes rest : List UInt8) :
    (framer.feed bytes).due rest = framer.due (bytes ++ rest) := by
  simp only [due, feed, List.append_assoc]

/-- **A call of `next` takes the first of what is to come**, if it gives anything, and leaves the others. -/
theorem due_next (framer : Framer) (rest : List UInt8) :
    framer.due rest = (given? framer.next.1).toList ++ framer.next.2.due rest := by
  fun_induction next framer with
  | case1 framer htail hskip =>
    -- the bytes that are dropped are of the segment that does not count
    obtain ⟨first, more, hrest, hall⟩ := Frame.segments_append (Frame.endsFrame_of_tail_nil htail) rest
    simp [due, given?, hskip, hall, hrest]
  | case2 framer htail hskip hlong =>
    -- the segment is too long already, whatever comes
    obtain ⟨first, more, hrest, hall⟩ := Frame.segments_append (Frame.endsFrame_of_tail_nil htail) rest
    have hlonger : framer.limit < framer.buffer.length + first.length := by omega
    have hout : Frame.outcome? framer.limit (framer.buffer ++ first) =
        some (.error (.tooLong framer.limit)) := by
      simp [Frame.outcome?, hlonger]
    simp [due, given?, hskip, hall, hrest, hout]
  | case3 => rfl
  | case4 framer b left htail hskip ih =>
    rw [← ih]
    simp [due, hskip, Frame.segments_of_tail htail]
  | case5 framer b left htail hskip hlong =>
    simp [due, given?, hskip, Frame.segments_of_tail htail, Frame.outcome?, hlong]
  | case6 framer b left htail hskip hlong hblank ih =>
    rw [← ih]
    simp [due, hskip, Frame.segments_of_tail htail, Frame.outcome?, hlong, hblank]
  | case7 framer b left htail hskip hlong hblank =>
    simp [due, given?, hskip, Frame.segments_of_tail htail, Frame.outcome?, hlong, hblank]

/-- **A run takes what comes first** and leaves the rest. -/
theorem due_run (framer : Framer) (calls : List Call) (rest : List UInt8) :
    framer.due (Call.stream calls ++ rest) = (framer.run calls).1 ++ (framer.run calls).2.due rest := by
  induction calls generalizing framer with
  | nil => rfl
  | cons call calls ih =>
    cases call with
    | feed bytes =>
      rw [Call.stream, List.append_assoc, ← due_feed, ih]
      rfl
    | next =>
      rw [Call.stream, due_next, ih, run, List.append_assoc]

/-- Giving out all that can be given out takes what comes first, too. -/
theorem due_drain (framer : Framer) (rest : List UInt8) :
    framer.due rest = framer.drain.1 ++ framer.drain.2.due rest := by
  fun_induction drain framer with
  | case1 framer left hnext => simp [due_next framer, hnext, given?]
  | case2 framer frame left hnext more ih => simp [due_next framer, hnext, given?, ih, more]
  | case3 framer cause left hnext more ih => simp [due_next framer, hnext, given?, ih, more]

/-! ## The end of a stream -/

/-- The framer has given out all it can: it holds one frame at most, which has not ended and is not too
    long, and nothing of a frame that was reported. -/
structure Drained (framer : Framer) : Prop where
  open_frame : ∀ b ∈ framer.buffer, Frame.endsFrame b = false
  length_le : framer.buffer.length ≤ framer.limit
  eq_nil : framer.skipping = true → framer.buffer = []

/-- A framer that gives nothing is drained. -/
theorem drained_of_next {framer : Framer} (h : framer.next.1 = .ok none) : framer.next.2.Drained := by
  fun_induction next framer with
  | case1 => exact ⟨fun b hb => absurd hb List.not_mem_nil, Nat.zero_le _, fun _ => rfl⟩
  | case2 => cases h
  | case3 framer htail hskip hlong =>
    exact ⟨Frame.endsFrame_of_tail_nil htail, Nat.not_lt.mp hlong, fun hs => absurd hs hskip⟩
  | case4 framer b left htail hskip ih => exact ih h
  | case5 => cases h
  | case6 framer b left htail hskip hlong hblank ih => exact ih h
  | case7 => cases h

theorem drained_drain (framer : Framer) : framer.drain.2.Drained := by
  fun_induction drain framer with
  | case1 framer left hnext =>
    have hdrained : framer.next.2.Drained := drained_of_next (congrArg (·.1) hnext)
    rw [hnext] at hdrained
    exact hdrained
  | case2 framer frame left hnext more ih => exact ih
  | case3 framer cause left hnext more ih => exact ih

/-- At the end of the stream a drained framer has what it holds to give, and nothing else. -/
theorem Drained.due_nil {framer : Framer} (h : framer.Drained) :
    framer.due [] = (framer.finish.1.map Except.ok).toList := by
  have hsegments : Frame.segments framer.buffer = [framer.buffer] := by
    rw [Frame.segments_eq_splitOnP]
    exact List.splitOnP_eq_singleton h.open_frame
  have hshort := Nat.not_lt.mpr h.length_le
  cases hskip : framer.skipping with
  | true => simp [due, finish, hskip, hsegments]
  | false =>
    cases hblank : Frame.isBlank framer.buffer <;>
      simp [due, finish, hskip, hsegments, Frame.outcome?, hshort, hblank]

/-! ## The limit stays -/

theorem limit_next (framer : Framer) : framer.next.2.limit = framer.limit := by
  fun_induction next framer with
  | case4 framer b left htail hskip ih => exact ih
  | case6 framer b left htail hskip hlong hblank ih => exact ih
  | _ => rfl

theorem limit_run (framer : Framer) (calls : List Call) : (framer.run calls).2.limit = framer.limit := by
  induction calls generalizing framer with
  | nil => rfl
  | cons call calls ih =>
    cases call with
    | feed bytes => exact ih _
    | next => exact (ih _).trans (limit_next framer)

theorem limit_drain (framer : Framer) : framer.drain.2.limit = framer.limit := by
  fun_induction drain framer with
  | case1 framer left hnext => simpa [hnext] using limit_next framer
  | case2 framer frame left hnext more ih =>
    have hleft : left.limit = framer.limit := by simpa [hnext] using limit_next framer
    exact ih.trans hleft
  | case3 framer cause left hnext more ih =>
    have hleft : left.limit = framer.limit := by simpa [hnext] using limit_next framer
    exact ih.trans hleft

/-! ## Whole streams -/

/-- **Framing does not depend on how the bytes arrive.** However a stream is cut into pieces and wherever
    frames are asked for in between, once all that can be given out is given out, the frames and errors are,
    with what `finish` gives as the last, those of the segments of the whole stream. The framer is then as
    new. -/
theorem run_eq_outcomes (limit : Nat) (calls : List Call) :
    let during := run { limit } calls
    let drained := during.2.drain
    let finished := drained.2.finish
    during.1 ++ drained.1 ++ (finished.1.map Except.ok).toList =
        Frame.outcomes limit (Call.stream calls) ∧
      finished.2 = { limit } := by
  intro during drained finished
  constructor
  · calc during.1 ++ drained.1 ++ (finished.1.map Except.ok).toList
        = during.1 ++ drained.1 ++ drained.2.due [] := by
          rw [(drained_drain during.2).due_nil]
      _ = during.1 ++ during.2.due [] := by
          rw [due_drain during.2, List.append_assoc]
      _ = due { limit } (Call.stream calls) := by
          rw [← due_run, List.append_nil]
      _ = Frame.outcomes limit (Call.stream calls) := due_new limit _
  · have hlimit : drained.2.limit = limit := (limit_drain during.2).trans (limit_run _ calls)
    show ({ limit := drained.2.limit } : Framer) = { limit }
    rw [hlimit]

end Framer

end Bourse
