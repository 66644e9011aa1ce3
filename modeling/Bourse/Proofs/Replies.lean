import Bourse.Proofs.Access

/-!
# `Bourse.Proofs.Replies` — a stream of responses is read back frame by frame

A client may split the stream of lines that it is sent by the rule by which its own frames are split. In
between two terminators it then finds the text of one response: no byte of a text ends a frame, whatever
characters the messages in it have, and no text is blank. What a framer holds is always the end of what it
was fed (`buffer_run_suffix`), so after the last line end it holds nothing.
-/

namespace Bourse

/-! ## The bytes of a response -/

namespace Response

/-- The bytes of a response without its line end. -/
def payload (response : Response) : List UInt8 := Text.Utf8.encode response.text

theorem encode_eq_payload (response : Response) : response.encode = response.payload ++ [0x0a] :=
  response.encode_eq

/-- No byte of a response but its last one ends a frame. -/
theorem endsFrame_of_mem_payload {response : Response} {b : UInt8} (hb : b ∈ response.payload) :
    Frame.endsFrame b = false := by
  have hleast : 0x20 ≤ b.toNat := le_of_mem_encode (Json.clear_render response.toJson) hb
  have hne : ∀ control : UInt8, control.toNat < 0x20 → b ≠ control := by
    rintro control hcontrol rfl
    exact absurd hleast (Nat.not_le.mpr hcontrol)
  simp [Frame.endsFrame, hne 0x0a (by decide), hne 0x00 (by decide)]

/-- A response is an object. -/
theorem exists_payload_eq (response : Response) : ∃ rest, response.payload = 0x7b :: rest := by
  have htext : ∃ rest, response.text = '\x7b' :: rest := by
    cases response <;> exact ⟨_, rfl⟩
  obtain ⟨rest, hrest⟩ := htext
  exact ⟨Text.Utf8.encode rest, by rw [payload, hrest]; rfl⟩

/-- A response is a frame for everyone who takes frames of its length. -/
theorem plain_payload {response : Response} {limit : Nat} (h : response.payload.length ≤ limit) :
    Frame.Plain limit response.payload where
  not_blank := by
    obtain ⟨rest, hrest⟩ := response.exists_payload_eq
    rw [hrest]
    rfl
  open_frame _ := endsFrame_of_mem_payload
  length_le := h

end Response

/-! ## Terminated frames -/

namespace Frame

/-- Frames with a line feed behind each. -/
def terminated (frames : List (List UInt8)) : List UInt8 := (frames.map (· ++ [0x0a])).flatten

theorem terminated_cons (frame : List UInt8) (frames : List (List UInt8)) :
    terminated (frame :: frames) = frame ++ 0x0a :: terminated frames := by
  simp [terminated]

/-- Plain frames are the first outcomes of the stream in which they are terminated, whatever follows. -/
theorem outcomes_terminated_append {limit : Nat} {frames : List (List UInt8)}
    (h : ∀ frame ∈ frames, Plain limit frame) (rest : List UInt8) :
    outcomes limit (terminated frames ++ rest) = frames.map .ok ++ outcomes limit rest := by
  induction frames with
  | nil => rfl
  | cons frame more ih =>
    obtain ⟨hframe, hmore⟩ := List.forall_mem_cons.mp h
    rw [terminated_cons, List.append_assoc, List.cons_append, outcomes,
      segments_append_cons hframe.open_frame rfl, List.filterMap_cons_some hframe.outcome?, List.map_cons,
      List.cons_append, ← ih hmore]
    rfl

/-- An end of such a stream has a terminator in it, or it is empty. -/
theorem eq_nil_of_suffix_terminated {frames : List (List UInt8)} {held : List UInt8}
    (hopen : ∀ b ∈ held, endsFrame b = false) (h : held <:+ terminated frames) : held = [] := by
  rcases List.eq_nil_or_concat frames with rfl | ⟨first, last, rfl⟩
  · exact List.suffix_nil.mp h
  · have hstream : terminated (first.concat last) = (terminated first ++ last) ++ [0x0a] := by
      simp [terminated]
    rw [hstream, List.suffix_concat_iff] at h
    rcases h with hnil | ⟨bytes, rfl, -⟩
    · exact hnil
    · have hend : endsFrame 0x0a = false := hopen 0x0a (by simp)
      cases hend

end Frame

/-- A stream of responses is their payloads, each with a line feed behind it. -/
theorem Session.lines_eq_terminated (responses : List Response) :
    lines responses = Frame.terminated (responses.map (·.payload)) := by
  induction responses with
  | nil => rfl
  | cons response rest ih =>
    rw [List.map_cons, Frame.terminated_cons, ← ih, lines, List.flatMap_cons, response.encode_eq_payload,
      List.append_assoc]
    rfl

namespace Framer

/-! ## What a framer holds -/

theorem buffer_next_suffix (framer : Framer) : framer.next.2.buffer <:+ framer.buffer := by
  -- what is behind a terminator is an end of the bytes
  have htail : ∀ {bytes rest : List UInt8} {b : UInt8}, Frame.tail bytes = b :: rest → rest <:+ bytes := by
    intro bytes rest b h
    have hsuffix : b :: rest <:+ bytes := h ▸ List.dropWhile_suffix _
    exact (List.suffix_cons b rest).trans hsuffix
  fun_induction next framer with
  | case1 => exact List.nil_suffix
  | case2 => exact List.nil_suffix
  | case3 => exact List.suffix_rfl
  | case4 framer b left hleft hskip ih => exact ih.trans (htail hleft)
  | case5 framer b left hleft => exact htail hleft
  | case6 framer b left hleft hskip hlong hblank ih => exact ih.trans (htail hleft)
  | case7 framer b left hleft => exact htail hleft

/-- **A framer holds the end of what it was fed**, and of what it held before. -/
theorem buffer_run_suffix (framer : Framer) (calls : List Call) :
    (framer.run calls).2.buffer <:+ framer.buffer ++ Call.stream calls := by
  induction calls generalizing framer with
  | nil => exact (List.append_nil framer.buffer).symm ▸ List.suffix_rfl
  | cons call calls ih =>
    cases call with
    | feed bytes =>
      rw [Call.stream, ← List.append_assoc]
      exact ih (framer.feed bytes)
    | next =>
      obtain ⟨given, hgiven⟩ := framer.buffer_next_suffix
      rw [Call.stream, ← hgiven, List.append_assoc]
      exact List.suffix_append_of_suffix (ih framer.next.2)

theorem buffer_drain_suffix (framer : Framer) : framer.drain.2.buffer <:+ framer.buffer := by
  fun_induction drain framer with
  | case1 framer left hnext => simpa [hnext] using framer.buffer_next_suffix
  | case2 framer frame left hnext more ih =>
    have hleft : left.buffer <:+ framer.buffer := by simpa [hnext] using framer.buffer_next_suffix
    exact ih.trans hleft
  | case3 framer cause left hnext more ih =>
    have hleft : left.buffer <:+ framer.buffer := by simpa [hnext] using framer.buffer_next_suffix
    exact ih.trans hleft

/-- A framer that holds nothing and to which the same will come as to a new one is new. -/
theorem eq_new {framer : Framer} (hbuffer : framer.buffer = [])
    (hdue : ∀ rest, framer.due rest = Frame.outcomes framer.limit rest) :
    framer = { limit := framer.limit } := by
  obtain ⟨limit, buffer, skipping⟩ := framer
  obtain rfl : buffer = [] := hbuffer
  cases skipping with
  | false => rfl
  | true =>
    -- one byte that is no space is a frame or too long, but nothing comes of it while a frame is dropped
    have hnone : Frame.outcomes limit [0x7b] = [] := (hdue [0x7b]).symm
    have hsome : Frame.outcomes limit [0x7b] ≠ [] := by
      have hsegments : Frame.segments [0x7b] = [[0x7b]] := rfl
      by_cases hlong : limit < 1 <;>
        simp [Frame.outcomes, hsegments, Frame.outcome?, hlong, Frame.isBlank, Frame.isSpace]
    exact absurd hnone hsome

/-! ## Streams of frames -/

/-- **Plain frames come out of the stream in which they are terminated**, and leave the framer as new. -/
theorem run_terminated {limit : Nat} {frames : List (List UInt8)}
    (h : ∀ frame ∈ frames, Frame.Plain limit frame) {calls : List Call}
    (hstream : Call.stream calls = Frame.terminated frames) :
    let during := run { limit } calls
    let drained := during.2.drain
    during.1 ++ drained.1 = frames.map .ok ∧ drained.2 = { limit } := by
  intro during drained
  -- what follows the stream adds to its frames what it gives to a new framer
  have hall : ∀ rest, during.1 ++ drained.1 ++ drained.2.due rest =
      frames.map .ok ++ Frame.outcomes limit rest := by
    intro rest
    rw [← Frame.outcomes_terminated_append h, ← hstream, ← due_new, due_run, due_drain during.2,
      List.append_assoc]
  have hheld : drained.2.buffer <:+ Call.stream calls :=
    (buffer_drain_suffix during.2).trans (buffer_run_suffix { limit } calls)
  have hbuffer : drained.2.buffer = [] :=
    Frame.eq_nil_of_suffix_terminated (drained_drain during.2).open_frame (hstream ▸ hheld)
  have hnothing : drained.2.due [] = [] := by
    rw [(drained_drain during.2).due_nil]
    simp [finish, hbuffer, Frame.isBlank, drained]
  have hgiven : during.1 ++ drained.1 = frames.map .ok := by
    have hwhole := hall []
    rw [hnothing, List.append_nil] at hwhole
    exact hwhole.trans (List.append_nil _)
  have hlimit : drained.2.limit = limit := (limit_drain during.2).trans (limit_run _ calls)
  have hnew : drained.2 = { limit := drained.2.limit } := by
    refine eq_new hbuffer fun rest => ?_
    have hrest := hall rest
    rw [hgiven] at hrest
    rw [hlimit]
    exact List.append_cancel_left hrest
  rw [hlimit] at hnew
  exact ⟨hgiven, hnew⟩

/-- **No response breaks the framing.** The one byte of a response that ends a frame is its last one. So
    from a stream of responses, in whatever pieces it arrives and wherever frames are asked for in between, a
    framer that takes the longest of them gives the payload of each, in order, and nothing else, and is then
    as new. -/
theorem run_lines_eq_payloads :
    (∀ response : Response, response.encode = response.payload ++ [0x0a] ∧
      ∀ b ∈ response.payload, b ≠ 0x0a ∧ b ≠ 0x00) ∧
    ∀ {limit : Nat} {responses : List Response},
      (∀ response ∈ responses, response.payload.length ≤ limit) →
      ∀ calls : List Call, Call.stream calls = Session.lines responses →
        let during := run { limit } calls
        let drained := during.2.drain
        during.1 ++ drained.1 = responses.map (fun response => .ok response.payload) ∧
          drained.2 = { limit } := by
  refine ⟨fun response => ⟨response.encode_eq_payload, fun b hb => ?_⟩, ?_⟩
  · have hopen := Response.endsFrame_of_mem_payload hb
    simpa [Frame.endsFrame] using hopen
  · intro limit responses hlimit calls hstream during drained
    have hplain : ∀ frame ∈ responses.map (·.payload), Frame.Plain limit frame := by
      intro frame hframe
      obtain ⟨response, hresponse, rfl⟩ := List.mem_map.mp hframe
      exact Response.plain_payload (hlimit response hresponse)
    obtain ⟨hgiven, hnew⟩ := run_terminated hplain (hstream.trans (Session.lines_eq_terminated responses))
    exact ⟨hgiven.trans (List.map_map ..), hnew⟩

/-- A message with a line feed, a NUL and a character of two bytes, between which the stream is cut; the
    limit is the length of that response. -/
theorem run_lines_eq_payloads_of_control_characters :
    let responses : List Response := [.error "\n\x00é", .cancel true]
    let lines := Session.lines responses
    let calls : List Call := [.next, .feed (lines.take 36), .next, .feed ((lines.drop 36).take 10), .next,
      .next, .feed (lines.drop 46)]
    (∀ response ∈ responses, response.payload.length ≤ 39) ∧ Call.stream calls = lines ∧
      (run { limit := 39 } calls).1 ++ (run { limit := 39 } calls).2.drain.1 =
        responses.map (fun response => .ok response.payload) ∧
      (run { limit := 39 } calls).2.drain.2 = { limit := 39 } := by
  intro responses lines calls
  have hlimit : ∀ response ∈ responses, response.payload.length ≤ 39 := by decide +kernel
  have hstream : Call.stream calls = lines := by decide +kernel
  exact ⟨hlimit, hstream, run_lines_eq_payloads.2 hlimit calls hstream⟩

end Framer

end Bourse
