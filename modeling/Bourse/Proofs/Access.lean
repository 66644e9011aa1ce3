import Bourse.Proofs.Framing
import Bourse.Proofs.Lines
import Bourse.Proofs.Service
import Mathlib.Data.List.Forall2

/-!
# `Bourse.Proofs.Access` — all ways to an exchange give the same answers

A connection gives the responses to the outcomes of its whole stream, and those are its frames. So serving
connections one after the other is answering their frames one after the other, and so is calling an actor,
alone or among others.
-/

namespace Bourse

variable {σ : Type} [RecordStore σ] {explain : List UInt8 → String}

/-! ## Directly -/

namespace Exchange

theorem answer_eq_of_none {frame : List UInt8} (h : Request.read? frame = none) (exchange : Exchange σ) :
    exchange.answer explain frame = (.error (.unreadable (explain frame)), exchange) := by
  simp [answer, Request.decode, h]

theorem answer_eq_of_some {frame : List UInt8} {r : Request} (h : Request.read? frame = some r)
    (exchange : Exchange σ) :
    exchange.answer explain frame = (.ok (exchange.handle r).1, (exchange.handle r).2) := by
  simp [answer, Request.decode, h]

/-- Each frame gets its answer, a response or the words of the reader. -/
theorem answers_answerAll (exchange : Exchange σ) (explain : List UInt8 → String)
    (frames : List (List UInt8)) :
    List.Forall₂ (Answers explain) frames (exchange.answerAll explain frames).1 := by
  induction frames generalizing exchange with
  | nil => exact .nil
  | cons frame rest ih =>
    refine .cons ?_ (ih (exchange.answer explain frame).2)
    unfold Answers
    cases hread : Request.read? frame with
    | none =>
      rw [answer_eq_of_none hread]
      exact ⟨rfl, rfl⟩
    | some r =>
      rw [answer_eq_of_some hread]
      exact ⟨_, rfl, rfl⟩

/-- The frames that can be read are answered with the responses to their requests. -/
theorem answerAll_eq_handleAll (exchange : Exchange σ) (explain : List UInt8 → String)
    (frames : List (List UInt8)) :
    (exchange.answerAll explain frames).1.filterMap Except.toOption =
        (exchange.handleAll (frames.filterMap Request.read?)).1 ∧
      (exchange.answerAll explain frames).2 = (exchange.handleAll (frames.filterMap Request.read?)).2 := by
  induction frames generalizing exchange with
  | nil => exact ⟨rfl, rfl⟩
  | cons frame rest ih =>
    cases hread : Request.read? frame with
    | none =>
      rw [List.filterMap_cons_none hread, answerAll, answer_eq_of_none hread]
      exact ih exchange
    | some r =>
      obtain ⟨hresponses, hafter⟩ := ih (exchange.handle r).2
      rw [List.filterMap_cons_some hread, answerAll, answer_eq_of_some hread]
      exact ⟨congrArg (List.cons (exchange.handle r).1) hresponses, hafter⟩

/-- Frames in two parts: the answers go on where the first have led. -/
theorem answerAll_append (exchange : Exchange σ) (first second : List (List UInt8)) :
    exchange.answerAll explain (first ++ second) =
      ((exchange.answerAll explain first).1 ++
          ((exchange.answerAll explain first).2.answerAll explain second).1,
        ((exchange.answerAll explain first).2.answerAll explain second).2) := by
  induction first generalizing exchange with
  | nil => rfl
  | cons frame rest ih => simp [answerAll, ih]

theorem length_answerAll (exchange : Exchange σ) (frames : List (List UInt8)) :
    (exchange.answerAll explain frames).1.length = frames.length :=
  (exchange.answers_answerAll explain frames).length_eq.symm

theorem respondAll_append (exchange : Exchange σ) (first second : List (Except WireError (List UInt8))) :
    exchange.respondAll explain (first ++ second) =
      ((exchange.respondAll explain first).1 ++
          ((exchange.respondAll explain first).2.respondAll explain second).1,
        ((exchange.respondAll explain first).2.respondAll explain second).2) := by
  induction first generalizing exchange with
  | nil => rfl
  | cons frame rest ih => simp [respondAll, ih]

/-- The response to a frame is that to its answer. -/
theorem respond_ok (exchange : Exchange σ) (frame : List UInt8) :
    exchange.respond explain (.ok frame) =
      (.ofAnswer (exchange.answer explain frame).1, (exchange.answer explain frame).2) := by
  cases hanswer : exchange.answer explain frame with
  | mk answer after => cases answer <;> simp [respond, hanswer, Response.ofAnswer]

theorem respondAll_ok (exchange : Exchange σ) (frames : List (List UInt8)) :
    exchange.respondAll explain (frames.map .ok) =
      ((exchange.answerAll explain frames).1.map .ofAnswer, (exchange.answerAll explain frames).2) := by
  induction frames generalizing exchange with
  | nil => rfl
  | cons frame rest ih => simp [respondAll, answerAll, respond_ok, ih]

end Exchange

/-! ## Over connections -/

namespace Session

/-- **A connection gives the responses to what is still to come of its stream**, whatever the pieces. -/
theorem run_eq_respondAll (session : Session σ) (h : session.framer.Drained) (pieces : List (List UInt8)) :
    session.run explain pieces =
      session.exchange.respondAll explain (session.framer.due pieces.flatten) := by
  induction pieces generalizing session with
  | nil =>
    rw [run, close, List.flatten_nil, h.due_nil]
    cases session.framer.finish.1 <;> rfl
  | cons bytes rest ih =>
    have hrest := ih (session.receive explain bytes).2 (Framer.drained_drain _)
    rw [List.flatten_cons, ← Framer.due_feed, Framer.due_drain, Exchange.respondAll_append, run, hrest]
    rfl

/-- The lines to several clients, one after the other. -/
theorem lines_flatten (rows : List (List Response)) :
    lines rows.flatten = (rows.map lines).flatten := by
  induction rows with
  | nil => rfl
  | cons row rest ih => simpa [lines] using ih

end Session

namespace Frame

theorem Plain.outcome? {limit : Nat} {frame : List UInt8} (h : Plain limit frame) :
    outcome? limit frame = some (.ok frame) := by
  simp [Frame.outcome?, Nat.not_lt.mpr h.length_le, h.not_blank]

/-- The outcomes of a stream that carries plain frames are these frames. -/
theorem Carries.outcomes {limit : Nat} {stream : List UInt8} {frames : List (List UInt8)}
    (h : Carries stream frames) (hframes : ∀ frame ∈ frames, Plain limit frame) :
    outcomes limit stream = frames.map .ok := by
  induction h with
  | nil => simp [Frame.outcomes, segments, Frame.outcome?, isBlank]
  | last frame =>
    have hframe := hframes frame List.mem_cons_self
    have hsegments : segments frame = [frame] := by
      rw [segments_eq_splitOnP]
      exact List.splitOnP_eq_singleton hframe.open_frame
    simp [Frame.outcomes, hsegments, hframe.outcome?]
  | @cons frame rest b frames hb h ih =>
    have hframe := hframes frame List.mem_cons_self
    have hrest := ih fun frame hframe => hframes frame (List.mem_cons_of_mem _ hframe)
    rw [Frame.outcomes, segments_append_cons hframe.open_frame hb, List.filterMap_cons_some hframe.outcome?,
      List.map_cons, ← hrest]
    rfl

/-- Frames are carried with a line feed behind each. -/
theorem carries_terminated (frames : List (List UInt8)) :
    Carries (frames.map (· ++ [0x0a])).flatten frames := by
  induction frames with
  | nil => exact .nil
  | cons frame rest ih =>
    rw [List.map_cons, List.flatten_cons, List.append_assoc]
    exact .cons rfl ih

end Frame

/-- Plain frames, one piece for each, with a line feed behind it. -/
def Connection.terminated {limit : Nat} (frames : List (List UInt8))
    (h : ∀ frame ∈ frames, Frame.Plain limit frame) : Connection limit where
  frames := frames
  pieces := frames.map (· ++ [0x0a])
  plain := h
  carries := Frame.carries_terminated frames

namespace Exchange

/-- **A connection is sent the responses to its frames.** -/
theorem run_connect (exchange : Exchange σ) {limit : Nat} (connection : Connection limit) :
    (Session.connect exchange limit).run explain connection.pieces =
      ((exchange.answerAll explain connection.frames).1.map .ofAnswer,
        (exchange.answerAll explain connection.frames).2) := by
  have hnew : ({ limit } : Framer).Drained := ⟨nofun, Nat.zero_le _, nofun⟩
  rw [Session.run_eq_respondAll _ hnew, ← respondAll_ok]
  congr 1
  exact (Framer.due_new limit _).trans (connection.carries.outcomes connection.plain)

-- a name, and then two frames in one piece, the second with a NUL behind it
example :
    let exchange : Exchange VoidStore := { market := { store := {} } }
    let frame := fun r : Request => Text.Utf8.encode r.text
    ((Session.connect exchange 4096).run (fun _ => "") [frame (.register "alice" 5) ++ [0x0a],
      frame (.postOffer 0 .buy 62 10) ++ 0x0a :: frame (.quotes 0) ++ [0]]).1 =
      [.registration true (some 0), .postOffer 0, .quotes none (some 62) none none] := by decide +kernel

/-- **Serving connections is answering their frames**, those of the first, then those of the next. -/
theorem serveAll_eq_answerAll (exchange : Exchange σ) (explain : List UInt8 → String) {limit : Nat}
    (connections : List (Connection limit)) :
    (exchange.serveAll explain connections).1.flatten =
        (exchange.answerAll explain (connections.flatMap (·.frames))).1.map .ofAnswer ∧
      (exchange.serveAll explain connections).1.map List.length = connections.map (·.frames.length) ∧
      (exchange.serveAll explain connections).2 =
        (exchange.answerAll explain (connections.flatMap (·.frames))).2 := by
  induction connections generalizing exchange with
  | nil => exact ⟨rfl, rfl, rfl⟩
  | cons connection rest ih =>
    obtain ⟨hresponses, hlengths, hafter⟩ := ih (exchange.answerAll explain connection.frames).2
    simp only [serveAll, run_connect, List.flatMap_cons, answerAll_append]
    refine ⟨?_, ?_, hafter⟩
    · rw [List.flatten_cons, hresponses, List.map_append]
    · rw [List.map_cons, List.map_cons, hlengths, List.length_map, length_answerAll]

-- a seller on the first connection and a buyer on the second share one market
example :
    let exchange : Exchange VoidStore := { market := { store := {} } }
    let frame := fun r : Request => Text.Utf8.encode r.text
    let seller := (Session.connect exchange 4096).run (fun _ => "")
      [frame (.register "s" 1) ++ [0x0a], frame (.postOffer 0 .sell 70 5) ++ [0x0a]]
    ((Session.connect seller.2 4096).run (fun _ => "") [frame (.register "b" 1) ++ [0x0a],
      frame (.postOffer 1 .buy 75 5) ++ 0x0a :: frame (.balance 1) ++ [0x0a]]).1 =
      [.registration true (some 1), .postOffer 1, .balance 5 (-350)] := by decide +kernel

end Exchange

/-! ## Through an actor -/

namespace Actor

variable {κ : Type → Type} [Channel κ] [LawfulChannel κ]

/-- **Calling an actor is asking its exchange**, frame by frame; every call returns. -/
theorem answerAll_idle {actor : Actor κ σ} {exchange : Exchange σ} {calls : List (Call Mailbox)}
    (h : actor.view = { thread := .serving exchange, inbox := {}, calls }) (frames : List (List UInt8)) :
    (actor.answerAll explain frames).1 =
        (exchange.answerAll explain frames).1.map (Except.map fun response => some (.ok response)) ∧
      (actor.answerAll explain frames).2.shutdown.1 = some (exchange.answerAll explain frames).2 := by
  induction frames generalizing actor exchange calls with
  | nil => exact ⟨rfl, shutdown_idle h⟩
  | cons frame rest ih =>
    cases hread : Request.read? frame with
    | none =>
      have hanswer : actor.answer explain frame = (.error (.unreadable (explain frame)), actor) := by
        simp [answer, Request.decode, hread]
      obtain ⟨hanswers, hafter⟩ := ih h
      rw [answerAll, Exchange.answerAll, hanswer, Exchange.answer_eq_of_none hread]
      exact ⟨congrArg (List.cons _) hanswers, hafter⟩
    | some r =>
      have hanswer : actor.answer explain frame = (.ok (actor.call r).1, (actor.call r).2) := by
        simp [answer, Request.decode, hread]
      have hcall := actor.view_call r
      rw [h, call_idle] at hcall
      obtain ⟨hresponse, hnext⟩ := Prod.mk.inj hcall
      obtain ⟨hanswers, hafter⟩ := ih hnext
      rw [answerAll, Exchange.answerAll, hanswer, Exchange.answer_eq_of_some hread, hresponse]
      exact ⟨congrArg (List.cons _) hanswers, hafter⟩

end Actor

/-! ## All ways -/

/-- **All ways to an exchange give the same answers.** Frames that come over connections, one after the
other, can also be put to the exchange directly or through an actor, whatever channels it has. A frame gets the
same answer each time, over a connection as the response to it, and the exchange is the same in the end. A
frame that cannot be read is answered in the words of the reader. At an actor the senders and the thread may
act in any order: if the requests arrive and then the end of service, each of the requests gets this answer,
and whoever asks later is told that the actor has stopped and leaves the exchange alone. The bytes that all
connections are sent are those of the responses in order, and what one is sent falls apart into one line for
each of its frames. -/
theorem answerAll_everywhere {κ : Type → Type} [Channel κ] [LawfulChannel κ]
    (explain : List UInt8 → String) (exchange : Exchange σ) {limit : Nat}
    (connections : List (Connection limit)) :
    let frames := connections.flatMap (·.frames)
    let requests := frames.filterMap Request.read?
    let direct := exchange.answerAll explain frames
    let called := (Actor.spawn exchange : Actor κ σ).answerAll explain frames
    let served := exchange.serveAll explain connections
    List.Forall₂ (Answers explain) frames direct.1 ∧
      (called.1 = direct.1.map (Except.map fun response => some (.ok response)) ∧
        called.2.shutdown.1 = some direct.2) ∧
      (∀ before after : List Actor.Event,
        before.filterMap Actor.Event.order? = requests.map .request →
          2 * requests.length + 2 ≤ after.count .turn →
            let later := (after.filterMap Actor.Event.order?).filterMap Actor.Order.request?
            let queued := (Actor.spawn exchange : Actor κ σ).run (before ++ .order .shutdown :: after)
            queued.answers =
                (direct.1.filterMap Except.toOption).map (fun response => some (.ok response)) ++
                  later.map (fun _ => some (.error .stopped)) ∧
              queued.thread = .returned direct.2) ∧
      (served.1.flatten = direct.1.map .ofAnswer ∧
        served.1.map List.length = connections.map (·.frames.length) ∧ served.2 = direct.2) ∧
      (served.1.map Session.lines).flatten =
        direct.1.flatMap (fun answer => (Response.ofAnswer answer).encode) ∧
      ∀ responses ∈ served.1, (Session.lines responses).splitOn 0x0a =
        responses.map (fun response => Text.Utf8.encode response.text) ++ [[]] := by
  intro frames requests direct called served
  have hspawn : (Actor.spawn exchange : Actor κ σ).view =
      { thread := .serving exchange, inbox := {}, calls := [] } := Actor.view_spawn exchange
  obtain ⟨hresponses, hlast⟩ := exchange.answerAll_eq_handleAll explain frames
  have hserved := exchange.serveAll_eq_answerAll explain connections
  refine ⟨exchange.answers_answerAll explain frames, Actor.answerAll_idle hspawn frames, ?_, hserved, ?_, ?_⟩
  · intro before after hbefore hafter later queued
    obtain ⟨hthread, hanswers⟩ : queued.thread = _ ∧ queued.answers = _ :=
      Actor.run_spawn exchange hbefore hafter
    exact ⟨hanswers.trans (by rw [← hresponses]), hthread.trans (by rw [← hlast])⟩
  · calc (served.1.map Session.lines).flatten
        = Session.lines served.1.flatten := (Session.lines_flatten served.1).symm
      _ = Session.lines (direct.1.map .ofAnswer) := by rw [hserved.1]
      _ = direct.1.flatMap (fun answer => (Response.ofAnswer answer).encode) := by
          rw [Session.lines, List.flatMap_map]
  · exact fun responses _ => splitOn_lines responses

/-- A frame without a request between two others, over two connections. At the actor, one more request is in
the inbox when the thread meets the end of service, and another comes when the thread is gone. -/
theorem answerAll_everywhere_of_unreadable_frame :
    let explain : List UInt8 → String := fun _ => "expected ident at line 1 column 2"
    let exchange : Exchange VoidStore := { market := { store := {} } }
    let name := Text.Utf8.encode (Request.register "a" 1).text
    let noise := Text.Utf8.encode "nope".toList
    let question := Text.Utf8.encode (Request.balance 0).text
    let before : List Actor.Event :=
      [.turn, .order (.request (.register "a" 1)), .turn, .order (.request (.balance 0))]
    let after : List Actor.Event :=
      .order (.request (.login "a" 1)) :: List.replicate 6 .turn ++ [.order (.request (.quotes 0))]
    let spawned : Actor Mailbox VoidStore := .spawn exchange
    let queued := spawned.run (before ++ .order .shutdown :: after)
    ∃ connections : List (Connection 64), connections.map (·.frames) = [[name, noise], [question]] ∧
      let direct := exchange.answerAll explain [name, noise, question]
      let called := spawned.answerAll explain [name, noise, question]
      let served := exchange.serveAll explain connections
      direct.1 = [.ok (.registration true (some 0)),
        .error (.unreadable "expected ident at line 1 column 2"), .ok (.balance 0 0)] ∧
      called.1 = [.ok (some (.ok (.registration true (some 0)))),
        .error (.unreadable "expected ident at line 1 column 2"), .ok (some (.ok (.balance 0 0)))] ∧
      called.2.shutdown.1 = some direct.2 ∧
      queued.answers = [some (.ok (.registration true (some 0))), some (.ok (.balance 0 0)),
        some (.error .stopped), some (.error .stopped)] ∧
      queued.thread = .returned direct.2 ∧
      served.1.flatten = [.registration true (some 0),
        .error "malformed request: expected ident at line 1 column 2", .balance 0 0] ∧
      served.1.map List.length = [2, 1] ∧ served.2 = direct.2 := by
  intro explain exchange name noise question before after spawned queued
  have hplain : ∀ frame ∈ [name, noise, question], Frame.Plain 64 frame := by
    have hall : ∀ frame ∈ [name, noise, question], Frame.isBlank frame = false ∧
        (∀ b ∈ frame, Frame.endsFrame b = false) ∧ frame.length ≤ 64 := by decide +kernel
    exact fun frame h => ⟨(hall frame h).1, (hall frame h).2.1, (hall frame h).2.2⟩
  have hdirect : (exchange.answerAll explain [name, noise, question]).1 =
      [.ok (.registration true (some 0)), .error (.unreadable "expected ident at line 1 column 2"),
        .ok (.balance 0 0)] := by decide +kernel
  have hrequests : [name, noise, question].filterMap Request.read? = [.register "a" 1, .balance 0] := by
    decide +kernel
  let connections : List (Connection 64) :=
    [.terminated [name, noise] fun frame h => hplain frame (List.mem_append_left [question] h),
      .terminated [question] fun frame h => hplain frame (List.mem_append_right [name, noise] h)]
  have hframes : connections.flatMap (·.frames) = [name, noise, question] := rfl
  obtain ⟨-, ⟨hcalled, hback⟩, hqueued, ⟨hserved, hlengths, hafter⟩, -⟩ :=
    @answerAll_everywhere VoidStore _ Mailbox _ _ explain exchange 64 connections
  rw [hframes] at hcalled hback hqueued hserved hafter
  rw [hrequests] at hqueued
  obtain ⟨hanswers, hthread⟩ := hqueued before after rfl (by decide)
  rw [hdirect] at hcalled hanswers hserved
  exact ⟨connections, rfl, hdirect, hcalled, hback, hanswers, hthread, hserved, hlengths, hafter⟩

end Bourse
