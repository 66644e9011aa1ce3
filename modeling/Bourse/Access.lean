import Bourse.Actor
import Bourse.Session

/-!
# `Bourse.Access` — the ways to an exchange

A row of frames can be put to an exchange directly, through an actor that owns it, or over connections, one
after the other. What comes back each time is the subject of this module.

## Contents
- **Directly.** `Exchange.handleAll` for requests, `Exchange.answerAll` for frames; `Answers` says which
  frames get a response.
- **Through an actor.** `Actor.answerAll`: what cannot be read is not sent to the actor.
- **Over connections.** `Frame.Plain` and `Frame.Carries` say which bytes carry which frames, a `Connection`
  is frames and the pieces in which their bytes arrive, and `Exchange.serveAll` serves connections.
-/

namespace Bourse

variable {σ : Type} [RecordStore σ]

/-! ## Directly -/

namespace Exchange

/-- The responses to requests, one after the other. -/
def handleAll (exchange : Exchange σ) : List Request → List Response × Exchange σ
  | [] => ([], exchange)
  | request :: rest =>
    let first := exchange.handle request
    let more := first.2.handleAll rest
    (first.1 :: more.1, more.2)

/-- The answers to the requests in frames, one after the other. -/
def answerAll (exchange : Exchange σ) (explain : List UInt8 → String) :
    List (List UInt8) → List (Except WireError Response) × Exchange σ
  | [] => ([], exchange)
  | frame :: rest =>
    let first := exchange.answer explain frame
    let more := first.2.answerAll explain rest
    (first.1 :: more.1, more.2)

end Exchange

/-- The response that a client is sent for an answer. -/
def Response.ofAnswer : Except WireError Response → Response
  | .ok response => response
  | .error cause => .error cause.message

/-- A frame without a request is answered in the words of the reader, any other frame with a response. -/
def Answers (explain : List UInt8 → String) (frame : List UInt8) (answer : Except WireError Response) :
    Prop :=
  match Request.read? frame with
  | none =>
    answer = .error (.unreadable (explain frame)) ∧
      Response.ofAnswer answer = .error ("malformed request: " ++ explain frame)
  | some _ => ∃ response, answer = .ok response ∧ Response.ofAnswer answer = response

/-! ## Through an actor -/

namespace Actor

variable {κ : Type → Type} [Channel κ]

/-- Reads the request in a frame and calls the actor with it; gives what the caller has got. -/
def answer (actor : Actor κ σ) (explain : List UInt8 → String) (frame : List UInt8) :
    Except WireError (Option (Except ActorError Response)) × Actor κ σ :=
  match Request.decode explain frame with
  | .error cause => (.error cause, actor)
  | .ok request =>
    let called := actor.call request
    (.ok called.1, called.2)

/-- The answers to the requests in frames, one call after the other. -/
def answerAll (actor : Actor κ σ) (explain : List UInt8 → String) :
    List (List UInt8) → List (Except WireError (Option (Except ActorError Response))) × Actor κ σ
  | [] => ([], actor)
  | frame :: rest =>
    let first := actor.answer explain frame
    let more := first.2.answerAll explain rest
    (first.1 :: more.1, more.2)

end Actor

/-! ## Over connections -/

namespace Frame

/-- The frame is neither blank nor too long, and has no terminator in it. -/
structure Plain (limit : Nat) (frame : List UInt8) : Prop where
  not_blank : isBlank frame = false
  open_frame : ∀ b ∈ frame, endsFrame b = false
  length_le : frame.length ≤ limit

/-- A stream carries frames with a terminator behind each; the last one may go without. -/
inductive Carries : List UInt8 → List (List UInt8) → Prop
  | nil : Carries [] []
  | last (frame : List UInt8) : Carries frame [frame]
  | cons {frame rest : List UInt8} {b : UInt8} {frames : List (List UInt8)} (hb : endsFrame b = true)
      (h : Carries rest frames) : Carries (frame ++ b :: rest) (frame :: frames)

end Frame

/-- What a client sends over one connection: frames, in the pieces in which their bytes arrive. -/
structure Connection (limit : Nat) where
  frames : List (List UInt8)
  pieces : List (List UInt8)
  plain : ∀ frame ∈ frames, Frame.Plain limit frame
  carries : Frame.Carries pieces.flatten frames

namespace Exchange

/-- Serves connections, one after the other; gives the responses that each is sent. -/
def serveAll (exchange : Exchange σ) (explain : List UInt8 → String) {limit : Nat} :
    List (Connection limit) → List (List Response) × Exchange σ
  | [] => ([], exchange)
  | connection :: rest =>
    let served := (Session.connect exchange limit).run explain connection.pieces
    let more := served.2.serveAll explain rest
    (served.1 :: more.1, more.2)

end Exchange

end Bourse
