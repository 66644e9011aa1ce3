import Bourse.Exchange

/-!
# `Bourse.Session` — clients on a stream

A connection is a stream of frames from the client and a stream of lines to it. Each frame gets one line,
in order: the response to its request, or an error line if it cannot be read, in the words of the reader
(`explain`). The pieces in which the stream arrives make no difference to the lines.
-/

namespace Bourse

namespace Exchange

variable {σ : Type} [RecordStore σ]

/-- The response to one outcome of the framer. -/
def respond (exchange : Exchange σ) (explain : List UInt8 → String)
    (frame : Except WireError (List UInt8)) : Response × Exchange σ :=
  match frame with
  | .error e => (.error e.message, exchange)
  | .ok bytes =>
    match exchange.answer explain bytes with
    | (.error e, after) => (.error e.message, after)
    | (.ok response, after) => (response, after)

/-- The responses to outcomes of the framer, in order. -/
def respondAll (exchange : Exchange σ) (explain : List UInt8 → String) :
    List (Except WireError (List UInt8)) → List Response × Exchange σ
  | [] => ([], exchange)
  | frame :: rest =>
    let first := exchange.respond explain frame
    let more := first.2.respondAll explain rest
    (first.1 :: more.1, more.2)

end Exchange

/-- A connection of one client to an exchange. -/
structure Session (σ : Type) where
  framer : Framer
  exchange : Exchange σ
deriving DecidableEq

namespace Session

variable {σ : Type} [RecordStore σ]

/-- A new connection that takes frames of at most `limit` bytes. -/
def connect {σ : Type} (exchange : Exchange σ) (limit : Nat) : Session σ :=
  { framer := { limit }, exchange }

/-- Takes the next bytes from the client. -/
def receive (session : Session σ) (explain : List UInt8 → String) (bytes : List UInt8) :
    List Response × Session σ :=
  let drained := (session.framer.feed bytes).drain
  let responses := session.exchange.respondAll explain drained.1
  (responses.1, { framer := drained.2, exchange := responses.2 })

/-- The client has ended its stream. -/
def close (session : Session σ) (explain : List UInt8 → String) : List Response × Exchange σ :=
  match session.framer.finish.1 with
  | none => ([], session.exchange)
  | some frame => session.exchange.respondAll explain [.ok frame]

/-- A whole connection whose stream arrives in these pieces. -/
def run (session : Session σ) (explain : List UInt8 → String) :
    List (List UInt8) → List Response × Exchange σ
  | [] => session.close explain
  | bytes :: rest =>
    let received := session.receive explain bytes
    let more := received.2.run explain rest
    (received.1 ++ more.1, more.2)

/-- The stream of lines to the client. -/
def lines (responses : List Response) : List UInt8 := responses.flatMap (·.encode)

end Session

end Bourse
