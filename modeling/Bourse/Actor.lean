import Bourse.Channel
import Bourse.Exchange

/-!
# `Bourse.Actor` — an exchange behind a queue

A thread owns an exchange and serves the commands in its inbox, one after the other in the order in which
they arrive. Who calls the actor sends a request together with a fresh channel for the response, and waits at
that channel. The marker for the end of service waits in the inbox like any other command. The thread that
meets it hands the exchange back and drops its inbox, and with it whatever has arrived behind the marker.

The channels are any `Channel`. Callers and the thread take turns in any order: a run is a row of events, each
of which is one operation on one channel.

## Contents
- **Errors.** `ActorError`.
- **The parties.** `Command`, `Thread`, `Call` and `Actor`.
- **Outside the thread.** `ask` and `stop` send to the inbox; `Call.answer?` is what a caller gets.
- **The thread.** `turn`.
- **Runs.** `Order`, `Event` and `run`.
- **One caller.** `call` and `shutdown` wait until the thread is done with what they have sent.
-/

namespace Bourse

/-! ## Errors -/

/-- Why an actor does not answer. Two more reasons are left out: the operating system may refuse to start the
    thread, and the thread may panic. All that it does here are total functions, which do not. -/
inductive ActorError
  | stopped
deriving DecidableEq, Repr

/-- The text of the error. -/
def ActorError.message : ActorError → String
  | .stopped => "exchange actor has stopped"

/-! ## The parties -/

/-- What waits in the inbox of an actor. -/
inductive Command
  /-- A request, and the number of the call at whose channel its sender waits. -/
  | handle (request : Request) (call : Nat)
  /-- The end of service. -/
  | shutdown
deriving DecidableEq, Repr

/-- What the thread of an actor is about to do. -/
inductive Thread (σ : Type)
  /-- It takes the next command. -/
  | serving (exchange : Exchange σ)
  /-- It sends a response. -/
  | replying (exchange : Exchange σ) (call : Nat) (response : Response)
  /-- It drops its inbox and returns. -/
  | leaving (exchange : Exchange σ)
  /-- It is gone and has handed the exchange back. -/
  | returned (exchange : Exchange σ)
deriving DecidableEq

/-- The exchange that a thread has handed back. -/
def Thread.returned? {σ : Type} : Thread σ → Option (Exchange σ)
  | .returned exchange => some exchange
  | _ => none

/-- A call: the channel at which the caller waits, unless the request could not be sent. -/
abbrev Actor.Call (κ : Type → Type) := Except ActorError (κ Response)

/-- A thread, its inbox and the calls so far. -/
structure Actor (κ : Type → Type) (σ : Type) where
  thread : Thread σ
  inbox : κ Command
  calls : List (Actor.Call κ) := []

variable {κ : Type → Type} [Channel κ] {σ : Type} [RecordStore σ]

omit [RecordStore σ] in
/-- An actor for an exchange that serves nothing yet. -/
def Actor.spawn (exchange : Exchange σ) : Actor κ σ :=
  { thread := .serving exchange, inbox := Channel.create none }

/-! ## Outside the thread -/

namespace Actor

/-- What a caller has got: the response, or that the actor has stopped. -/
def Call.answer? : Call κ → Option (Except ActorError Response)
  | .error cause => some (.error cause)
  | .ok replies =>
    match Channel.receive replies with
    | .ok (response, _) => some (.ok response)
    | .error .empty => none
    | .error .disconnected => some (.error .stopped)

/-- The sender of the reply to a command is dropped. -/
def Call.hangUp (calls : List (Call κ)) : Command → List (Call κ)
  | .handle _ call => calls.modify call (Except.map Channel.dropSender)
  | .shutdown => calls

omit [RecordStore σ] in
/-- Sends a request with a channel for the one response to it. There is always room in the inbox, so this
    fails only if the thread is gone. -/
def ask (actor : Actor κ σ) (request : Request) : Actor κ σ :=
  match Channel.send actor.inbox (.handle request actor.calls.length) with
  | .ok inbox => { actor with inbox, calls := actor.calls ++ [.ok (Channel.create (some 1))] }
  | .error _ => { actor with calls := actor.calls ++ [.error .stopped] }

omit [RecordStore σ] in
/-- Sends the end of service. If nothing can be sent the thread is gone already. -/
def stop (actor : Actor κ σ) : Actor κ σ :=
  match Channel.send actor.inbox .shutdown with
  | .ok inbox => { actor with inbox }
  | .error _ => actor

omit [RecordStore σ] in
/-- What the callers have got so far, in the order of the calls. -/
def answers (actor : Actor κ σ) : List (Option (Except ActorError Response)) :=
  actor.calls.map Call.answer?

/-! ## The thread -/

/-- The thread does the next thing, unless it has to wait for it. -/
def turn (actor : Actor κ σ) : Actor κ σ :=
  match actor.thread with
  | .serving exchange =>
    match Channel.receive actor.inbox with
    | .ok (.handle request call, inbox) =>
      let handled := exchange.handle request
      { actor with thread := .replying handled.2 call handled.1, inbox }
    | .ok (.shutdown, inbox) => { actor with thread := .leaving exchange, inbox }
    | .error .empty => actor
    | .error .disconnected =>
      -- all who could send a command are gone
      { actor with thread := .leaving exchange }
  | .replying exchange call response =>
    match actor.calls[call]? with
    | some (.ok replies) =>
      match Channel.send replies response with
      | .ok sent =>
        let replied := .ok (Channel.dropSender sent)
        { actor with thread := .serving exchange, calls := actor.calls.set call replied }
      | .error .full => actor
      | .error .disconnected =>
        -- the caller went away before the reply
        let unheard := .ok (Channel.dropSender replies)
        { actor with thread := .serving exchange, calls := actor.calls.set call unheard }
    | _ => { actor with thread := .serving exchange }
  | .leaving exchange =>
    let dropped := Channel.dropReceiver actor.inbox
    { thread := .returned exchange, inbox := dropped.2, calls := dropped.1.foldl Call.hangUp actor.calls }
  | .returned _ => actor

/-! ## Runs -/

/-- What an actor is told from outside. -/
inductive Order
  | request (r : Request)
  | shutdown
deriving DecidableEq, Repr

/-- The request in an order, if there is one. -/
def Order.request? : Order → Option Request
  | .request r => some r
  | .shutdown => none

/-- What happens to an actor. -/
inductive Event
  /-- Someone outside the thread sends an order. -/
  | order (o : Order)
  /-- It is the thread's turn. -/
  | turn
deriving DecidableEq, Repr

/-- The order in an event, if there is one. -/
def Event.order? : Event → Option Order
  | .order o => some o
  | .turn => none

omit [RecordStore σ] in
/-- Sends an order. -/
def tell (actor : Actor κ σ) : Order → Actor κ σ
  | .request r => actor.ask r
  | .shutdown => actor.stop

/-- Lets one thing happen. -/
def step (actor : Actor κ σ) : Event → Actor κ σ
  | .order o => actor.tell o
  | .turn => actor.turn

/-- Lets one thing happen after the other. -/
def run (actor : Actor κ σ) (events : List Event) : Actor κ σ := events.foldl step actor

/-! ## One caller -/

/-- Sends a request and waits: the thread takes it and replies. -/
def call (actor : Actor κ σ) (request : Request) : Option (Except ActorError Response) × Actor κ σ :=
  let after := (actor.ask request).turn.turn
  (after.calls[actor.calls.length]?.bind Call.answer?, after)

/-- Sends the end of service and waits for the exchange: the thread meets the marker and returns. -/
def shutdown (actor : Actor κ σ) : Option (Exchange σ) × Actor κ σ :=
  let after := actor.stop.turn.turn
  (after.thread.returned?, after)

end Actor

end Bourse
