import Bourse.Access

/-!
# `Bourse.Proofs.Mailboxes` — what is in its channels is all that an actor depends on

The content of a lawful channel is a mailbox, and every operation does to it what it does to a mailbox. So an
actor over any lawful channels does what the same actor does over mailboxes: `view` puts the content in the
place of each channel, and every event commutes with it.

## Contents
- **Views.** `view`, and what callers get (`answers_view`).
- **Outside the thread.** `view_ask` and `view_stop`.
- **The thread.** `view_turn`.
- **Runs.** `view_run`, and `view_call` and `shutdown_view` for one caller.
-/

namespace Bourse

namespace Actor

variable {σ : Type} [RecordStore σ] {κ : Type → Type} [Channel κ]

/-! ## Views -/

omit [RecordStore σ] in
/-- The actor with the content of each channel in its place. -/
def view (actor : Actor κ σ) : Actor Mailbox σ where
  thread := actor.thread
  inbox := Channel.content actor.inbox
  calls := actor.calls.map (Except.map Channel.content)

variable [LawfulChannel κ]

omit [RecordStore σ] in
theorem view_spawn (exchange : Exchange σ) : (spawn exchange : Actor κ σ).view = spawn exchange := by
  simp only [view, spawn, LawfulChannel.content_create]
  rfl

/-- A caller gets what the content of its channel gives. -/
theorem Call.answer?_content (call : Call κ) :
    Call.answer? (call.map Channel.content) = Call.answer? call := by
  cases call with
  | error cause => rfl
  | ok replies =>
    simp only [Except.map, Call.answer?, ← Channel.content_receive]
    cases Channel.receive replies with
    | ok received => rfl
    | error cause => cases cause <;> rfl

omit [RecordStore σ] in
theorem answers_view (actor : Actor κ σ) : actor.view.answers = actor.answers := by
  simp [answers, view, Function.comp_def, Call.answer?_content]

/-! ## Outside the thread -/

omit [RecordStore σ] in
/-- What is sent to the inbox arrives in its content. -/
theorem send_view (actor : Actor κ σ) (command : Command) :
    Channel.send actor.view.inbox command = (Channel.send actor.inbox command).map Channel.content :=
  (Channel.content_send actor.inbox command).symm

omit [RecordStore σ] in
theorem view_ask (actor : Actor κ σ) (request : Request) :
    (actor.ask request).view = actor.view.ask request := by
  have hlength : actor.view.calls.length = actor.calls.length := List.length_map _
  rw [ask, ask, send_view, hlength]
  cases Channel.send actor.inbox (.handle request actor.calls.length) with
  | error cause => simp [view, Except.map]
  | ok inbox =>
    simp only [view, Except.map, List.map_append, List.map_cons, List.map_nil,
      LawfulChannel.content_create]
    rfl

omit [RecordStore σ] in
theorem view_stop (actor : Actor κ σ) : actor.stop.view = actor.view.stop := by
  rw [stop, stop, send_view]
  cases Channel.send actor.inbox .shutdown <;> rfl

/-! ## The thread -/

/-- Hanging up at channels is hanging up at their contents. -/
theorem map_hangUp (calls : List (Call κ)) (command : Command) :
    (Call.hangUp calls command).map (Except.map Channel.content) =
      Call.hangUp (calls.map (Except.map Channel.content)) command := by
  cases command with
  | shutdown => rfl
  | handle request call =>
    have hdrop : ∀ call : Call κ, (call.map Channel.dropSender).map Channel.content =
        (call.map Channel.content).map Channel.dropSender := by
      rintro (cause | replies)
      · rfl
      · exact congrArg Except.ok (LawfulChannel.content_dropSender replies)
    refine List.ext_getElem? fun index => ?_
    simp only [Call.hangUp, List.getElem?_map, List.getElem?_modify, Option.map_eq_map]
    split
    · cases calls[index]? with
      | none => rfl
      | some call => exact congrArg some (hdrop call)
    · cases calls[index]? <;> rfl

theorem map_foldl_hangUp (calls : List (Call κ)) (commands : List Command) :
    (commands.foldl Call.hangUp calls).map (Except.map Channel.content) =
      commands.foldl Call.hangUp (calls.map (Except.map Channel.content)) := by
  induction commands generalizing calls with
  | nil => rfl
  | cons command rest ih => rw [List.foldl_cons, ih, map_hangUp, List.foldl_cons]

/-- The thread takes the same turn whether it looks at channels or at their contents. -/
theorem view_turn (actor : Actor κ σ) : actor.turn.view = actor.view.turn := by
  have hthread : actor.view.thread = actor.thread := rfl
  unfold turn
  rw [hthread]
  cases actor.thread with
  | serving exchange =>
    have hreceive : Channel.receive actor.view.inbox =
        (Channel.receive actor.inbox).map (Prod.map id Channel.content) :=
      (Channel.content_receive actor.inbox).symm
    simp only [hreceive]
    cases Channel.receive actor.inbox with
    | error cause => cases cause <;> rfl
    | ok received =>
      obtain ⟨command, inbox⟩ := received
      cases command <;> rfl
  | replying exchange call response =>
    have hcall : actor.view.calls[call]? = (actor.calls[call]?).map (Except.map Channel.content) :=
      List.getElem?_map
    simp only [hcall]
    cases actor.calls[call]? with
    | none => rfl
    | some entry =>
      cases entry with
      | error cause => rfl
      | ok replies =>
        -- what stands in the list behind the reply is the content of the channel without its sender
        have hset : ∀ replied : κ Response,
            (actor.calls.set call (.ok (Channel.dropSender replied))).map (Except.map Channel.content) =
              actor.view.calls.set call (.ok (Channel.dropSender (Channel.content replied))) := by
          intro replied
          rw [List.map_set, Except.map, LawfulChannel.content_dropSender]
          rfl
        simp only [Option.map_some, Except.map, ← Channel.content_send]
        cases Channel.send replies response with
        | ok sent => simp only [view, hset]
        | error cause =>
          cases cause with
          | full => rfl
          | disconnected => simp only [view, hset]
  | leaving exchange =>
    have hdropped : Channel.dropReceiver actor.view.inbox = _ :=
      (Channel.content_dropReceiver actor.inbox).symm
    have hcalls : actor.view.calls = actor.calls.map (Except.map Channel.content) := rfl
    simp only [hdropped, hcalls, ← map_foldl_hangUp]
    rfl
  | returned exchange => rfl

/-! ## Runs -/

theorem view_step (actor : Actor κ σ) (event : Event) :
    (actor.step event).view = actor.view.step event := by
  cases event with
  | turn => exact view_turn actor
  | order o =>
    cases o with
    | request r => exact view_ask actor r
    | shutdown => exact view_stop actor

/-- **A run over channels is a run over their contents.** -/
theorem view_run (actor : Actor κ σ) (events : List Event) :
    (actor.run events).view = actor.view.run events :=
  (List.foldl_hom view fun actor event => (view_step actor event).symm).symm

/-- A caller gets through a channel what it gets through a mailbox. -/
theorem view_call (actor : Actor κ σ) (r : Request) :
    ((actor.call r).1, (actor.call r).2.view) = actor.view.call r := by
  have hlength : actor.view.calls.length = actor.calls.length := List.length_map _
  have hcalls : ∀ after : Actor κ σ, after.view.calls[actor.calls.length]?.bind Call.answer? =
      after.calls[actor.calls.length]?.bind Call.answer? := by
    intro after
    change (after.calls.map (Except.map Channel.content))[actor.calls.length]?.bind Call.answer? = _
    rw [List.getElem?_map, Option.bind_map]
    congr 1
    exact funext Call.answer?_content
  simp only [call, hlength, ← view_ask, ← view_turn, hcalls]

/-- The exchange is handed back whether the thread looks at channels or at their contents. -/
theorem shutdown_view (actor : Actor κ σ) : actor.view.shutdown.1 = actor.shutdown.1 := by
  simp only [shutdown, ← view_stop, ← view_turn]
  rfl

end Actor

end Bourse
