import Bourse.Proofs.Mailboxes
import Mathlib.Data.List.Basic

/-!
# `Bourse.Proofs.Service` — an actor serves alike under every schedule

Callers and the thread of an actor may take their turns in any order. What each caller gets in the end, and
which exchange is handed back, depends on the order in which the requests and the end of service arrive, and
on nothing else. By `view_run` it is enough to look at actors over mailboxes.

## Contents
- **Stages.** `Stage` says what an actor looks like after the orders that have arrived. Every event leads
  from stage to stage (`Stage.step`).
- **The end of service.** `toGo` is the number of turns up to the return of the thread. Once the end of
  service has arrived each turn lowers it and no order raises it.
- **Schedules.** `run_spawn`: the state after every schedule in which the thread has its turns.
- **One caller.** `call_idle` and `shutdown_idle`: an actor whose thread waits for commands.
-/

namespace Bourse

variable {σ : Type} [RecordStore σ]

/-! ## Requests, one after the other -/

namespace Exchange

theorem length_handleAll (exchange : Exchange σ) (requests : List Request) :
    (exchange.handleAll requests).1.length = requests.length := by
  induction requests generalizing exchange with
  | nil => rfl
  | cons request rest ih => simp [handleAll, ih]

/-- One more request is handled where the others have led. -/
theorem handleAll_concat (exchange : Exchange σ) (requests : List Request) (last : Request) :
    exchange.handleAll (requests ++ [last]) =
      ((exchange.handleAll requests).1 ++ [((exchange.handleAll requests).2.handle last).1],
        ((exchange.handleAll requests).2.handle last).2) := by
  induction requests generalizing exchange with
  | nil => rfl
  | cons request rest ih => simp [handleAll, ih]

end Exchange

namespace Actor

/-! ## Stages -/

/-- The commands that orders become in the inbox; their calls are numbered from `first` on. -/
def commands (first : Nat) : List Order → List Command
  | [] => []
  | .request r :: rest => .handle r first :: commands (first + 1) rest
  | .shutdown :: rest => .shutdown :: commands first rest

/-- A call at whose channel the response waits. -/
def Call.answered (response : Response) : Call Mailbox :=
  .ok { waiting := [response], room := some 1, hasSender := false }

/-- A call whose command waits or is being handled. -/
def Call.awaiting : Call Mailbox := .ok { room := some 1 }

/-- The calls behind orders that wait. -/
def pending (orders : List Order) : List (Call Mailbox) :=
  (orders.filterMap Order.request?).map fun _ => .awaiting

/-- What an actor that was spawned for `exchange` looks like after the orders that have arrived. Up to the
first end of service they are served one after the other. -/
inductive Stage (exchange : Exchange σ) : List Order → Actor Mailbox σ → Prop
  /-- The requests in `served` have their responses, and the other orders are in the inbox. -/
  | serving (served : List Request) (rest : List Order) :
    Stage exchange (served.map .request ++ rest)
      { thread := .serving (exchange.handleAll served).2
        inbox := { waiting := commands served.length rest }
        calls := (exchange.handleAll served).1.map Call.answered ++ pending rest }
  /-- One more request is handled, and its response is about to be sent. -/
  | replying (served : List Request) (r : Request) (rest : List Order) :
    Stage exchange (served.map .request ++ .request r :: rest)
      { thread := .replying ((exchange.handleAll served).2.handle r).2 served.length
          ((exchange.handleAll served).2.handle r).1
        inbox := { waiting := commands (served.length + 1) rest }
        calls := (exchange.handleAll served).1.map Call.answered ++ [.awaiting] ++ pending rest }
  /-- The thread has met the end of service, and whatever else is in the inbox will be dropped. -/
  | leaving (served : List Request) (rest : List Order) :
    Stage exchange (served.map .request ++ .shutdown :: rest)
      { thread := .leaving (exchange.handleAll served).2
        inbox := { waiting := commands served.length rest }
        calls := (exchange.handleAll served).1.map Call.answered ++ pending rest }
  /-- The thread is gone, and the other callers have been told so. -/
  | returned (served : List Request) (rest : List Order) (lost : List (Call Mailbox))
      (hlost : lost.map Call.answer? =
        (rest.filterMap Order.request?).map fun _ => some (.error .stopped)) :
    Stage exchange (served.map .request ++ .shutdown :: rest)
      { thread := .returned (exchange.handleAll served).2
        inbox := { hasReceiver := false }
        calls := (exchange.handleAll served).1.map Call.answered ++ lost }

theorem requests_concat_request (orders : List Order) (r : Request) :
    (orders ++ [Order.request r]).filterMap Order.request? = orders.filterMap Order.request? ++ [r] := by
  rw [List.filterMap_append]
  rfl

theorem requests_concat_shutdown (orders : List Order) :
    (orders ++ [Order.shutdown]).filterMap Order.request? = orders.filterMap Order.request? := by
  rw [List.filterMap_append]
  exact List.append_nil _

theorem commands_concat_request (first : Nat) (orders : List Order) (r : Request) :
    commands first (orders ++ [.request r]) =
      commands first orders ++ [.handle r (first + (orders.filterMap Order.request?).length)] := by
  induction orders generalizing first with
  | nil => rfl
  | cons o rest ih =>
    cases o with
    | request other => simp [commands, ih, Order.request?, Nat.add_assoc, Nat.add_comm 1]
    | shutdown => exact congrArg (List.cons Command.shutdown) (ih first)

theorem commands_concat_shutdown (first : Nat) (orders : List Order) :
    commands first (orders ++ [.shutdown]) = commands first orders ++ [.shutdown] := by
  induction orders generalizing first with
  | nil => rfl
  | cons o rest ih => cases o <;> simp [commands, ih]

theorem length_pending (orders : List Order) :
    (pending orders).length = (orders.filterMap Order.request?).length := List.length_map _

theorem pending_concat_request (orders : List Order) (r : Request) :
    pending (orders ++ [.request r]) = pending orders ++ [.awaiting] := by
  rw [pending, requests_concat_request, List.map_append]
  rfl

theorem pending_concat_shutdown (orders : List Order) :
    pending (orders ++ [.shutdown]) = pending orders := by
  rw [pending, requests_concat_shutdown, pending]

theorem length_answered (exchange : Exchange σ) (served : List Request) :
    ((exchange.handleAll served).1.map Call.answered).length = served.length := by
  rw [List.length_map, Exchange.length_handleAll]

omit [RecordStore σ] in
/-- A request is queued at an actor whose thread is not gone yet. -/
theorem ask_open {thread : Thread σ} {first : Nat} {rest : List Order} {front : List (Call Mailbox)}
    (hfront : front.length = first) (r : Request) :
    ask { thread, inbox := { waiting := commands first rest }, calls := front ++ pending rest } r =
      { thread
        inbox := { waiting := commands first (rest ++ [.request r]) }
        calls := front ++ pending (rest ++ [.request r]) } := by
  have hlength : (front ++ pending rest).length = first + (rest.filterMap Order.request?).length := by
    rw [List.length_append, hfront, length_pending]
  rw [commands_concat_request, pending_concat_request, ← hlength, ← List.append_assoc]
  rfl

omit [RecordStore σ] in
/-- The end of service is queued at an actor whose thread is not gone yet. -/
theorem stop_open {thread : Thread σ} {first : Nat} {rest : List Order} {front : List (Call Mailbox)} :
    stop { thread, inbox := { waiting := commands first rest }, calls := front ++ pending rest } =
      { thread
        inbox := { waiting := commands first (rest ++ [.shutdown]) }
        calls := front ++ pending (rest ++ [.shutdown]) } := by
  rw [commands_concat_shutdown, pending_concat_shutdown]
  rfl

theorem Stage.ask {exchange : Exchange σ} {orders : List Order} {actor : Actor Mailbox σ}
    (h : Stage exchange orders actor) (r : Request) :
    Stage exchange (orders ++ [.request r]) (actor.ask r) := by
  cases h with
  | serving served rest =>
    rw [ask_open (length_answered exchange served), List.append_assoc]
    exact .serving served _
  | replying served other rest =>
    have hlength : ((exchange.handleAll served).1.map Call.answered ++ [Call.awaiting]).length =
        served.length + 1 := by
      rw [List.length_append, length_answered]
      rfl
    rw [ask_open hlength, List.append_assoc]
    exact .replying served other _
  | leaving served rest =>
    rw [ask_open (length_answered exchange served), List.append_assoc]
    exact .leaving served _
  | returned served rest lost hlost =>
    have hmore : (lost ++ [Except.error ActorError.stopped]).map Call.answer? =
        ((rest ++ [Order.request r]).filterMap Order.request?).map fun _ => some (.error .stopped) := by
      rw [requests_concat_request, List.map_append, List.map_append, hlost]
      rfl
    have hask : Stage exchange _ _ := .returned served _ _ hmore
    rw [← List.append_assoc] at hask
    rw [List.append_assoc]
    exact hask

theorem Stage.stop {exchange : Exchange σ} {orders : List Order} {actor : Actor Mailbox σ}
    (h : Stage exchange orders actor) : Stage exchange (orders ++ [.shutdown]) actor.stop := by
  cases h with
  | serving served rest =>
    rw [stop_open, List.append_assoc]
    exact .serving served _
  | replying served other rest =>
    rw [stop_open, List.append_assoc]
    exact .replying served other _
  | leaving served rest =>
    rw [stop_open, List.append_assoc]
    exact .leaving served _
  | returned served rest lost hlost =>
    rw [List.append_assoc]
    rw [← requests_concat_shutdown] at hlost
    exact .returned served _ lost hlost

/-- The commands that wait are dropped, and with each of them the sender of its reply. -/
theorem foldl_hangUp (front : List (Call Mailbox)) (rest : List Order) :
    (commands front.length rest).foldl Call.hangUp (front ++ pending rest) =
      front ++ (rest.filterMap Order.request?).map fun _ => .ok { room := some 1, hasSender := false } := by
  induction rest generalizing front with
  | nil => rfl
  | cons o rest ih =>
    cases o with
    | shutdown => exact ih front
    | request r =>
      have hfirst : Call.hangUp (front ++ pending (.request r :: rest)) (.handle r front.length) =
          (front ++ [.ok { room := some 1, hasSender := false }]) ++ pending rest := by
        rw [List.append_assoc]
        exact List.modifyTailIdx_add (List.modifyHead (Except.map Channel.dropSender)) 0 front _
      have hrest := ih (front ++ [.ok { room := some 1, hasSender := false }])
      rw [List.length_append] at hrest
      rw [commands, List.foldl_cons, hfirst]
      refine hrest.trans ?_
      rw [List.append_assoc]
      rfl

/-- There is room for the reply to a call that awaits it, and its sender is dropped behind it. -/
theorem turn_replying {exchange : Exchange σ} {call : Nat} {response : Response} {inbox : Mailbox Command}
    {front rest : List (Call Mailbox)} (hfront : front.length = call) :
    turn { thread := .replying exchange call response, inbox, calls := front ++ [.awaiting] ++ rest } =
      { thread := .serving exchange, inbox, calls := front ++ [.answered response] ++ rest } := by
  subst hfront
  have hcall : (front ++ [Call.awaiting] ++ rest)[front.length]? = some .awaiting := by simp
  have hset : (front ++ [Call.awaiting] ++ rest).set front.length (.answered response) =
      front ++ [.answered response] ++ rest := by simp
  rw [← hset]
  simp only [turn, hcall]
  rfl

theorem Stage.turn {exchange : Exchange σ} {orders : List Order} {actor : Actor Mailbox σ}
    (h : Stage exchange orders actor) : Stage exchange orders actor.turn := by
  cases h with
  | serving served rest =>
    cases rest with
    | nil => exact .serving served []
    | cons o rest =>
      cases o with
      | shutdown => exact .leaving served rest
      | request r =>
        have hreplying : Stage exchange _ _ := .replying served r rest
        rw [List.append_assoc] at hreplying
        exact hreplying
  | replying served r rest =>
    have hserving : Stage exchange _ _ := .serving (served ++ [r]) rest
    rw [List.map_append, List.append_assoc, Exchange.handleAll_concat, List.length_append, List.map_append]
      at hserving
    rw [turn_replying (length_answered exchange served)]
    exact hserving
  | leaving served rest =>
    have hlost := foldl_hangUp ((exchange.handleAll served).1.map Call.answered) rest
    rw [length_answered] at hlost
    have hreturned : Stage exchange _ _ := .returned served rest
      ((rest.filterMap Order.request?).map fun _ => .ok { room := some 1, hasSender := false })
      List.map_map
    rw [← hlost] at hreturned
    exact hreturned
  | returned served rest lost hlost => exact .returned served rest lost hlost

/-- Whatever happens leads from stage to stage. -/
theorem Stage.step {exchange : Exchange σ} {orders : List Order} {actor : Actor Mailbox σ}
    (h : Stage exchange orders actor) (event : Event) :
    Stage exchange (orders ++ event.order?.toList) (actor.step event) := by
  cases event with
  | turn => exact (List.append_nil orders).symm ▸ h.turn
  | order o =>
    cases o with
    | request r => exact h.ask r
    | shutdown => exact h.stop

/-- **The stage of an actor depends on the orders alone**, whichever turns the thread has had so far. -/
theorem Stage.run {exchange : Exchange σ} {orders : List Order} {actor : Actor Mailbox σ}
    (h : Stage exchange orders actor) (events : List Event) :
    Stage exchange (orders ++ events.filterMap Event.order?) (actor.run events) := by
  induction events generalizing orders actor with
  | nil => exact (List.append_nil orders).symm ▸ h
  | cons event rest ih =>
    have hrest := ih (h.step event)
    rw [List.append_assoc] at hrest
    cases event <;> exact hrest

/-! ## The end of service -/

/-- The number of turns that the thread has left, once the end of service is in the inbox. -/
def toGo (actor : Actor Mailbox σ) : Nat :=
  match actor.thread with
  | .serving _ => 2 * actor.inbox.waiting.idxOf .shutdown + 2
  | .replying .. => 2 * actor.inbox.waiting.idxOf .shutdown + 3
  | .leaving _ => 1
  | .returned _ => 0

theorem idxOf_commands (first : Nat) (orders : List Order) :
    (commands first orders).idxOf .shutdown = orders.idxOf .shutdown := by
  induction orders generalizing first with
  | nil => rfl
  | cons o rest ih =>
    cases o with
    | shutdown => rfl
    | request r =>
      have hcommand : Command.handle r first ≠ .shutdown := nofun
      have horder : Order.request r ≠ .shutdown := nofun
      rw [commands, List.idxOf_cons_ne _ hcommand, List.idxOf_cons_ne _ horder, ih]

/-- Requests stand in front of the end of service. -/
theorem idxOf_append_requests (served : List Request) (rest : List Order) :
    (served.map Order.request ++ rest).idxOf .shutdown = served.length + rest.idxOf .shutdown := by
  rw [List.idxOf_append_of_notMem (by simp), List.length_map]

theorem mem_append_requests {served : List Request} {rest : List Order} :
    Order.shutdown ∈ served.map Order.request ++ rest ↔ Order.shutdown ∈ rest := by
  simp

theorem mem_commands (first : Nat) (orders : List Order) :
    Command.shutdown ∈ commands first orders ↔ Order.shutdown ∈ orders := by
  induction orders generalizing first with
  | nil => simp [commands]
  | cons o rest ih => cases o <;> simp [commands, ih]

/-- What is sent waits behind all others. -/
theorem waiting_send {α : Type} {mailbox sent : Mailbox α} {message : α}
    (h : Channel.send mailbox message = .ok sent) : sent.waiting = mailbox.waiting ++ [message] := by
  simp only [Channel.send] at h
  split at h
  · split at h
    · cases h
    · cases h
      rfl
  · cases h

omit [RecordStore σ] in
/-- An order is queued behind all that waits, if at all, and leaves the thread alone. -/
theorem tell_eq (actor : Actor Mailbox σ) (o : Order) :
    (actor.tell o).thread = actor.thread ∧
      ∃ more, (actor.tell o).inbox.waiting = actor.inbox.waiting ++ more := by
  cases o with
  | request r =>
    rw [tell, ask]
    split
    · exact ⟨rfl, _, waiting_send ‹_›⟩
    · exact ⟨rfl, [], (List.append_nil _).symm⟩
  | shutdown =>
    rw [tell, stop]
    split
    · exact ⟨rfl, _, waiting_send ‹_›⟩
    · exact ⟨rfl, [], (List.append_nil _).symm⟩

omit [RecordStore σ] in
/-- No order delays the end of service once it is in the inbox. -/
theorem toGo_tell {actor : Actor Mailbox σ} (h : .shutdown ∈ actor.inbox.waiting ∨ actor.toGo ≤ 1)
    (o : Order) : (actor.tell o).toGo = actor.toGo := by
  obtain ⟨hthread, more, hmore⟩ := actor.tell_eq o
  unfold toGo at h ⊢
  rw [hthread, hmore]
  cases hactor : actor.thread with
  | leaving exchange => rfl
  | returned exchange => rfl
  | serving exchange =>
    simp only [hactor] at h
    simp only [List.idxOf_append_of_mem (h.resolve_right (by omega))]
  | replying exchange call response =>
    simp only [hactor] at h
    simp only [List.idxOf_append_of_mem (h.resolve_right (by omega))]

/-- Once the end of service has arrived it is in the inbox or the thread has met it. -/
theorem Stage.shutdown_mem {exchange : Exchange σ} {orders : List Order} {actor : Actor Mailbox σ}
    (h : Stage exchange orders actor) (hend : .shutdown ∈ orders) :
    .shutdown ∈ actor.inbox.waiting ∨ actor.toGo ≤ 1 := by
  cases h with
  | serving served rest => exact .inl ((mem_commands _ rest).mpr (mem_append_requests.mp hend))
  | replying served r rest =>
    obtain hr | hrest := List.mem_cons.mp (mem_append_requests.mp hend)
    · cases hr
    · exact .inl ((mem_commands _ rest).mpr hrest)
  | leaving served rest => exact .inr (Nat.le_refl 1)
  | returned served rest lost hlost => exact .inr (Nat.zero_le 1)

/-- Each turn is one step towards the end of service. -/
theorem Stage.toGo_turn {exchange : Exchange σ} {orders : List Order} {actor : Actor Mailbox σ}
    (h : Stage exchange orders actor) (hend : .shutdown ∈ orders) : actor.turn.toGo = actor.toGo - 1 := by
  cases h with
  | serving served rest =>
    cases rest with
    | nil => exact absurd (mem_append_requests.mp hend) List.not_mem_nil
    | cons o rest =>
      cases o with
      | shutdown => rfl
      | request r =>
        have hcommand : Command.handle r served.length ≠ .shutdown := nofun
        have hnext : (commands served.length (.request r :: rest)).idxOf .shutdown =
            (commands (served.length + 1) rest).idxOf .shutdown + 1 := List.idxOf_cons_ne _ hcommand
        change 2 * (commands (served.length + 1) rest).idxOf .shutdown + 3 =
          2 * (commands served.length (.request r :: rest)).idxOf .shutdown + 2 - 1
        omega
  | replying served r rest =>
    rw [turn_replying (length_answered exchange served)]
    rfl
  | leaving served rest => rfl
  | returned served rest lost hlost => rfl

/-- A request takes two turns, and the end of service two more. -/
theorem Stage.toGo_le {exchange : Exchange σ} {orders : List Order} {actor : Actor Mailbox σ}
    (h : Stage exchange orders actor) : actor.toGo ≤ 2 * orders.idxOf .shutdown + 2 := by
  cases h with
  | serving served rest =>
    rw [idxOf_append_requests, ← idxOf_commands served.length rest]
    change 2 * (commands served.length rest).idxOf .shutdown + 2 ≤ _
    omega
  | replying served r rest =>
    have horder : Order.request r ≠ .shutdown := nofun
    rw [idxOf_append_requests, List.idxOf_cons_ne _ horder, ← idxOf_commands (served.length + 1) rest]
    change 2 * (commands (served.length + 1) rest).idxOf .shutdown + 3 ≤ _
    omega
  | leaving served rest => exact Nat.le_trans (Nat.le_succ 1) (Nat.le_add_left 2 _)
  | returned served rest lost hlost => exact Nat.zero_le _

theorem Stage.toGo_run {exchange : Exchange σ} {orders : List Order} {actor : Actor Mailbox σ}
    (h : Stage exchange orders actor) (hend : .shutdown ∈ orders) (events : List Event) :
    (actor.run events).toGo = actor.toGo - events.count .turn := by
  induction events generalizing orders actor with
  | nil => rfl
  | cons event rest ih =>
    have hrest := ih (h.step event) (List.mem_append_left _ hend)
    cases event with
    | turn =>
      have hturn : (actor.step .turn).toGo = actor.toGo - 1 := h.toGo_turn hend
      rw [hturn] at hrest
      rw [List.count_cons_self, Nat.add_comm, ← Nat.sub_sub]
      exact hrest
    | order o =>
      have htell : (actor.step (.order o)).toGo = actor.toGo := toGo_tell (h.shutdown_mem hend) o
      rw [htell] at hrest
      have horder : Event.order o ≠ .turn := nofun
      rw [List.count_cons_of_ne horder]
      exact hrest

/-! ## Schedules -/

/-- What comes in front of the first end of service, and what comes behind it. -/
theorem eq_of_append_shutdown_eq {served requests : List Request} {rest later : List Order}
    (h : served.map .request ++ .shutdown :: rest = requests.map .request ++ .shutdown :: later) :
    served = requests ∧ rest = later := by
  induction served generalizing requests with
  | nil =>
    cases requests with
    | nil => exact ⟨rfl, (List.cons.inj h).2⟩
    | cons r requests => cases (List.cons.inj h).1
  | cons r served ih =>
    cases requests with
    | nil => cases (List.cons.inj h).1
    | cons other requests =>
      obtain ⟨hr, hmore⟩ := List.cons.inj h
      obtain ⟨rfl, hrest⟩ := ih hmore
      exact ⟨congrArg (· :: served) (Order.request.inj hr), hrest⟩

/-- What has come of the orders once the thread is gone. -/
theorem Stage.outcome {exchange : Exchange σ} {orders later : List Order} {requests : List Request}
    {actor : Actor Mailbox σ} (h : Stage exchange orders actor)
    (horders : orders = requests.map .request ++ .shutdown :: later) (hgone : actor.toGo = 0) :
    actor.thread = .returned (exchange.handleAll requests).2 ∧
      actor.answers = (exchange.handleAll requests).1.map (fun response => some (.ok response)) ++
        (later.filterMap Order.request?).map fun _ => some (.error .stopped) := by
  cases h with
  | serving served rest => cases hgone
  | replying served r rest => cases hgone
  | leaving served rest => cases hgone
  | returned served rest lost hlost =>
    obtain ⟨rfl, rfl⟩ := eq_of_append_shutdown_eq horders
    refine ⟨rfl, ?_⟩
    rw [answers, List.map_append, List.map_map, hlost]
    rfl

/-- **An actor serves alike under every schedule.** Some requests arrive, then the end of service, and after
that the thread has the turns that it needs; apart from this it and the senders act in any order. The thread
hands back the exchange that has handled the requests, one after the other. Who asked before the end of
service has got the response to the request, and who asked later is told that the actor has stopped. -/
theorem run_spawn {κ : Type → Type} [Channel κ] [LawfulChannel κ] (exchange : Exchange σ)
    {requests : List Request} {before after : List Event}
    (hbefore : before.filterMap Event.order? = requests.map .request)
    (hafter : 2 * requests.length + 2 ≤ after.count .turn) :
    let actor := (spawn exchange : Actor κ σ).run (before ++ .order .shutdown :: after)
    actor.thread = .returned (exchange.handleAll requests).2 ∧
      actor.answers = (exchange.handleAll requests).1.map (fun response => some (.ok response)) ++
        ((after.filterMap Event.order?).filterMap Order.request?).map fun _ => some (.error .stopped) := by
  intro actor
  have hserving : Stage exchange [] (spawn exchange) := .serving [] []
  have hended : Stage exchange (requests.map .request ++ [.shutdown]) ((spawn exchange).run before).stop :=
    hbefore ▸ (hserving.run before).stop
  have hview : actor.view = ((spawn exchange).run before).stop.run after := by
    rw [view_run, view_spawn, run, List.foldl_append]
    rfl
  have hgone : actor.view.toGo = 0 := by
    have hle := hended.toGo_le
    rw [idxOf_append_requests, List.idxOf_cons_self] at hle
    rw [hview, hended.toGo_run (by simp)]
    omega
  have horders : requests.map .request ++ [.shutdown] ++ after.filterMap Event.order? =
      requests.map .request ++ .shutdown :: after.filterMap Event.order? := List.append_assoc _ _ _
  have hstage := hended.run after
  rw [← hview] at hstage
  obtain ⟨hthread, hanswers⟩ := hstage.outcome horders hgone
  exact ⟨hthread, actor.answers_view ▸ hanswers⟩

/-! ## One caller -/

/-- A thread that waits takes a request at once and replies to it. -/
theorem call_idle (exchange : Exchange σ) (calls : List (Call Mailbox)) (r : Request) :
    call { thread := .serving exchange, inbox := {}, calls } r =
      (some (.ok (exchange.handle r).1),
        { thread := .serving (exchange.handle r).2
          inbox := {}
          calls := calls ++ [.answered (exchange.handle r).1] }) := by
  have hturns : (turn (turn (ask { thread := .serving exchange, inbox := {}, calls } r))) =
      { thread := .serving (exchange.handle r).2
        inbox := {}
        calls := calls ++ [.answered (exchange.handle r).1] ++ [] } :=
    (congrArg turn (by rw [List.append_nil]; rfl)).trans (turn_replying rfl)
  rw [List.append_nil] at hturns
  rw [call, hturns]
  simp [Call.answered, Call.answer?, Channel.receive]

/-- Whoever is alone with an actor whose thread waits is handed the exchange as it is. -/
theorem shutdown_idle {κ : Type → Type} [Channel κ] [LawfulChannel κ] {actor : Actor κ σ}
    {exchange : Exchange σ} {calls : List (Call Mailbox)}
    (h : actor.view = { thread := .serving exchange, inbox := {}, calls }) :
    actor.shutdown.1 = some exchange := by
  rw [← actor.shutdown_view, h]
  rfl

end Actor

end Bourse
