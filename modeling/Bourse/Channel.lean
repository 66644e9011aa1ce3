/-!
# `Bourse.Channel` — queues between threads

A channel has a sending and a receiving end. What is sent waits until it is received, first come, first
served. Nothing can be sent to a channel whose receiver is gone, and what was waiting there is dropped with
the receiver. Once the last sender is gone the receiver still gets what waits and is then told that there
will be no more.

Channels are not made here: `Channel` names what they do, and `LawfulChannel` is what their documentation
promises. Whatever promises that does to its content what a `Mailbox`, which is nothing but its content, does
to itself.

## Contents
- **Contents.** `Mailbox`: what waits in a channel, and which of its ends are left.
- **Channels.** `Channel` and `LawfulChannel`.
- **Mailboxes.** `Mailbox` as a lawful channel.
- **Channels by their content.** `content_send`, `content_receive`, `content_dropReceiver`.
-/

namespace Bourse

/-! ## Contents -/

/-- What a channel holds, and which of its ends are left. -/
structure Mailbox (α : Type) where
  /-- The messages that wait, the oldest first. -/
  waiting : List α := []
  /-- How many messages may wait, if there is a limit. -/
  room : Option Nat := none
  hasSender : Bool := true
  hasReceiver : Bool := true
deriving DecidableEq, Repr

/-- No further message may wait. -/
def Mailbox.isFull {α : Type} (mailbox : Mailbox α) : Bool := mailbox.room.any (· ≤ mailbox.waiting.length)

/-! ## Channels -/

/-- Why nothing is sent. -/
inductive SendError
  /-- There is no room at the moment. -/
  | full
  /-- The receiver is gone. -/
  | disconnected
deriving DecidableEq, Repr

/-- Why nothing is received. -/
inductive ReceiveError
  /-- Nothing waits at the moment. -/
  | empty
  /-- Nothing waits, and the last sender is gone. -/
  | disconnected
deriving DecidableEq, Repr

/-- A kind of channels. -/
class Channel (κ : Type → Type) where
  /-- A channel with both ends, for so many messages if there is a limit. -/
  create {α : Type} (room : Option Nat) : κ α
  /-- Sends a message. -/
  send {α : Type} : κ α → α → Except SendError (κ α)
  /-- Receives the next message. -/
  receive {α : Type} : κ α → Except ReceiveError (α × κ α)
  /-- The last sender goes. -/
  dropSender {α : Type} : κ α → κ α
  /-- The receiver goes. Gives the messages that are dropped with it. -/
  dropReceiver {α : Type} : κ α → List α × κ α
  /-- What the channel holds. No program looks at it; it is what the laws speak of. -/
  content {α : Type} : κ α → Mailbox α

/-- What is documented of channels. -/
class LawfulChannel (κ : Type → Type) [Channel κ] : Prop where
  content_create {α : Type} (room : Option Nat) : Channel.content (Channel.create room : κ α) = { room }
  /-- A message is queued behind those that wait. -/
  send_queues {α : Type} (channel : κ α) (message : α) :
    (Channel.content channel).hasReceiver = true → (Channel.content channel).isFull = false →
      ∃ sent, Channel.send channel message = .ok sent ∧ Channel.content sent =
        { Channel.content channel with waiting := (Channel.content channel).waiting ++ [message] }
  send_full {α : Type} (channel : κ α) (message : α) :
    (Channel.content channel).hasReceiver = true → (Channel.content channel).isFull = true →
      Channel.send channel message = .error .full
  /-- Nothing is sent to a channel without a receiver. -/
  send_disconnected {α : Type} (channel : κ α) (message : α) :
    (Channel.content channel).hasReceiver = false → Channel.send channel message = .error .disconnected
  /-- The oldest message is received first, even when the senders are gone. -/
  receive_oldest {α : Type} (channel : κ α) (message : α) (rest : List α) :
    (Channel.content channel).waiting = message :: rest →
      ∃ received, Channel.receive channel = .ok (message, received) ∧
        Channel.content received = { Channel.content channel with waiting := rest }
  receive_empty {α : Type} (channel : κ α) :
    (Channel.content channel).waiting = [] → (Channel.content channel).hasSender = true →
      Channel.receive channel = .error .empty
  receive_disconnected {α : Type} (channel : κ α) :
    (Channel.content channel).waiting = [] → (Channel.content channel).hasSender = false →
      Channel.receive channel = .error .disconnected
  content_dropSender {α : Type} (channel : κ α) :
    Channel.content (Channel.dropSender channel) = { Channel.content channel with hasSender := false }
  /-- All that waits is dropped with the receiver. -/
  dropReceiver_drops {α : Type} (channel : κ α) :
    (Channel.dropReceiver channel).1 = (Channel.content channel).waiting ∧
      Channel.content (Channel.dropReceiver channel).2 =
        { Channel.content channel with waiting := [], hasReceiver := false }

/-! ## Mailboxes -/

instance : Channel Mailbox where
  create room := { room }
  send mailbox message :=
    if mailbox.hasReceiver then
      if mailbox.isFull then .error .full
      else .ok { mailbox with waiting := mailbox.waiting ++ [message] }
    else .error .disconnected
  receive mailbox :=
    match mailbox.waiting with
    | message :: rest => .ok (message, { mailbox with waiting := rest })
    | [] => if mailbox.hasSender then .error .empty else .error .disconnected
  dropSender mailbox := { mailbox with hasSender := false }
  dropReceiver mailbox := (mailbox.waiting, { mailbox with waiting := [], hasReceiver := false })
  content mailbox := mailbox

instance : LawfulChannel Mailbox where
  content_create _ := rfl
  send_queues mailbox message hreceiver hroom :=
    ⟨{ mailbox with waiting := mailbox.waiting ++ [message] }, by
      simp [Channel.send, show mailbox.hasReceiver = true from hreceiver,
        show mailbox.isFull = false from hroom], rfl⟩
  send_full mailbox _ hreceiver hroom := by
    simp [Channel.send, show mailbox.hasReceiver = true from hreceiver,
      show mailbox.isFull = true from hroom]
  send_disconnected mailbox _ hreceiver := by
    simp [Channel.send, show mailbox.hasReceiver = false from hreceiver]
  receive_oldest mailbox message rest hwaiting :=
    ⟨{ mailbox with waiting := rest }, by
      simp [Channel.receive, show mailbox.waiting = message :: rest from hwaiting], rfl⟩
  receive_empty mailbox hwaiting hsender := by
    simp [Channel.receive, show mailbox.waiting = [] from hwaiting,
      show mailbox.hasSender = true from hsender]
  receive_disconnected mailbox hwaiting hsender := by
    simp [Channel.receive, show mailbox.waiting = [] from hwaiting,
      show mailbox.hasSender = false from hsender]
  content_dropSender _ := rfl
  dropReceiver_drops _ := ⟨rfl, rfl⟩

/-! ## Channels by their content -/

namespace Channel

variable {κ : Type → Type} [Channel κ] [LawfulChannel κ] {α : Type}

/-- Sending does to the content of a channel what it does to a mailbox. -/
theorem content_send (channel : κ α) (message : α) :
    (send channel message).map content = send (content channel) message := by
  cases hreceiver : (content channel).hasReceiver with
  | false =>
    rw [LawfulChannel.send_disconnected channel message hreceiver]
    exact (LawfulChannel.send_disconnected (content channel) message hreceiver).symm
  | true =>
    cases hfull : (content channel).isFull with
    | true =>
      rw [LawfulChannel.send_full channel message hreceiver hfull]
      exact (LawfulChannel.send_full (content channel) message hreceiver hfull).symm
    | false =>
      obtain ⟨sent, hsend, hcontent⟩ := LawfulChannel.send_queues channel message hreceiver hfull
      rw [hsend, Except.map, hcontent]
      simp [send, hreceiver, hfull]

/-- Receiving does to the content of a channel what it does to a mailbox. -/
theorem content_receive (channel : κ α) :
    (receive channel).map (Prod.map id content) = receive (content channel) := by
  cases hwaiting : (content channel).waiting with
  | cons message rest =>
    obtain ⟨received, hreceive, hcontent⟩ := LawfulChannel.receive_oldest channel message rest hwaiting
    rw [hreceive, Except.map, Prod.map, hcontent]
    simp [receive, hwaiting]
  | nil =>
    cases hsender : (content channel).hasSender with
    | true =>
      rw [LawfulChannel.receive_empty channel hwaiting hsender]
      exact (LawfulChannel.receive_empty (content channel) hwaiting hsender).symm
    | false =>
      rw [LawfulChannel.receive_disconnected channel hwaiting hsender]
      exact (LawfulChannel.receive_disconnected (content channel) hwaiting hsender).symm

theorem content_dropReceiver (channel : κ α) :
    ((dropReceiver channel).1, content (dropReceiver channel).2) = dropReceiver (content channel) := by
  obtain ⟨hdropped, hcontent⟩ := LawfulChannel.dropReceiver_drops channel
  rw [hdropped, hcontent]
  rfl

end Channel

end Bourse
