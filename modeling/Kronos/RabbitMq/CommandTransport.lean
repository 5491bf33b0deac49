import Mathlib.Data.Int.Notation
import Kronos.Lib.OrderedMap
import Kronos.Lib.Transition

/-!
# The RabbitMQ command transport

A dispatch waits for the connection, publishes its request and then waits in the
table `pending` under its request id, with a timer of its own. It is settled by
the reply that carries its id, by the return of a message no queue takes, by its
timer, by the failure of the channel, by `close`, or by `publish` when this throws.

An action is one synchronous piece of the code: the call of `dispatch`, its
continuation after the connection is up, a callback of the channel or of a timer,
a piece of `close`. Callbacks may also come while `publish` runs. The continuation
behind a settled promise, which ends the dispatch's admission, is an action too.
Of the handling of commands only the reply that does not fit into the channel's
buffer is modelled, since it fails the transport. Texts are named by their cause.
-/
namespace Kronos.RabbitMq.CommandTransport
open Kronos.Lib Kronos.Lib.Transition

/-- Why a promise was rejected. -/
inductive Reason where
  | timeoutMs
  | alreadyPending
  | overloaded
  | connectFailed
  | connectTimedOut
  | closed
  | notConnected
  | noReplyQueue
  | publishBufferFull
  | notSerializable
  | publishThrew
  | timedOut
  | malformedReply
  | noQueueBound
  | channelError
  | channelClosed
  | replyBufferFull
  | closedBeforeReply
  deriving DecidableEq, Repr

/-- How a promise settled: with the body of a reply, and the request id this carried, or
with an error. -/
inductive Outcome (R B : Type) where
  | reply (requestId : R) (body : B)
  | rejected (reason : Reason)
  deriving DecidableEq, Repr

/-- Where a dispatch is. `answered`: the promise it waits for is settled and its continuation is
scheduled. -/
inductive Phase (R B : Type) where
  | connecting
  | awaiting
  | answered (outcome : Outcome R B)
  | settled (outcome : Outcome R B)
  deriving DecidableEq, Repr

inductive Connect where
  | notStarted
  | running
  | connected
  | failed
  deriving DecidableEq, Repr

/-- `down`: it has emitted `error` or `close`, or was told to close. -/
inductive Channel where
  | absent
  | up
  | down
  deriving DecidableEq, Repr

structure State (R B : Type) where
  calls : List (R × Phase R B)
  /-- The keys of the table, in its order. -/
  pending : List R
  /-- The requests whose timer is armed. -/
  timers : List R
  /-- The request ids that `outboundAdmission` has let in. -/
  admitted : List R
  connect : Connect
  channel : Channel
  replyQueue : Bool
  closed : Bool
  /-- `close` has rejected what it found in the table. -/
  drained : Bool
  transportFailure : Option Reason
  writable : Bool
  /-- The dispatches that were settled, in their order. -/
  settlements : List (R × Outcome R B)
  deriving DecidableEq, Repr

/-- What the channel calls back with. A reply may carry no correlation id, and a body that
is no JSON. -/
inductive Event (R B : Type) where
  | reply (correlationId : Option R) (body : Option B)
  | returned (correlationId : Option R)
  | error
  | close
  | drain
  deriving DecidableEq, Repr

inductive Action (R B : Type) where
  | dispatch (requestId : R) (timeoutMs : ℤ)
  | channelOpened
  | replyQueueAsserted
  | connected
  | connectFails
  | connectTimeout (requestId : R)
  | connectRejected (requestId : R)
  /-- The continuation after the connection is up. `published` is what `publish` returns, `none`
  when it throws. -/
  | proceed (requestId : R) (serializable : Bool) (during : List (Event R B))
      (published : Option Bool)
  | timeout (requestId : R)
  | event (e : Event R B)
  | replyBufferFull
  | close
  | closeDrains
  | closeEnds
  | finish (requestId : R)
  deriving DecidableEq, Repr

def initial (R B : Type) : State R B where
  calls := []
  pending := []
  timers := []
  admitted := []
  connect := .notStarted
  channel := .absent
  replyQueue := false
  closed := false
  drained := false
  transportFailure := none
  writable := true
  settlements := []

namespace State

variable {R B : Type} [DecidableEq R] [DecidableEq B] (s : State R B)

def phase (requestId : R) : Option (Phase R B) := OrderedMap.get requestId s.calls

def setPhase (requestId : R) (phase : Phase R B) : State R B :=
  { s with calls := OrderedMap.set requestId phase s.calls }

/-- `resolve` and `reject` of the promise behind a pending request: the first call counts. -/
def settle (requestId : R) (outcome : Outcome R B) : State R B :=
  if s.phase requestId = some .awaiting then s.setPhase requestId (.answered outcome) else s

def clearTimeout (requestId : R) : State R B := { s with timers := s.timers.filter (· ≠ requestId) }

def pendingDelete (requestId : R) : State R B :=
  { s with pending := s.pending.filter (· ≠ requestId) }

/-- One request leaves the table and its promise is settled. -/
def conclude (requestId : R) (outcome : Outcome R B) : State R B :=
  ((s.pendingDelete requestId).clearTimeout requestId).settle requestId outcome

/-- The loop over `pending.values()` that rejects, with `pending.clear()` after it. -/
def rejectAll (reason : Reason) : State R B :=
  { s.pending.foldl
      (fun t requestId => (t.clearTimeout requestId).settle requestId (.rejected reason)) s with
    pending := [] }

def failTransport (reason : Reason) : State R B :=
  let reason := s.transportFailure.getD reason
  { s with transportFailure := some reason }.rejectAll reason

/-- The channel is closed or closing from now on, if there is one. -/
def closeChannel : State R B := { s with channel := if s.channel = .absent then .absent else .down }

def handleReply (correlationId : Option R) (body : Option B) : State R B :=
  match correlationId with
  | none => s
  | some requestId =>
      if requestId ∈ s.pending then
        s.conclude requestId (body.elim (.rejected .malformedReply) (.reply requestId))
      else s

def handleReturn (correlationId : Option R) : State R B :=
  match correlationId with
  | none => s
  | some requestId =>
      if requestId ∈ s.pending then s.conclude requestId (.rejected .noQueueBound) else s

def onEvent : Event R B → State R B
  | .reply correlationId body => s.handleReply correlationId body
  | .returned correlationId => s.handleReturn correlationId
  | .error => s.closeChannel.failTransport .channelError
  | .close => s.closeChannel.failTransport .channelClosed
  | .drain => { s with writable := true }

/-- A rejection before anything is awaited. -/
def refuse (requestId : R) (reason : Reason) : State R B :=
  { s.setPhase requestId (.settled (.rejected reason)) with
    settlements := s.settlements ++ [(requestId, .rejected reason)] }

/-- `connect` rejects at once on a transport that is closed or has failed. -/
def connectReason : Option Reason := if s.closed then some .closed else s.transportFailure

/-- Admission lets the dispatch in, and `connect` is called, which starts connecting once. -/
def enter (requestId : R) : State R B :=
  { s with
    admitted := s.admitted ++ [requestId]
    connect := if s.connectReason = none ∧ s.connect = .notStarted then .running else s.connect }

/-- The call of `dispatch`, up to its first `await`; `withMessagingTimeout` takes no timeout
beyond 32 bits. -/
def dispatch (limit : ℕ) (requestId : R) (timeoutMs : ℤ) : State R B :=
  if ¬(0 < timeoutMs ∧ timeoutMs ≤ 9007199254740991) then s.refuse requestId .timeoutMs
  else if requestId ∈ s.admitted then s.refuse requestId .alreadyPending
  else if limit ≤ s.admitted.length then s.refuse requestId .overloaded
  else if 2147483647 < timeoutMs then
    (s.enter requestId).setPhase requestId (.answered (.rejected .timeoutMs))
  else
    (s.enter requestId).setPhase requestId <|
      s.connectReason.elim .connecting fun reason => .answered (.rejected reason)

/-- The executor of the promise: timer, entry, `publish`. -/
def request (requestId : R) (during : List (Event R B)) (published : Option Bool) : State R B :=
  let s :=
    { s.setPhase requestId .awaiting with
      timers := s.timers ++ [requestId]
      pending := s.pending ++ [requestId] }
  let s := during.foldl onEvent s
  match published with
  | some writable => { s with writable := writable }
  | none => s.conclude requestId (.rejected .publishThrew)

/-- What the continuation finds before it publishes. -/
def proceedReason (requestId : R) (serializable : Bool) : Option Reason :=
  if s.closed then some .closed
  else if s.channel = .absent then some .notConnected
  else if !s.replyQueue then some .noReplyQueue
  else if requestId ∈ s.pending then some .alreadyPending
  else if !s.writable then some .publishBufferFull
  else if !serializable then some .notSerializable
  else none

def finish (requestId : R) (outcome : Outcome R B) : State R B :=
  { s.setPhase requestId (.settled outcome) with
    admitted := s.admitted.filter (· ≠ requestId)
    settlements := s.settlements ++ [(requestId, outcome)] }

end State

variable {R B : Type} [DecidableEq R] [DecidableEq B]

/-- `limit` is the capacity of `outboundAdmission`. Request ids are distinct. -/
def step (limit : ℕ) (s : State R B) : Action R B → Option (State R B)
  | .dispatch requestId timeoutMs =>
      if s.phase requestId = none then some (s.dispatch limit requestId timeoutMs) else none
  | .channelOpened =>
      if s.connect = .running ∧ s.channel = .absent then some { s with channel := .up } else none
  | .replyQueueAsserted =>
      if s.connect = .running ∧ s.channel ≠ .absent then some { s with replyQueue := true }
      else none
  | .connected =>
      if s.connect = .running ∧ s.replyQueue then some { s with connect := .connected } else none
  | .connectFails => if s.connect = .running then some { s with connect := .failed } else none
  | .connectTimeout requestId =>
      if s.phase requestId = some .connecting then
        some (s.setPhase requestId (.answered (.rejected .connectTimedOut)))
      else none
  | .connectRejected requestId =>
      if s.phase requestId = some .connecting ∧ s.connect = .failed then
        some (s.setPhase requestId (.answered (.rejected .connectFailed)))
      else none
  | .proceed requestId serializable during published =>
      if s.phase requestId = some .connecting ∧ s.connect = .connected then
        some <| (s.proceedReason requestId serializable).elim (s.request requestId during published)
          fun reason =>
          s.setPhase requestId (.answered (.rejected reason))
      else none
  | .timeout requestId =>
      if requestId ∈ s.timers then some (s.conclude requestId (.rejected .timedOut)) else none
  | .event e => if s.channel = .absent then none else some (s.onEvent e)
  | .replyBufferFull =>
      if s.channel = .up then some (s.closeChannel.failTransport .replyBufferFull) else none
  | .close => some { s with closed := true }
  | .closeDrains =>
      if s.closed then some { s.rejectAll .closedBeforeReply with drained := true } else none
  | .closeEnds => if s.closed then some (s.closeChannel.failTransport .closed) else none
  | .finish requestId =>
      match s.phase requestId with
      | some (.answered outcome) => some (s.finish requestId outcome)
      | _ => none

/-- What amqplib does: `publish` throws on a channel that is closed or closing. -/
def downThrows (s : State R B) : Action R B → Bool
  | .proceed _ _ _ published => s.channel ≠ .down || published.isNone
  | _ => true

end Kronos.RabbitMq.CommandTransport
