import Kronos.Lib.OrderedMap
import Mathlib.Data.Fintype.Basic
import Mathlib.Logic.Function.Basic

/-!
# The distributed subscriber registry

Every instance mirrors the subscriptions of the whole cluster. A claim or a release
changes the instance's own mirror at once and is gossiped over a fanout exchange as
soon as the instance is connected; an instance that joins asks the others to tell
again what they own.

The state is what each instance holds, with its gossip queue and what it still has to
publish. The queue is kept by sender: the messages of one sender arrive in the order
they were published, those of two senders in any order. The registry's claims and
releases come from the query bus, which keeps the subscriptions it registered. The
direct exchange, and connections that fail, are left out.
-/
namespace Kronos.RabbitMq.SubscriberRegistry
open Kronos.Lib

/-- A message on the gossip exchange; its sender is the `ownerInstanceId` or the
`requesterId`. `R` is a query name with a payload. -/
inductive GossipEnvelope (X R : Type) where
  | claim (subId : X) (record : R)
  | release (subId : X)
  | syncRequest
  deriving DecidableEq, Repr

/-- How far `doConnect` has come. -/
inductive Phase where
  | away
  /-- The gossip queue is bound. -/
  | bound
  /-- The gossip queue is consumed. -/
  | consuming
  /-- The sync request is published, and `connect` has resolved. -/
  | connected
  deriving DecidableEq, Repr

structure Instance (I X R : Type) where
  phase : Phase
  closed : Bool
  failure : Bool
  /-- The record and the owner of each subscription. -/
  mirror : List (X × R × I)
  locallyOwnedSubIds : List X
  /-- The query bus's subscriptions. -/
  localOwnedHandlers : List X
  /-- What waits for `connect` to be published. -/
  outbox : List (GossipEnvelope X R)
  inbox : I → List (GossipEnvelope X R)
  /-- What was claimed and not released, until the instance is closed. -/
  claimed : List (X × R)

abbrev State (I X R : Type) := I → Instance I X R

def initial (I X R : Type) : State I X R :=
  fun _ => ⟨.away, false, false, [], [], [], [], fun _ => [], []⟩

variable {I X R : Type} [DecidableEq I] [DecidableEq X]

namespace Instance

/-- `terminate`: each owned subscription completes, which takes it from the bus. Its
release finds the registry closed, or failed, and is not published. -/
def terminate (mine : Instance I X R) : Instance I X R :=
  { mine with
    failure := true
    localOwnedHandlers := mine.localOwnedHandlers.filter fun subId =>
      !mine.locallyOwnedSubIds.contains subId
    mirror := []
    locallyOwnedSubIds := [] }

def full (mine : Instance I X R) (subId : X) : Bool :=
  16384 ≤ mine.mirror.length && (OrderedMap.get subId mine.mirror).isNone

/-- `registerSubscription`, with the registry's `claim`. A claim that the registry
rejects leaves the subscription with the bus, until it is released. -/
def claim (me : I) (mine : Instance I X R) (subId : X) (record : R) : Instance I X R :=
  if subId ∈ mine.localOwnedHandlers ∨ 1024 ≤ mine.localOwnedHandlers.length then mine
  else
    let registered := { mine with localOwnedHandlers := mine.localOwnedHandlers ++ [subId] }
    if mine.closed || mine.failure || mine.full subId then registered
    else
      { registered with
        mirror := OrderedMap.set subId (record, me) mine.mirror
        locallyOwnedSubIds :=
          if subId ∈ mine.locallyOwnedSubIds then mine.locallyOwnedSubIds
          else mine.locallyOwnedSubIds ++ [subId]
        outbox := mine.outbox ++ [.claim subId record]
        claimed := OrderedMap.set subId record mine.claimed }

/-- `unregisterSubscription`, with the registry's `release`. -/
def release (mine : Instance I X R) (subId : X) : Instance I X R :=
  if subId ∈ mine.localOwnedHandlers then
    { mine with
      localOwnedHandlers := mine.localOwnedHandlers.erase subId
      mirror := OrderedMap.delete subId mine.mirror
      locallyOwnedSubIds := mine.locallyOwnedSubIds.filter fun owned => owned ≠ subId
      outbox := if mine.closed || mine.failure then mine.outbox else mine.outbox ++ [.release subId]
      claimed := OrderedMap.delete subId mine.claimed }
  else mine

/-- `close`. What still waits to be published is dropped. -/
def close (mine : Instance I X R) : Instance I X R :=
  { mine.terminate with closed := true, outbox := [], claimed := [] }

/-- What an instance tells one that joins. -/
def ownClaims (mine : Instance I X R) : List (GossipEnvelope X R) :=
  mine.locallyOwnedSubIds.filterMap fun subId =>
    (OrderedMap.get subId mine.mirror).map fun record => .claim subId record.1

end Instance

namespace State
variable (s : State I X R)

def update (i : I) (mine : Instance I X R) : State I X R := Function.update s i mine

/-- Publish to every queue that is bound. -/
def broadcast (i : I) (envelopes : List (GossipEnvelope X R)) : State I X R := fun j =>
  if (s j).phase ≠ .away ∧ (s j).closed = false then
    { s j with inbox := Function.update (s j).inbox i ((s j).inbox i ++ envelopes) }
  else s j

/-- `handleGossip` of the instance `j`, for a message of `i`. -/
def handleGossip (j i : I) (envelope : GossipEnvelope X R) : State I X R :=
  if (s j).closed || (s j).failure || decide (i = j) then s
  else
    match envelope with
    | .claim subId record =>
        if (s j).full subId then s.update j (s j).terminate
        else s.update j { s j with mirror := OrderedMap.set subId (record, i) (s j).mirror }
    | .release subId => s.update j { s j with mirror := OrderedMap.delete subId (s j).mirror }
    | .syncRequest => s.broadcast j (s j).ownClaims

end State

inductive Action (I X R : Type) where
  /-- `doConnect` binds the queue, consumes it, and announces the instance. -/
  | bind (i : I)
  | consume (i : I)
  | announce (i : I)
  | claim (i : I) (subId : X) (record : R)
  | release (i : I) (subId : X)
  /-- A claim or a release goes on after `connect`. -/
  | publish (i : I)
  /-- The next message of `i` reaches `j`. -/
  | deliver (j i : I)
  | close (i : I)
  deriving DecidableEq, Repr

def step (s : State I X R) : Action I X R → Option (State I X R)
  | .bind i =>
      if (s i).phase = .away ∧ (s i).closed = false ∧ (s i).failure = false then
        some (s.update i { s i with phase := .bound })
      else none
  | .consume i =>
      if (s i).phase = .bound ∧ (s i).closed = false then
        some (s.update i { s i with phase := .consuming })
      else none
  | .announce i =>
      if (s i).phase = .consuming ∧ (s i).closed = false then
        some ((s.update i { s i with phase := .connected }).broadcast i [.syncRequest])
      else none
  | .claim i subId record => some (s.update i ((s i).claim i subId record))
  | .release i subId => some (s.update i ((s i).release subId))
  | .publish i =>
      match (s i).outbox with
      | envelope :: outbox =>
          if (s i).phase = .connected ∧ (s i).closed = false then
            some ((s.update i { s i with outbox := outbox }).broadcast i [envelope])
          else none
      | [] => none
  | .deliver j i =>
      match (s j).inbox i with
      | envelope :: inbox =>
          if (s j).phase = .consuming ∨ (s j).phase = .connected then
            some (State.handleGossip
              (s.update j { s j with inbox := Function.update (s j).inbox i inbox }) j i envelope)
          else none
      | [] => none
  | .close i => if (s i).closed then some s else some (s.update i (s i).close)

end Kronos.RabbitMq.SubscriberRegistry
