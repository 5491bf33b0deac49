import Kronos.Processing.SplitMerge

/-!
# Resets and the replay flag

The token rows of a processor that is also reset: `resetTokens` puts every
segment back, and a delivery carries what `isReplay` tells the handler. The
rows, the log and the batches are those of `SplitMerge`; what is new is the
flag `processBatch` computes beside them.

To say whether the flag tells the truth the state also records what no token
knows: for every hash, what had been delivered when the latest chain of resets
of its segment began, and where the segment had got to. A reset in the middle
of a replay goes on with the chain it finds.
-/
namespace Kronos.Processing.Replay
open Kronos.Lib.Transition SharedStream TrackingToken
open SplitMerge (Config Row accepts rowOf segmentsNow reachOf)

variable {K E I : Type}

/-- A chain of resets. -/
structure Chain (K E : Type) where
  /-- What had been delivered when it began. -/
  before : List (SequencedEvent K E)
  /-- Where the segment had got to. -/
  reached : ℕ
  deriving DecidableEq

structure Delivery (K E : Type) where
  event : SequencedEvent K E
  isReplay : Bool
  /-- How far the segment had got with this hash just before. -/
  position : ℕ
  chain : Chain K E
  deriving DecidableEq

/-- A delivery said to be a replay is of an event delivered before the chain
began, and one of such an event is said to be a replay until the segment has got
back to where it was. -/
def Delivery.Truthful (d : Delivery K E) : Prop :=
  (d.isReplay = true → d.event ∈ d.chain.before) ∧
    (d.event ∈ d.chain.before → d.position < d.chain.reached → d.isReplay = true)

structure State (K E : Type) where
  base : SplitMerge.State K E
  /-- The latest chain of resets, for every hash. -/
  chains : ℕ → Chain K E
  deliveries : List (Delivery K E)

def initial (level : ℕ) : State K E where
  base := SplitMerge.initial level
  chains _ := ⟨[], 0⟩
  deliveries := []

/-- Whether an event is delivered as part of a replay. -/
def replaying (token : TrackingToken K) (e : SequencedEvent K E) : Bool :=
  match token with
  | replay tokenAtReset _ => tokenAtReset.covers e.past
  | _ => false

/-- What `processBatch` delivers of a batch. -/
def deliver (hashOf : E → ℕ) (chains : ℕ → Chain K E) :
    TrackingToken K → List (SequencedEvent K E) → List (Delivery K E)
  | _, [] => []
  | token, e::batch =>
      let rest := deliver hashOf chains (advanceTokenTo token e.past) batch
      if SegmentWorker.isFresh hashOf token e then
        ⟨e, replaying token e, reachOf token (hashOf e.event), chains (hashOf e.event)⟩::rest
      else rest

/-- The deliveries a step commits. -/
def deliveriesOf (cfg : Config E I) (s : State K E) :
    SplitMerge.Action K E → List (Delivery K E)
  | .batch id n =>
      match rowOf s.base id with
      | none => []
      | some row =>
          let batch := (asked s.base.log row.tokenNow.position (accepts cfg row.segment)).take n
          (deliver cfg.hashOf s.chains row.tokenNow batch).filter fun d => cfg.handled d.event.event
  | _ => []

/-- `resetTokens`: every segment starts over at `startPosition`. -/
def resetTokens (s : SplitMerge.State K E) (startPosition : ℕ) : SplitMerge.State K E :=
  { s with
    rows := s.rows.map fun row =>
      if row.segment.id ∈ (segmentsNow s).map (·.id) then
        { row with token := some (resetToken row.token startPosition) }
      else row }

/-- A segment that has not got back goes on with its chain; otherwise a new one begins. -/
def Chain.atReset (chain : Chain K E) (delivered : List (SequencedEvent K E))
    (token : TrackingToken K) (hash : ℕ) : Chain K E :=
  if reachOf token hash < chain.reached then chain else ⟨delivered, (reachedBy token).position⟩

def chainsAtReset (s : State K E) (hash : ℕ) : Chain K E :=
  match s.base.rows.find? fun row => inSegment row.segment hash with
  | none => s.chains hash
  | some row => (s.chains hash).atReset s.base.delivered row.tokenNow hash

inductive Action (K E : Type) where
  | run (a : SplitMerge.Action K E)
  | reset (startPosition : ℕ)

def step (cfg : Config E I) (s : State K E) : Action K E → Option (State K E)
  | .run a =>
      (SplitMerge.step cfg s.base a).map fun base =>
        { s with base := base, deliveries := s.deliveries ++ deliveriesOf cfg s a }
  | .reset startPosition =>
      some { s with
        base := resetTokens s.base startPosition
        chains := chainsAtReset s }

end Kronos.Processing.Replay
