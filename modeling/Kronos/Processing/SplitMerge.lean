import Kronos.Processing.SegmentPartition
import Kronos.Processing.Worker

/-!
# Splitting and merging segments

The token rows of a processor, the segment each row's worker was given, and the
steps that change them: a committed batch of a segment, a quiet stretch it
moves through, `splitSegment` and `mergeSegment`. The log is in position order
and the steps are atomic; what a single worker does between two of them is the
subject of the worker's own module.

Every hash has a position its segment's token accounts for: the half's position
when the token is a merged one, the token's own otherwise. `SplitMergeInv` says
that what was delivered of a hash is what lies below that position, which is
enough for every event being handled once, in the order of its sequence.
-/
namespace Kronos.Processing.SplitMerge
open Kronos.Lib.Transition Kronos.Lib.Window SharedStream TrackingToken

variable {K E I : Type}

/-- Which events are handled, and the sequence each of them belongs to. -/
structure Config (E I : Type) where
  handled : E → Bool
  sequenceOf : E → I
  sequenceHash : I → ℕ
  hash_lt : ∀ i, sequenceHash i < 2 ^ 32

def Config.hashOf (cfg : Config E I) (e : E) : ℕ := cfg.sequenceHash (cfg.sequenceOf e)

/-- A token row, with the segment the worker that handles it was given. -/
structure Row (K : Type) where
  segment : Segment
  token : Option (TrackingToken K)
  deriving DecidableEq, Repr

/-- The token a worker of the row goes on from. -/
def Row.tokenNow (row : Row K) : TrackingToken K := row.token.getD (globalSequence 0)

structure State (K E : Type) where
  log : Log K E
  head : ℕ
  rows : List (Row K)
  /-- What committed batches have delivered. -/
  delivered : List (SequencedEvent K E)

def segmentsNow (s : State K E) : List Segment := segmentsOf (s.rows.map (·.segment.id))

/-- A processor started with `2 ^ level` segments on an empty log. -/
def initial (level : ℕ) : State K E where
  log := []
  head := 0
  rows := (segmentsOf (List.range (2 ^ level))).map fun segment => ⟨segment, none⟩
  delivered := []

def accepts (cfg : Config E I) (segment : Segment) (e : SequencedEvent K E) : Bool :=
  cfg.handled e.event && inSegment segment (cfg.hashOf e.event)

def rowOf (s : State K E) (id : ℕ) : Option (Row K) := s.rows.find? (·.segment.id == id)

def setToken (rows : List (Row K)) (id : ℕ) (token : TrackingToken K) : List (Row K) :=
  rows.map fun row => if row.segment.id = id then { row with token := some token } else row

/-- `splitSegment`, or `none` where it throws. -/
def split (s : State K E) (id : ℕ) : Option (State K E) :=
  match (segmentsNow s).find? (·.id == id), rowOf s id with
  | some segment, some row =>
      if row.tokenNow.isMergedToken then none
      else
        let halves := splitSegment segment
        some { s with
          rows := ((s.rows.filter (·.segment.id ≠ halves.2.id)).map fun r =>
            if r.segment.id = id then { r with segment := halves.1 } else r) ++
              [⟨halves.2, some row.tokenNow⟩] }
  | _, _ => none

/-- `mergeSegment`, or `none` where it throws. -/
def merge (s : State K E) (id : ℕ) : Option (State K E) :=
  match (segmentsNow s).find? (·.id == id) with
  | none => none
  | some segment =>
      if segment.mask = 0 then none
      else
        match (segmentsNow s).find? fun p =>
            decide ((p.id : ℤ) = mergeableSegmentId segment) && p.mask == segment.mask with
        | none => none
        | some partner =>
            match rowOf s segment.id, rowOf s partner.id with
            | some row, some other =>
                if row.tokenNow.isReplayToken || row.tokenNow.isMergedToken ||
                    other.tokenNow.isReplayToken || other.tokenNow.isMergedToken then none
                else
                  let keep := min segment.id partner.id
                  let drop := max segment.id partner.id
                  let token := mergedToken segment.mask segment.id row.tokenNow partner.id
                    other.tokenNow
                  some { s with
                    rows := (s.rows.filter (·.segment.id ≠ drop)).map fun r =>
                      if r.segment.id = keep then
                        ⟨⟨keep, (BitVec.ofNat 32 segment.mask >>> 1).toNat⟩, some token⟩
                      else r }
            | _, _ => none

inductive Action (K E : Type) where
  | grow (e : SequencedEvent K E)
  /-- A batch of at most `n` events of segment `id` commits. -/
  | batch (id n : ℕ)
  /-- Segment `id` moves to position `n`, with nothing for it on the way. -/
  | quiet (id n : ℕ)
  | split (id : ℕ)
  | merge (id : ℕ)

def step (cfg : Config E I) (s : State K E) : Action K E → Option (State K E)
  | .grow e =>
      if s.head ≤ e.sequence ∧ e.token.isNone then
        some { s with log := s.log ++ [e], head := e.sequence + 1 }
      else none
  | .batch id n =>
      match rowOf s id with
      | none => none
      | some row =>
          let batch := (asked s.log row.tokenNow.position (accepts cfg row.segment)).take n
          let prepared := SegmentWorker.prepare cfg.hashOf row.tokenNow batch
          if batch.isEmpty then none
          else
            some { s with
              rows := setToken s.rows id prepared.2
              delivered := s.delivered ++ prepared.1.filter fun e => cfg.handled e.event }
  | .quiet id n =>
      match rowOf s id with
      | none => none
      | some row =>
          if row.tokenNow.position < n ∧ n ≤ s.head ∧
              ∀ e ∈ asked s.log row.tokenNow.position (accepts cfg row.segment),
                n ≤ e.sequence then
            some { s with
              rows := setToken s.rows id (advanceTokenTo row.tokenNow (globalSequence n)) }
          else none
  | .split id => split s id
  | .merge id => merge s id

/-- Whether a token accounts for the event of this hash that ends at `past`. -/
def accountsFor (token : TrackingToken K) (hash : ℕ) (past : TrackingToken K) : Bool :=
  if token.isMergedToken then handledByMergedHalf token hash past else token.covers past

/-- The position up to which a token accounts for the events of a hash. -/
def reachOf (token : TrackingToken K) (hash : ℕ) : ℕ :=
  match token with
  | merged mask a ta b tb =>
      if jsAnd hash mask = a then ta.position
      else if jsAnd hash mask = b then tb.position
      else 0
  | t => t.position

end Kronos.Processing.SplitMerge
