import Kronos.Processing.SharedStreamDense

/-!
# A segment worker

`startWorker` reads its segment's events from a view of the shared stream,
delivers them in batches, and writes the token that says how far it has got.
The model follows it from one `await` to the next: an action is either
something outside that happens (the log grows, a write lands or fails, another
view reads) or the code that runs until the worker next waits. What a unit of
work does is atomic: `commit` makes its deliveries and its token write take
effect together, and the worker goes on in `settle`.

Left out are the timers, which only decide when the next poll comes, and the
error and delay a worker reports. A renewal is issued by a claim round, which
waits for it, so one is in flight at most; a new worker starts when the old one
has stopped and that round has ended.
-/
namespace Kronos.Processing.SegmentWorker
open Kronos.Lib.Transition Kronos.Lib.Window SharedStream TrackingToken

variable {K E : Type}

/-- What a worker is started for. -/
structure Config (E : Type) where
  segment : Segment
  handled : E → Bool
  hashOf : E → ℕ
  /-- The size `batched` was called with. -/
  batched : Option ℕ
  batched_pos : ∀ n ∈ batched, 0 < n

namespace Config
variable (cfg : Config E)

def batchSize : ℕ := cfg.batched.getD 1

def replayBatchSize : ℕ := cfg.batched.getD 1000

def deferQuiet : Bool := cfg.segment.mask != 0

def accepts (e : SequencedEvent K E) : Bool :=
  cfg.handled e.event && inSegment cfg.segment (cfg.hashOf e.event)

theorem batchSize_pos : 0 < cfg.batchSize := by
  have h := cfg.batched_pos
  unfold batchSize
  cases hb : cfg.batched with
  | none => exact Nat.one_pos
  | some n => exact h n (by simp [hb])

theorem replayBatchSize_pos : 0 < cfg.replayBatchSize := by
  have h := cfg.batched_pos
  unfold replayBatchSize
  cases hb : cfg.batched with
  | none => simp
  | some n => exact h n (by simp [hb])

end Config

/-- Where `pollOnce` is. -/
inductive Phase (K E : Type) where
  | idle
  /-- Waiting for a renewal to land. -/
  | waiting
  /-- The unit of work runs: what it delivers, and the token it writes. -/
  | batch (fresh : List (SequencedEvent K E)) (endToken : TrackingToken K)
  /-- The unit of work took effect. -/
  | committed (endToken : TrackingToken K)
  /-- The write of a quiet stretch is in flight. -/
  | writing

/-- Where `stop` is. -/
inductive Stopping where
  | running
  | waiting
  | writing
  | finished
  deriving DecidableEq, Repr

structure Worker (K E : Type) where
  active : Bool
  token : TrackingToken K
  /-- The view of the shared stream this worker reads. -/
  stream : Option ℕ
  phase : Phase K E
  /-- The token a renewal in flight writes. -/
  renewing : Option (TrackingToken K)
  unwritten : Bool
  caughtUp : Bool
  cautiousUntil : ℕ
  attemptEnd : ℕ
  stopping : Stopping

structure System (K E : Type) where
  shared : SharedStream.State K E ℕ
  worker : Worker K E
  stored : Option (TrackingToken K)
  backlogEnd : Option ℕ
  /-- What committed units of work have delivered. -/
  delivered : List (SequencedEvent K E)

/-- No worker has been started yet. -/
def initial : System K E where
  shared := SharedStream.initial
  worker := ⟨false, globalSequence 0, none, .idle, none, false, false, 0, 0, .finished⟩
  stored := none
  backlogEnd := none
  delivered := []

/-- Whether an event is new to the segment. -/
def isFresh (hashOf : E → ℕ) (token : TrackingToken K) (e : SequencedEvent K E) : Bool :=
  !(token.isMergedToken && handledByMergedHalf token (hashOf e.event) e.past)

/-- What `processBatch` delivers of a batch, and the token it ends at. -/
def prepare (hashOf : E → ℕ) :
    TrackingToken K → List (SequencedEvent K E) → List (SequencedEvent K E) × TrackingToken K
  | token, [] => ([], token)
  | token, e::batch =>
      let rest := prepare hashOf (advanceTokenTo token e.past) batch
      (if isFresh hashOf token e then e::rest.1 else rest.1, rest.2)

/-- The events taken after the first, at most `n`. -/
def pullRest (readAhead v : ℕ) :
    ℕ → SharedStream.State K E ℕ → List (SequencedEvent K E) × SharedStream.State K E ℕ
  | 0, s => ([], s)
  | n + 1, s =>
      let more := hasNextAvailable denseStore readAhead s v
      if more.1 then
        let taken := take denseStore readAhead more.2 v
        match taken.1 with
        | none => ([], taken.2)
        | some e =>
            let rest := pullRest readAhead v n taken.2
            (e::rest.1, rest.2)
      else ([], more.2)

/-- The batch a poll takes: one event, and more while there are any, up to `target`. -/
def pull (readAhead v target : ℕ) (s : SharedStream.State K E ℕ) :
    List (SequencedEvent K E) × SharedStream.State K E ℕ :=
  let taken := take denseStore readAhead s v
  match taken.1 with
  | none => ([], taken.2)
  | some e =>
      let rest := pullRest readAhead v (target - 1) taken.2
      (e::rest.1, rest.2)

namespace System
variable (cfg : Config E) (sys : System K E)

def openStream : System K E :=
  { sys with
    shared := openView denseStore sys.shared sys.worker.token.position (some sys.worker.token)
      cfg.accepts
    worker := { sys.worker with stream := some sys.shared.views.length } }

/-- `stream?.close(); stream = null`. -/
def closeStream : System K E :=
  match sys.worker.stream with
  | none => sys
  | some v =>
      { sys with shared := closeView sys.shared v, worker := { sys.worker with stream := none } }

/-- `if (!stream) openStream()`. -/
def ensureStream : System K E :=
  if sys.worker.stream.isNone then sys.openStream cfg else sys

def setPhase (phase : Phase K E) : System K E :=
  { sys with worker := { sys.worker with phase := phase } }

/-- `lose`. -/
def lose : System K E :=
  if sys.worker.active then
    { sys.closeStream with
      worker := { sys.closeStream.worker with active := false, stopping := .finished } }
  else sys

/-- The events a poll takes at most. -/
def target : ℕ :=
  if sys.worker.token.position < sys.worker.cautiousUntil then 1
  else if sys.worker.token.isReplayToken ||
      sys.backlogEnd.any (fun n => decide (sys.worker.token.position < n)) ||
      !sys.worker.caughtUp then cfg.replayBatchSize
  else cfg.batchSize

/-- The store's stream may answer that it has looked past everything below `n`. -/
def mayAnswer (answer : Option ℕ) : Bool :=
  match answer, sys.shared.inner with
  | some n, some i =>
      decide (n ≤ sys.shared.head) &&
        sys.shared.log.all fun e => !decide (e.sequence < n) || !denseStore.after i.cursor e
  | _, _ => true

def progress (answer : Option ℕ) : Option (TrackingToken K) :=
  sys.worker.stream.bind fun v =>
    sys.shared.views[v]?.bind fun view =>
      progressToken denseStore sys.shared view (answer.map globalSequence)

/-- `moveThroughQuietStretch`, up to its write. -/
def moveThroughQuietStretch (answer : Option ℕ) : System K E :=
  match sys.progress answer with
  | none => sys.setPhase .idle
  | some looked =>
      if sys.worker.token.position < looked.position then
        let token := advanceTokenTo sys.worker.token looked
        if cfg.deferQuiet then
          { sys with
            worker := { sys.worker with token := token, unwritten := true, phase := .idle } }
        else { sys with worker := { sys.worker with token := token, phase := .writing } }
      else sys.setPhase .idle

/-- The batch is taken and its unit of work started, or there was nothing to take. -/
def takeBatch (v : ℕ) (answer : Option ℕ) : System K E :=
  let pulled := pull cfg.replayBatchSize v (sys.target cfg) sys.shared
  let prepared := prepare cfg.hashOf sys.worker.token pulled.1
  match pulled.1.getLast? with
  | none =>
      moveThroughQuietStretch cfg
        { sys with
          shared := pulled.2
          worker := { sys.worker with attemptEnd := 0, caughtUp := true } }
        answer
  | some last =>
      { sys with
        shared := pulled.2
        worker := { sys.worker with
          attemptEnd := last.sequence + 1
          caughtUp := false
          phase := .batch (prepared.1.filter fun e => cfg.handled e.event) prepared.2 } }

/-- `pollOnce` once the renewal has landed. -/
def pollOnce (answer : Option ℕ) : System K E :=
  if sys.worker.active then
    let opened := sys.ensureStream cfg
    if opened.shared.inner.any (·.failed) then
      (opened.closeStream.openStream cfg).setPhase .idle
    else
      match opened.worker.stream with
      | none => opened.setPhase .idle
      | some v => opened.takeBatch cfg v answer
  else sys.setPhase .idle

/-- `pollOnce` after its batch committed. -/
def settle (endToken : TrackingToken K) (answer : Option ℕ) : System K E :=
  let done := { sys with worker := { sys.worker with token := endToken, unwritten := false } }
  match sys.worker.active, sys.worker.stream with
  | true, some v =>
      let more := hasNextAvailable denseStore cfg.replayBatchSize sys.shared v
      if more.1 then ({ done with shared := more.2 }).setPhase .idle
      else
        moveThroughQuietStretch cfg
          { done with shared := more.2, worker := { done.worker with caughtUp := true } } answer
  | _, _ => done.setPhase .idle

/-- The `catch` of `pollOnce`. -/
def caught (lost : Bool) : System K E :=
  if lost then sys.lose.setPhase .idle
  else
    let retry := sys.closeStream
    { retry with
      worker := { retry.worker with cautiousUntil := retry.worker.attemptEnd, phase := .idle } }

/-- A new worker; `startWorker` polls at once. -/
def startWorker (backlogEnd : Option ℕ) : System K E :=
  { sys with
    worker := ⟨true, sys.stored.getD (globalSequence 0), none, .waiting, none, false, false, 0, 0,
      .running⟩
    backlogEnd := backlogEnd }

end System

/-- An action of the log, of the store's stream or of another view. -/
def elsewhere (own : Option ℕ) : SharedStream.Action K E → Bool
  | .next v => decide (own ≠ some v)
  | .peek v => decide (own ≠ some v)
  | .close v => decide (own ≠ some v)
  | _ => true

inductive Action (K E : Type) where
  | shared (a : SharedStream.Action K E)
  | poll
  /-- `pollOnce` runs on; the store's stream would answer `answer` to `progressToken`. -/
  | pollOnce (answer : Option ℕ)
  | commit
  | settle (answer : Option ℕ)
  /-- The unit of work fails, in a handler or in its token write. -/
  | fail (lost : Bool)
  | quietLands
  | quietFails (lost : Bool)
  | renew
  | renewLands
  | renewFails (lost : Bool)
  | stop
  /-- `stop` runs on once nothing is in flight. -/
  | stopped
  | stopLands
  | stopFails
  | startWorker (backlogEnd : Option ℕ)

def step (cfg : Config E) (sys : System K E) : Action K E → Option (System K E)
  | .shared a =>
      if elsewhere sys.worker.stream a then
        (SharedStream.step denseStore cfg.replayBatchSize sys.shared a).map fun shared =>
          { sys with shared := shared }
      else none
  | .poll =>
      match sys.worker.active, sys.worker.phase with
      | true, .idle => some (sys.setPhase .waiting)
      | _, _ => none
  | .pollOnce answer =>
      match sys.worker.phase, sys.worker.renewing with
      | .waiting, none =>
          let next := sys.pollOnce cfg answer
          if next.mayAnswer answer then some next else none
      | _, _ => none
  | .commit =>
      match sys.worker.phase with
      | .batch fresh endToken =>
          some { sys.setPhase (.committed endToken) with
            stored := some endToken, delivered := sys.delivered ++ fresh }
      | _ => none
  | .settle answer =>
      match sys.worker.phase with
      | .committed endToken =>
          let next := sys.settle cfg endToken answer
          if next.mayAnswer answer then some next else none
      | _ => none
  | .fail lost =>
      match sys.worker.phase with
      | .batch _ _ => some (sys.caught lost)
      | _ => none
  | .quietLands =>
      match sys.worker.phase with
      | .writing => some { sys.setPhase .idle with stored := some sys.worker.token }
      | _ => none
  | .quietFails lost =>
      match sys.worker.phase with
      | .writing => some (sys.caught lost)
      | _ => none
  | .renew =>
      match sys.worker.active, sys.worker.phase, sys.worker.renewing with
      | true, .idle, none =>
          some { sys with worker := { sys.worker with renewing := some sys.worker.token } }
      | _, _, _ => none
  | .renewLands =>
      match sys.worker.renewing with
      | some token =>
          some { sys with
            stored := some token
            worker := { sys.worker with renewing := none, unwritten := false } }
      | none => none
  | .renewFails lost =>
      match sys.worker.renewing with
      | some _ =>
          let failed := { sys with worker := { sys.worker with renewing := none } }
          some (if lost then failed.lose else failed)
      | none => none
  | .stop =>
      if sys.worker.active then
        some { sys.closeStream with
          worker := { sys.closeStream.worker with active := false, stopping := .waiting } }
      else none
  | .stopped =>
      match sys.worker.stopping, sys.worker.phase with
      | .waiting, .idle =>
          some { sys with
            worker := { sys.worker with
              stopping := if sys.worker.unwritten then .writing else .finished } }
      | _, _ => none
  | .stopLands =>
      match sys.worker.stopping with
      | .writing =>
          some { sys with
            stored := some sys.worker.token
            worker := { sys.worker with stopping := .finished } }
      | _ => none
  | .stopFails =>
      match sys.worker.stopping with
      | .writing => some { sys with worker := { sys.worker with stopping := .finished } }
      | _ => none
  | .startWorker backlogEnd =>
      match sys.worker.active, sys.worker.phase, sys.worker.renewing, sys.worker.stopping with
      | false, .idle, none, .finished => some (sys.startWorker backlogEnd)
      | _, _, _, _ => none

end Kronos.Processing.SegmentWorker
