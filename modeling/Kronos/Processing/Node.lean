import Mathlib.Logic.Function.Basic
import Kronos.Lib.Transition
import Kronos.Processing.SegmentPartition
import Kronos.Processing.TrackingToken

/-!
# One node of a running processor

The registry of workers a node keeps, the claim rounds that fill it, and the
calls that change it: `start`, `stop`, `releaseSegment`, `splitSegment` and
`mergeSegment`. Every async function is a frame that rests at one of its awaits.
A frame that waits for the token store rests there twice: until the store has
performed the call (`land`), and until the function goes on (`resume`), so that
any other frame can run before and between the two.

The store keeps one row a segment. All calls are made under the node's one
owner id; what other nodes do is to let the store refuse a call. The calls of a
unit of work take effect together when it commits, and a call that fails has no
effect. Timers fire at any moment, and a `releasedUntil` ends at any moment.
-/
namespace Kronos.Processing.Node
open Kronos.Lib.Transition TrackingToken

variable {K : Type}

/-- `processor.segments`: the level of the segment count, a power of two up to 65536. -/
structure Config where
  segments : Option (Fin 17)

def Config.initialSegments (cfg : Config) : ℕ := cfg.segments.elim 1 fun level => 2 ^ level.val

/-! ## The token store -/

inductive Owner where
  | self
  | other
  deriving DecidableEq, Repr

structure TokenRow (K : Type) where
  id : ℕ
  token : Option (TrackingToken K)
  owner : Option Owner
  /-- The claim has outlived the store's timeout. -/
  expired : Bool
  deriving DecidableEq, Repr

inductive Reply (K : Type) where
  | done
  | ids (ids : List ℕ)
  | token (token : Option (TrackingToken K))
  /-- `UnableToClaimTokenError`. -/
  | refused
  | failed
  deriving DecidableEq, Repr

inductive Call (K : Type) where
  | store (id : ℕ) (token : TrackingToken K)
  | get (id : ℕ)
  | claimToken (id : ℕ)
  | releaseClaim (id : ℕ)
  | fetchSegments
  | fetchAvailableSegments
  | initializeSegments
  /-- The unit of work of `splitSegment`: the second half is claimed and stored. -/
  | commitSplit (second : ℕ) (token : TrackingToken K)
  /-- The unit of work of `mergeSegment`: one half is stored, the other deleted. -/
  | commitMerge (keep drop : ℕ) (token : TrackingToken K)

abbrev Rows (K : Type) := List (TokenRow K)

def Rows.ids (rows : Rows K) : List ℕ := rows.map (·.id)

def Rows.update (rows : Rows K) (id : ℕ) (f : TokenRow K → TokenRow K) : Rows K :=
  rows.map fun row => if row.id = id then f row else row

def Rows.find (rows : Rows K) (id : ℕ) : Option (TokenRow K) := rows.find? (·.id == id)

/-- The fenced write: it lands only while the node holds the claim. -/
def store (rows : Rows K) (id : ℕ) (token : TrackingToken K) : Rows K × Reply K :=
  match rows.find id with
  | some row =>
      if row.owner = some .self then
        (rows.update id fun row => { row with token := some token, expired := false }, .done)
      else (rows, .refused)
  | none => (rows, .refused)

def claimToken (rows : Rows K) (id : ℕ) : Rows K × Reply K :=
  match rows.find id with
  | none => (rows ++ [⟨id, none, some .self, false⟩], .token none)
  | some row =>
      if row.owner = some .self ∨ row.owner = none ∨ row.expired = true then
        (rows.update id fun row => { row with owner := some .self, expired := false },
          .token row.token)
      else (rows, .refused)

def releaseClaim (rows : Rows K) (id : ℕ) : Rows K :=
  rows.update id fun row => if row.owner = some .self then { row with owner := none } else row

def fetchAvailableSegments (rows : Rows K) : List ℕ :=
  Rows.ids (rows.filter fun row => row.owner.isNone || row.expired)

def initializeSegments (rows : Rows K) (count : ℕ) : Rows K :=
  rows ++ ((List.range count).filter (· ∉ rows.ids)).map fun id => ⟨id, none, none, false⟩

def deleteToken (rows : Rows K) (id : ℕ) : Rows K := rows.filter (·.id ≠ id)

def commitSplit (rows : Rows K) (second : ℕ) (token : TrackingToken K) : Rows K × Reply K :=
  match claimToken rows second with
  | (claimed, .token _) => store claimed second token
  | (_, reply) => (rows, reply)

def commitMerge (rows : Rows K) (keep drop : ℕ) (token : TrackingToken K) : Rows K × Reply K :=
  match store rows keep token with
  | (stored, .done) => (deleteToken stored drop, .done)
  | (_, reply) => (rows, reply)

def perform (cfg : Config) (rows : Rows K) : Call K → Rows K × Reply K
  | .store id token => store rows id token
  | .get id => (rows, .token ((rows.find id).bind (·.token)))
  | .claimToken id => claimToken rows id
  | .releaseClaim id => (releaseClaim rows id, .done)
  | .fetchSegments => (rows, .ids (rows.ids.insertionSort (· ≤ ·)))
  | .fetchAvailableSegments => (rows, .ids ((fetchAvailableSegments rows).insertionSort (· ≤ ·)))
  | .initializeSegments => (initializeSegments rows cfg.initialSegments, .done)
  | .commitSplit second token => commitSplit rows second token
  | .commitMerge keep drop token => commitMerge rows keep drop token

/-! ## Frames -/

inductive Caller where
  | start
  | timer
  deriving DecidableEq, Repr

/-- What asks for the segments of the moment. -/
inductive Task where
  | round (caller : Caller)
  | split (id : ℕ)
  | merge (id : ℕ)
  deriving DecidableEq, Repr

/-- What `holdForOperation` returns. -/
inductive How where
  | held
  | claimed
  deriving DecidableEq, Repr

/-- Where an async function rests. Workers and frames are named by their index. -/
inductive Pc (K : Type) where
  /-- `start`: `await stopping`. -/
  | startAwait (stopping : List ℕ)
  /-- `start`: `await eventStore.getHeadPosition()`. -/
  | startHead
  /-- `claimRound`: a renewal that had nothing to write. -/
  | renewNext (caller : Caller) (rest : List ℕ)
  | renewing (caller : Caller) (worker : ℕ) (token : TrackingToken K) (rest : List ℕ)
  /-- `segmentsNow`. -/
  | fetching (task : Task)
  | initializing (task : Task)
  | refetching (task : Task)
  /-- `claimRound`: `await tokenStore.fetchAvailableSegments(name)`. -/
  | listing (caller : Caller) (segments : List Segment)
  | claiming (caller : Caller) (segment : Segment) (rest : List Segment) (available : List ℕ)
  /-- `claimRound`: the claim came after `stop`. -/
  | abandoning (caller : Caller) (segment : Segment)
  /-- `splitSegment`: `await holdForOperation(id)`, with a worker to stop or without. -/
  | splitHold (segment : Segment) (worker stop : ℕ)
  | splitClaim (segment : Segment)
  | splitRead (segment : Segment) (how : How)
  | splitCommit (segment : Segment) (how : How) (token : Option (TrackingToken K))
  /-- `splitSegment`: the first half is let go, or handled; the second is next. -/
  | splitFirst (segment : Segment) (token : Option (TrackingToken K))
  | splitSecond (segment : Segment) (token : Option (TrackingToken K))
  /-- `mergeSegment`: the first `holdForOperation` while `first` is `none`, then the second. -/
  | mergeHold (segment partner : Segment) (first : Option How) (worker stop : ℕ)
  | mergeClaim (segment partner : Segment) (first : Option How)
  | mergeRead (segment partner : Segment) (how how' : How)
  | mergeReadPartner (segment partner : Segment) (how how' : How)
      (token : Option (TrackingToken K))
  | mergeCommit (segment partner : Segment) (how how' : How)
      (token token' : Option (TrackingToken K))
  | mergeRelease (segment partner : Segment) (how how' : How)
      (token token' : Option (TrackingToken K))
  /-- `mergeSegment`: the `catch`, with the segments still to give back. -/
  | mergeUndo (rest : List (Segment × How × Option (TrackingToken K)))
  | mergeUndoRelease (segment : Segment) (how : How)
      (rest : List (Segment × How × Option (TrackingToken K)))
  /-- The last `releaseClaim` of `splitSegment`, before it returns or rethrows. -/
  | releasing (id : ℕ) (rethrow : Bool)
  /-- `pollOnce`: `await renewing`. -/
  | pollAwait (worker : ℕ)
  | pollBatch (worker : ℕ) (batchEndToken : TrackingToken K)
  | pollQuiet (worker : ℕ) (token : TrackingToken K)
  /-- `worker.stop`: `await inFlight`. -/
  | stopAwait (worker : ℕ) (release : Bool)
  | stopWrite (worker : ℕ) (release : Bool) (token : TrackingToken K)
  | stopRelease (worker : ℕ)
  | returned
  | threw

structure Frame (K : Type) where
  pc : Pc K
  /-- What the store has answered. -/
  reply : Option (Reply K)

/-- A worker, from `startWorker` on. -/
structure Worker (K : Type) where
  segment : Segment
  token : TrackingToken K
  active : Bool
  unwritten : Bool
  processing : Bool
  /-- The claim round that made the last renewal. -/
  renewing : Option ℕ
  deriving DecidableEq, Repr

/-- An entry of the map `workers`, under the key `segment.id`. -/
structure Entry where
  segment : Segment
  worker : ℕ
  deriving DecidableEq, Repr

structure State (K : Type) where
  isRunning : Bool
  /-- Whether `claimTimer` is set, and how many intervals are running. -/
  claimTimer : Bool
  intervals : ℕ
  claiming : Option ℕ
  /-- The frames whose end `stopping` waits for. -/
  stopping : List ℕ
  workers : List Entry
  known : ℕ → Option (TrackingToken K)
  releasedUntil : List ℕ
  /-- Every worker started so far. -/
  started : ℕ → Option (Worker K)
  nextWorker : ℕ
  frames : ℕ → Frame K
  nextFrame : ℕ
  rows : Rows K

/-- A node that has not been started, over the rows the store has. -/
def initial (rows : Rows K) : State K where
  isRunning := false
  claimTimer := false
  intervals := 0
  claiming := none
  stopping := []
  workers := []
  known := fun _ => none
  releasedUntil := []
  started := fun _ => none
  nextWorker := 0
  frames := fun _ => ⟨.returned, none⟩
  nextFrame := 0
  rows := rows

namespace State

def setFrame (s : State K) (i : ℕ) (pc : Pc K) : State K :=
  { s with frames := Function.update s.frames i ⟨pc, none⟩ }

/-- Call an async function. -/
def push (s : State K) (pc : Pc K) : State K :=
  { s with
    frames := Function.update s.frames s.nextFrame ⟨pc, none⟩
    nextFrame := s.nextFrame + 1 }

def setWorker (s : State K) (w : ℕ) (f : Worker K → Worker K) : State K :=
  { s with started := Function.update s.started w ((s.started w).map f) }

/-- `workers.get(id)`. -/
def workerOf (s : State K) (id : ℕ) : Option ℕ :=
  (s.workers.find? (·.segment.id == id)).map (·.worker)

/-- `workers.delete(id)`. -/
def unregister (s : State K) (id : ℕ) : State K :=
  { s with workers := s.workers.filter (·.segment.id ≠ id) }

def forget (s : State K) (id : ℕ) : State K :=
  { s with known := Function.update s.known id none }

end State

open State

/-- `workers.set(segment.id, worker)`: a worker under the same key is replaced. -/
def setEntry (workers : List Entry) (e : Entry) : List Entry :=
  if workers.any (·.segment.id == e.segment.id) then
    workers.map fun x => if x.segment.id = e.segment.id then e else x
  else workers ++ [e]

/-! ## Workers -/

/-- `workers.set(segment.id, startWorker(segment, stored))`. -/
def startWorker (s : State K) (segment : Segment) (stored : Option (TrackingToken K)) : State K :=
  let token := stored.getD (globalSequence 0)
  { s with
    started :=
      Function.update s.started s.nextWorker (some ⟨segment, token, true, false, true, none⟩)
    nextWorker := s.nextWorker + 1
    known := Function.update s.known segment.id (some token)
    workers := setEntry s.workers ⟨segment, s.nextWorker⟩
    -- `startWorker` ends with a first `poll`
    frames := Function.update s.frames s.nextFrame ⟨.pollAwait s.nextWorker, none⟩
    nextFrame := s.nextFrame + 1 }

/-- Another node holds the claim now. -/
def lose (s : State K) (w : ℕ) : State K :=
  match s.started w with
  | none => s
  | some v =>
      if v.active then
        forget { s.setWorker w fun v => { v with active := false } with
          workers := s.workers.filter (·.worker ≠ w) } v.segment.id
      else s

def poll (s : State K) (w : ℕ) : Option (State K) :=
  match s.started w with
  | none => none
  | some v =>
      if v.active ∧ ¬ v.processing then
        some ((s.setWorker w fun v => { v with processing := true }).push (.pollAwait w))
      else none

def endPoll (s : State K) (w : ℕ) : State K := s.setWorker w fun v => { v with processing := false }

/-- The local `set` of a worker. -/
def setToken (s : State K) (w : ℕ) (v : Worker K) (token : TrackingToken K) : State K :=
  { s.setWorker w fun v => { v with token := token } with
    known := Function.update s.known v.segment.id (some token) }

/-- What the stream has for a worker: events, by the tokens just past them, or a
stretch it has looked through. -/
inductive Found (K : Type) where
  | nothing
  | events (pasts : List (TrackingToken K))
  | looked (upTo : TrackingToken K)

/-- The quiet stretch is written at once only when there is one segment. -/
def moveThroughQuietStretch (s : State K) (i w : ℕ) (v : Worker K) (looked : TrackingToken K) :
    Option (State K) :=
  if v.token.position < looked.position then
    let token := advanceTokenTo v.token looked
    let s := setToken s w v token
    if v.segment.mask ≠ 0 then
      some (endPoll (s.setWorker w fun v => { v with unwritten := true }) w)
    else some (s.setFrame i (.pollQuiet w token))
  else none

def pollOnce (s : State K) (i w : ℕ) (v : Worker K) : Found K → Option (State K)
  | .nothing => some (endPoll s w)
  | .events pasts =>
      if pasts.isEmpty then none
      else some (s.setFrame i (.pollBatch w (pasts.foldl advanceTokenTo v.token)))
  | .looked upTo => moveThroughQuietStretch s i w v upTo

/-- Whether the renewal a poll waits for is still under way. -/
def renewalPending (s : State K) (w : ℕ) (v : Worker K) : Bool :=
  match v.renewing with
  | none => false
  | some j =>
      match (s.frames j).pc with
      | .renewing _ w' _ _ => w' == w
      | _ => false

/-- `worker.stop(release)`, up to its first await. -/
def stopWorker (s : State K) (w : ℕ) (release : Bool) : State K :=
  match s.started w with
  | none => s.push .returned
  | some v =>
      if v.active then
        (s.setWorker w fun v => { v with active := false }).push (.stopAwait w release)
      else s.push .returned

/-! ## Claim rounds -/

/-- How a claim round ends: `start` sets the timer or gives up running, and the
timer's round is no longer `claiming`. -/
def endRound (s : State K) (i : ℕ) (caller : Caller) (ok : Bool) : State K :=
  match caller, ok with
  | .start, true => { s with claimTimer := true, intervals := s.intervals + 1 }
  | .start, false => { s with isRunning := false }.setFrame i .threw
  | .timer, _ => { s with claiming := none }

/-- `for (const worker of …) await worker.renew()`, up to the next await. -/
def renewLoop (s : State K) (i : ℕ) (caller : Caller) : List ℕ → State K
  | [] => s.setFrame i (.fetching (.round caller))
  | w :: rest =>
      match s.started w with
      | none => s.setFrame i (.renewNext caller rest)
      | some v =>
          if v.active ∧ ¬ v.processing then
            (s.setWorker w fun v => { v with renewing := some i }).setFrame i
              (.renewing caller w v.token rest)
          else s.setFrame i (.renewNext caller rest)

def claimRound (s : State K) (i : ℕ) (caller : Caller) : State K :=
  renewLoop s i caller (s.workers.map (·.worker))

/-- The next segment a round asks for, and what is left of its list. -/
def nextClaim (s : State K) (available : List ℕ) : List Segment → Option (Segment × List Segment)
  | [] => none
  | segment :: rest =>
      if ¬ s.isRunning then none
      else if (s.workerOf segment.id).isSome ∨ segment.id ∉ available ∨
          segment.id ∈ s.releasedUntil then nextClaim s available rest
      else some (segment, rest)

def claimLoop (s : State K) (i : ℕ) (caller : Caller) (segments : List Segment)
    (available : List ℕ) : State K :=
  match nextClaim s available segments with
  | some (segment, rest) => s.setFrame i (.claiming caller segment rest available)
  | none => endRound s i caller true

/-! ## Splitting and merging -/

/-- `holdForOperation`, up to its await: the worker it stops and the frame of the stop. -/
def holdForOperation (s : State K) (id : ℕ) : State K × Option (ℕ × ℕ) :=
  match s.workerOf id with
  | some w => (stopWorker (s.unregister id) w false, some (w, s.nextFrame))
  | none => (s, none)

/-- The last `resume` of an operation. -/
def resumeLast (s : State K) (i : ℕ) (segment : Segment) (token : Option (TrackingToken K)) :
    State K :=
  if s.isRunning then startWorker s segment token else s.setFrame i (.releasing segment.id false)

/-- The `catch` of `splitSegment`. -/
def splitUndo (s : State K) (i : ℕ) (segment : Segment) (how : How)
    (token : Option (TrackingToken K)) : State K :=
  if how = .held ∧ s.isRunning then
    (startWorker s segment (token <|> s.known segment.id)).setFrame i .threw
  else s.setFrame i (.releasing segment.id true)

def holdSplit (s : State K) (i : ℕ) (segment : Segment) : State K :=
  match holdForOperation s segment.id with
  | (s, some (w, stop)) => s.setFrame i (.splitHold segment w stop)
  | (s, none) => s.setFrame i (.splitClaim segment)

/-- `holdForOperation` of the segment, or of the partner once the segment is held. -/
def holdMerge (s : State K) (i : ℕ) (segment partner : Segment) (first : Option How) : State K :=
  match holdForOperation s (if first.isNone then segment.id else partner.id) with
  | (s, some (w, stop)) => s.setFrame i (.mergeHold segment partner first w stop)
  | (s, none) => s.setFrame i (.mergeClaim segment partner first)

/-- What `mergeSegment` goes on with when a hold is there. -/
def mergeHeld (s : State K) (i : ℕ) (segment partner : Segment) (first : Option How) (how : How) :
    State K :=
  match first with
  | none => holdMerge s i segment partner (some how)
  | some before => s.setFrame i (.mergeRead segment partner before how)

/-- The loop in the `catch` of `mergeSegment`, up to its next await. -/
def mergeUndo (s : State K) (i : ℕ) : List (Segment × How × Option (TrackingToken K)) → State K
  | [] => s.setFrame i .threw
  | (segment, how, token) :: rest =>
      if how = .held ∧ s.isRunning then
        (startWorker s segment (token <|> s.known segment.id)).setFrame i (.mergeUndo rest)
      else s.setFrame i (.mergeUndoRelease segment how rest)

/-- What is held when a hold of `mergeSegment` throws. -/
def heldBefore (segment : Segment) : Option How → List (Segment × How × Option (TrackingToken K))
  | none => []
  | some how => [(segment, how, none)]

/-- The segment and the other half that `mergeSegment` works on. -/
def mergePair (segments : List Segment) (id : ℕ) : Option (Segment × Segment) :=
  match segments.find? (·.id == id) with
  | none => none
  | some segment =>
      if segment.mask = 0 then none
      else
        (segments.find? fun p =>
          decide ((p.id : ℤ) = mergeableSegmentId segment) && p.mask == segment.mask).map
            fun partner => (segment, partner)

def mergedSegment (segment partner : Segment) : Segment :=
  ⟨min segment.id partner.id, (BitVec.ofNat 32 segment.mask >>> 1).toNat⟩

/-- The token of the merged segment. -/
def mergeToken (segment partner : Segment) (token token' : Option (TrackingToken K)) :
    TrackingToken K :=
  mergedToken segment.mask segment.id (token.getD (globalSequence 0)) partner.id
    (token'.getD (globalSequence 0))

/-- Whether a half cannot be merged yet. -/
def unmergeable (token : Option (TrackingToken K)) : Bool :=
  token.elim false fun t => t.isReplayToken || t.isMergedToken

/-- What a task does with the segments of the moment. -/
def withSegments (s : State K) (i : ℕ) (segments : List Segment) : Task → State K
  | .round caller => s.setFrame i (.listing caller segments)
  | .split id =>
      match segments.find? (·.id == id) with
      | none => s.setFrame i .threw
      | some segment => holdSplit s i segment
  | .merge id =>
      match mergePair segments id with
      | none => s.setFrame i .threw
      | some (segment, partner) => holdMerge s i segment partner none

def failTask (s : State K) (i : ℕ) : Task → State K
  | .round caller => endRound s i caller false
  | _ => s.setFrame i .threw

/-! ## Steps -/

/-- The call a frame waits for. -/
def callOf (s : State K) : Pc K → Option (Call K)
  | .renewing _ w token _ => (s.started w).map fun v => .store v.segment.id token
  | .fetching _ => some .fetchSegments
  | .initializing _ => some .initializeSegments
  | .refetching _ => some .fetchSegments
  | .listing _ _ => some .fetchAvailableSegments
  | .claiming _ segment _ _ => some (.claimToken segment.id)
  | .abandoning _ segment => some (.releaseClaim segment.id)
  | .splitClaim segment => some (.claimToken segment.id)
  | .splitRead segment _ => some (.get segment.id)
  | .splitCommit segment _ token =>
      some (.commitSplit (splitSegment segment).2.id (token.getD (globalSequence 0)))
  | .splitFirst segment _ => some (.releaseClaim (splitSegment segment).1.id)
  | .mergeClaim segment partner first =>
      some (.claimToken (if first.isNone then segment.id else partner.id))
  | .mergeRead segment _ _ _ => some (.get segment.id)
  | .mergeReadPartner _ partner _ _ _ => some (.get partner.id)
  | .mergeCommit segment partner _ _ token token' =>
      some (.commitMerge (min segment.id partner.id) (max segment.id partner.id)
        (mergeToken segment partner token token'))
  | .mergeRelease segment partner _ _ _ _ => some (.releaseClaim (min segment.id partner.id))
  | .mergeUndoRelease segment _ _ => some (.releaseClaim segment.id)
  | .releasing id _ => some (.releaseClaim id)
  | .pollBatch w token => (s.started w).map fun v => .store v.segment.id token
  | .pollQuiet w token => (s.started w).map fun v => .store v.segment.id token
  | .stopWrite w _ token => (s.started w).map fun v => .store v.segment.id token
  | .stopRelease w => (s.started w).map fun v => .releaseClaim v.segment.id
  | _ => none

/-- The store performs the call a frame waits for, or fails it. -/
def land (cfg : Config) (s : State K) (i : ℕ) (fails : Bool) : Option (State K) :=
  match callOf s (s.frames i).pc, (s.frames i).reply with
  | some call, none =>
      let (rows, reply) := if fails then (s.rows, .failed) else perform cfg s.rows call
      some { s with
        rows := rows, frames := Function.update s.frames i ⟨(s.frames i).pc, some reply⟩ }
  | _, _ => none

def Pc.isReturned : Pc K → Bool
  | .returned => true
  | _ => false

def Pc.isThrown : Pc K → Bool
  | .threw => true
  | _ => false

/-- `start` after `await stopping`. -/
def afterStopping (s : State K) (i : ℕ) (stopping : List ℕ) : Option (State K) :=
  if stopping.any fun j => (s.frames j).pc.isThrown then some (s.setFrame i .threw)
  else if stopping.all fun j => (s.frames j).pc.isReturned then
    some ({ s with isRunning := true }.setFrame i .startHead)
  else none

def afterRenewal (s : State K) (i : ℕ) (caller : Caller) (w : ℕ) (rest : List ℕ) :
    Reply K → State K
  | .done => renewLoop (s.setWorker w fun v => { v with unwritten := false }) i caller rest
  | .refused => renewLoop (lose s w) i caller rest
  | _ => endRound s i caller false

def afterFetch (s : State K) (i : ℕ) (task : Task) (first : Bool) : Reply K → State K
  | .ids ids =>
      if first ∧ ids = [] then s.setFrame i (.initializing task)
      else withSegments s i (segmentsOf ids) task
  | _ => failTask s i task

def afterInitialize (s : State K) (i : ℕ) (task : Task) : Reply K → State K
  | .done => s.setFrame i (.refetching task)
  | _ => failTask s i task

def afterListing (s : State K) (i : ℕ) (caller : Caller) (segments : List Segment) :
    Reply K → State K
  | .ids available => claimLoop s i caller segments available
  | _ => endRound s i caller false

def afterClaim (s : State K) (i : ℕ) (caller : Caller) (segment : Segment) (rest : List Segment)
    (available : List ℕ) : Reply K → State K
  | .token stored =>
      if s.isRunning then claimLoop (startWorker s segment stored) i caller rest available
      else s.setFrame i (.abandoning caller segment)
  | .refused => claimLoop s i caller rest available
  | _ => endRound s i caller false

def afterAbandon (s : State K) (i : ℕ) (caller : Caller) : Reply K → State K
  | .done => endRound s i caller true
  | _ => endRound s i caller false

def afterSplitHold (s : State K) (i : ℕ) (segment : Segment) (stop : ℕ) : Option (State K) :=
  if (s.frames stop).pc.isReturned then some (s.setFrame i (.splitRead segment .held))
  else if (s.frames stop).pc.isThrown then some (s.setFrame i .threw)
  else none

def afterSplitClaim (s : State K) (i : ℕ) (segment : Segment) : Reply K → State K
  | .token _ => s.setFrame i (.splitRead segment .claimed)
  | _ => s.setFrame i .threw

def afterSplitRead (s : State K) (i : ℕ) (segment : Segment) (how : How) : Reply K → State K
  | .token token =>
      if token.elim false (·.isMergedToken) then splitUndo s i segment how token
      else s.setFrame i (.splitCommit segment how token)
  | _ => splitUndo s i segment how none

def afterSplitCommit (s : State K) (i : ℕ) (segment : Segment) (how : How)
    (token : Option (TrackingToken K)) : Reply K → State K
  | .done =>
      let s := s.forget segment.id
      if s.isRunning then
        (startWorker s (splitSegment segment).1 token).setFrame i (.splitSecond segment token)
      else s.setFrame i (.splitFirst segment token)
  | _ => splitUndo s i segment how token

def afterSplitFirst (s : State K) (i : ℕ) (segment : Segment) (token : Option (TrackingToken K)) :
    Reply K → State K
  | .done => resumeLast s i (splitSegment segment).2 token
  | _ => s.setFrame i .threw

def afterMergeHold (s : State K) (i : ℕ) (segment partner : Segment) (first : Option How)
    (stop : ℕ) : Option (State K) :=
  if (s.frames stop).pc.isReturned then some (mergeHeld s i segment partner first .held)
  else if (s.frames stop).pc.isThrown then some (mergeUndo s i (heldBefore segment first))
  else none

def afterMergeClaim (s : State K) (i : ℕ) (segment partner : Segment) (first : Option How) :
    Reply K → State K
  | .token _ => mergeHeld s i segment partner first .claimed
  | _ => mergeUndo s i (heldBefore segment first)

def afterMergeRead (s : State K) (i : ℕ) (segment partner : Segment) (how how' : How) :
    Reply K → State K
  | .token token =>
      if unmergeable token then mergeUndo s i [(segment, how, token), (partner, how', none)]
      else s.setFrame i (.mergeReadPartner segment partner how how' token)
  | _ => mergeUndo s i [(segment, how, none), (partner, how', none)]

def afterMergeReadPartner (s : State K) (i : ℕ) (segment partner : Segment) (how how' : How)
    (token : Option (TrackingToken K)) : Reply K → State K
  | .token token' =>
      if unmergeable token' then mergeUndo s i [(segment, how, token), (partner, how', token')]
      else s.setFrame i (.mergeCommit segment partner how how' token token')
  | _ => mergeUndo s i [(segment, how, token), (partner, how', none)]

def afterMergeCommit (s : State K) (i : ℕ) (segment partner : Segment) (how how' : How)
    (token token' : Option (TrackingToken K)) : Reply K → State K
  | .done =>
      let s := (s.forget (max segment.id partner.id)).forget (min segment.id partner.id)
      if s.isRunning then
        startWorker s (mergedSegment segment partner)
          (some (mergeToken segment partner token token'))
      else s.setFrame i (.mergeRelease segment partner how how' token token')
  | _ => mergeUndo s i [(segment, how, token), (partner, how', token')]

def afterMergeRelease (s : State K) (i : ℕ) (segment partner : Segment) (how how' : How)
    (token token' : Option (TrackingToken K)) : Reply K → State K
  | .done => s
  | _ => mergeUndo s i [(segment, how, token), (partner, how', token')]

/-- A release of the `catch` that fails ends it, unless the segment was only claimed. -/
def afterUndoRelease (s : State K) (i : ℕ) (how : How)
    (rest : List (Segment × How × Option (TrackingToken K))) : Reply K → State K
  | .done => mergeUndo s i rest
  | _ => if how = .held then s.setFrame i .threw else mergeUndo s i rest

def afterRelease (s : State K) (i : ℕ) (rethrow : Bool) : Reply K → State K
  | .done => if rethrow then s.setFrame i .threw else s
  | _ => s.setFrame i .threw

/-- `pollOnce` after `await renewing`. -/
def afterRenewing (s : State K) (i w : ℕ) (v : Worker K) (found : Found K) : Option (State K) :=
  if renewalPending s w v then none
  else if v.active then pollOnce s i w v found
  else some (endPoll s w)

def afterBatch (s : State K) (i w : ℕ) (v : Worker K) (batchEndToken : TrackingToken K)
    (found : Found K) : Reply K → Option (State K)
  | .done =>
      let s := (setToken s w v batchEndToken).setWorker w fun v => { v with unwritten := false }
      match v.active, found with
      | true, .looked upTo => moveThroughQuietStretch s i w { v with token := batchEndToken } upTo
      | true, .events _ => none
      | _, _ => some (endPoll s w)
  | .refused => some (endPoll (lose s w) w)
  | _ => some (endPoll s w)

def afterQuiet (s : State K) (w : ℕ) : Reply K → State K
  | .refused => endPoll (lose s w) w
  | _ => endPoll s w

/-- `worker.stop` after the batch in flight. -/
def afterInFlight (s : State K) (i w : ℕ) (v : Worker K) (release : Bool) : Option (State K) :=
  if v.processing then none
  else if v.unwritten then some (s.setFrame i (.stopWrite w release v.token))
  else if release then some (s.setFrame i (.stopRelease w))
  else some s

def afterStopWrite (s : State K) (i w : ℕ) (release : Bool) : Reply K → State K
  | .done => if release then s.setFrame i (.stopRelease w) else s
  | .refused => s
  | _ => s.setFrame i .threw

def afterStopRelease (s : State K) (i : ℕ) : Reply K → State K
  | .done => s
  | .refused => s
  | _ => s.setFrame i .threw

/-- A frame goes on from where it rests, with what the store has answered: `s` has
it at its end already, and it is put where it rests next. -/
def run (s : State K) (i : ℕ) (found : Found K) (reply : Option (Reply K)) :
    Pc K → Option (State K)
  | .startAwait stopping => afterStopping s i stopping
  | .startHead => some (claimRound s i .start)
  | .renewNext caller rest => some (renewLoop s i caller rest)
  | .renewing caller w _ rest => reply.map (afterRenewal s i caller w rest)
  | .fetching task => reply.map (afterFetch s i task true)
  | .initializing task => reply.map (afterInitialize s i task)
  | .refetching task => reply.map (afterFetch s i task false)
  | .listing caller segments => reply.map (afterListing s i caller segments)
  | .claiming caller segment rest available =>
      reply.map (afterClaim s i caller segment rest available)
  | .abandoning caller _ => reply.map (afterAbandon s i caller)
  | .splitHold segment _ stop => afterSplitHold s i segment stop
  | .splitClaim segment => reply.map (afterSplitClaim s i segment)
  | .splitRead segment how => reply.map (afterSplitRead s i segment how)
  | .splitCommit segment how token => reply.map (afterSplitCommit s i segment how token)
  | .splitFirst segment token => reply.map (afterSplitFirst s i segment token)
  | .splitSecond segment token => some (resumeLast s i (splitSegment segment).2 token)
  | .mergeHold segment partner first _ stop => afterMergeHold s i segment partner first stop
  | .mergeClaim segment partner first => reply.map (afterMergeClaim s i segment partner first)
  | .mergeRead segment partner how how' => reply.map (afterMergeRead s i segment partner how how')
  | .mergeReadPartner segment partner how how' token =>
      reply.map (afterMergeReadPartner s i segment partner how how' token)
  | .mergeCommit segment partner how how' token token' =>
      reply.map (afterMergeCommit s i segment partner how how' token token')
  | .mergeRelease segment partner how how' token token' =>
      reply.map (afterMergeRelease s i segment partner how how' token token')
  | .mergeUndo rest => some (mergeUndo s i rest)
  | .mergeUndoRelease _ how rest => reply.map (afterUndoRelease s i how rest)
  | .releasing _ rethrow => reply.map (afterRelease s i rethrow)
  | .pollAwait w => (s.started w).bind fun v => afterRenewing s i w v found
  | .pollBatch w token =>
      (s.started w).bind fun v => reply.bind (afterBatch s i w v token found)
  | .pollQuiet w _ => reply.map (afterQuiet s w)
  | .stopAwait w release => (s.started w).bind fun v => afterInFlight s i w v release
  | .stopWrite w release _ => reply.map (afterStopWrite s i w release)
  | .stopRelease _ => reply.map (afterStopRelease s i)
  | .returned => none
  | .threw => none

def stop (s : State K) : State K :=
  let stopped := s.workers.foldl (fun s e => stopWorker s e.worker true)
    { s with isRunning := false, workers := [] }
  { stopped with
    claimTimer := false
    intervals := if s.claimTimer then s.intervals - 1 else s.intervals
    stopping := s.claiming.toList ++ (List.range s.workers.length).map (s.nextFrame + ·) }

def releaseSegment (s : State K) (id : ℕ) : State K :=
  let s := { s with releasedUntil := id :: s.releasedUntil }
  match s.workerOf id with
  | none => s
  | some w => stopWorker ((s.unregister id).forget id) w true

/-- The timer's `claimSoon`. -/
def claimSoon (s : State K) : State K :=
  if s.claiming.isSome ∨ ¬ s.isRunning then s
  else
    claimRound ({ s with claiming := some s.nextFrame }.push .returned) s.nextFrame .timer

inductive Action (K : Type) where
  | start
  | stop
  | releaseSegment (id : ℕ)
  | splitSegment (id : ℕ)
  | mergeSegment (id : ℕ)
  /-- An interval fires. -/
  | claimSoon
  /-- A worker's timer or its stream's callback fires. -/
  | poll (w : ℕ)
  | land (i : ℕ) (fails : Bool)
  | resume (i : ℕ) (found : Found K)
  /-- A segment is no longer left alone. -/
  | releaseOver (id : ℕ)
  /-- A claim outlives its timeout, another node takes it over, or lets it go. -/
  | expire (id : ℕ)
  | takeOver (id : ℕ)
  | giveBack (id : ℕ)

def step (cfg : Config) (s : State K) : Action K → Option (State K)
  | .start => if s.isRunning then some s else some (s.push (.startAwait s.stopping))
  | .stop => some (stop s)
  | .releaseSegment id => some (releaseSegment s id)
  | .splitSegment id =>
      if cfg.segments.isNone then none else some (s.push (.fetching (.split id)))
  | .mergeSegment id => some (s.push (.fetching (.merge id)))
  | .claimSoon => if s.intervals = 0 then none else some (claimSoon s)
  | .poll w => poll s w
  | .land i fails => land cfg s i fails
  | .resume i found => run (s.setFrame i .returned) i found (s.frames i).reply (s.frames i).pc
  | .releaseOver id => some { s with releasedUntil := s.releasedUntil.filter (· ≠ id) }
  | .expire id => some { s with rows := s.rows.update id fun row => { row with expired := true } }
  | .takeOver id =>
      some { s with
        rows := s.rows.update id fun row =>
          if row.owner = none ∨ row.expired then ⟨row.id, row.token, some .other, false⟩ else row }
  | .giveBack id =>
      some { s with
        rows := s.rows.update id fun row =>
          if row.owner = some .other then { row with owner := none } else row }

end Kronos.Processing.Node
