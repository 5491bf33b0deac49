import Mathlib.Order.Basic
import Mathlib.Data.List.Sort
import Kronos.Lib.Slots
import Kronos.Lib.Transition

/-!
# One lane of the Postgres dead-letter queue

The rows of a lane are kept in the order `sequenceRows` reads them. A call of
`process` reads the lane's head as a candidate, claims it, reads the lane again
and walks it from its head, with one unit of work for each letter. The lease on
the next letter is taken before the eviction of this one commits. Claims,
requeues and releases are statements of their own on the pool; the eviction is
in the transaction of the unit of work, whose row lock makes other writers of
the row wait and lets a claim pass it by.

A task that delivers live events parks them behind the lane, in its own
transaction: it reads the lane's size and last index, inserts, and commits with
its batch.

All nodes read one clock. Of a letter only its row id and its index are kept;
diagnostics, causes and the choice among several lanes are left out, and a
sequence filter may answer as it likes.
-/
namespace Kronos.Postgres.DeadLetters
open Kronos.Lib.Slots

structure Config where
  claimDurationMs : ℕ
  maxSequenceSize : ℕ

structure Letter where
  id : ℕ
  index : ℕ
  deriving DecidableEq, Repr

/-- `lease` is `processing_started`. -/
structure Row where
  letter : Letter
  lease : Option ℕ
  deriving DecidableEq, Repr

/-- A letter's lease, as the one this call took. -/
structure Held where
  id : ℕ
  lease : ℕ
  deriving DecidableEq, Repr

/-- Where a call of `process` stands on this lane. `rows` are the letters it has
yet to replay, the one at hand first. -/
inductive Stage
  | started
  | candidate (id : ℕ)
  | claimed (id : ℕ)
  | replaying (rows : List Letter) (held : Held)
  | claiming (rows : List Letter) (held : Held) (following lease : ℕ)
  | handed (rows : List Letter) (held : Held) (next : Option Held)
  | evicted (rows : List Letter) (held : Held) (next : Option Held)
  | failed (held : Held)
  | releasing (leases : List Held)
  | finished
  deriving DecidableEq, Repr

/-- `lease` is the `Date.now()` the call began with. -/
structure Replayer where
  lease : ℕ
  stage : Stage
  deriving DecidableEq, Repr

/-- A transaction that parks live events: the index it has read and not yet
used, and what it has inserted. -/
structure Enqueuer where
  ended : Bool
  planned : Option ℕ
  own : List Letter
  deriving DecidableEq, Repr

/-- `parked`, `replayed` and `failed` record what was committed into the lane,
which replays committed, and which did not. -/
structure World where
  clock : ℕ
  nextId : ℕ
  rows : List Row
  replayers : List Replayer
  enqueuers : List Enqueuer
  parked : List Letter
  replayed : List Letter
  failed : List Letter
  deriving DecidableEq, Repr

def numbered (lane : List ℕ) : List Letter := lane.zipIdx.map fun entry => ⟨entry.2, entry.1⟩

/-- A lane whose letters have the given indices. -/
def World.initial (lane : List ℕ) : World :=
  ⟨0, lane.length, (numbered lane).map fun letter => ⟨letter, none⟩, [], [], numbered lane, [], []⟩

def letters (rows : List Row) : List Letter := rows.map Row.letter

/-! ## Statements on the rows -/

/-- No live lease, as seen with the clock reading `lease`. -/
def Row.free (config : Config) (lease : ℕ) (row : Row) : Bool :=
  match row.lease with
  | none => true
  | some since => decide (since + config.claimDurationMs ≤ lease)

/-- The letter that an open transaction of a replayer has deleted. -/
def Replayer.locked (replayer : Replayer) : List ℕ :=
  match replayer.stage with
  | .evicted (letter::_) _ _ => [letter.id]
  | _ => []

def World.lockedByOther (world : World) (r id : ℕ) : Bool :=
  anyOther world.replayers r fun other => other.locked.contains id

/-- `claim`, and whether it took the letter; `skipped` when another statement has
the row at that instant. -/
def World.claim (config : Config) (world : World) (r id lease : ℕ) (skipped : Bool) :
    Option (List Row) :=
  if !skipped && !world.lockedByOther r id &&
      world.rows.any fun row => row.letter.id == id && row.free config lease then
    some (world.rows.map fun row =>
      if row.letter.id = id then { row with lease := some lease } else row)
  else none

/-- `release`, and what `requeueOn` does to the lease. -/
def clear (held : Held) (rows : List Row) : List Row :=
  rows.map fun row =>
    if row.letter.id = held.id ∧ row.lease = some held.lease then { row with lease := none }
    else row

/-- An insert, at its place by `sequence_index`. -/
def insertRow (letter : Letter) (rows : List Row) : List Row :=
  rows.takeWhile (fun row => decide (row.letter.index ≤ letter.index)) ++
    ⟨letter, none⟩::rows.dropWhile (fun row => decide (row.letter.index ≤ letter.index))

/-! ## `process` -/

def World.stage (world : World) (r : ℕ) (replayer : Replayer) (stage : Stage) : World :=
  { world with replayers := world.replayers.set r { replayer with stage := stage } }

/-- The selection of `laneHeads`. -/
def World.readHead (config : Config) (world : World) (r : ℕ) (replayer : Replayer) (wanted : Bool) :
    Option World :=
  match replayer.stage with
  | .started =>
      match world.rows with
      | row::_ =>
          if row.free config replayer.lease && wanted then
            some (world.stage r replayer (.candidate row.letter.id))
          else some (world.stage r replayer .finished)
      | [] => some (world.stage r replayer .finished)
  | _ => none

def World.claimFirst (config : Config) (world : World) (r : ℕ) (replayer : Replayer)
    (skipped : Bool) : Option World :=
  match replayer.stage with
  | .candidate id =>
      match world.claim config r id replayer.lease skipped with
      | some rows => some { world.stage r replayer (.claimed id) with rows := rows }
      | none => some (world.stage r replayer .finished)
  | _ => none

/-- `sequenceRows` after the claim, and the filter on the head as it is now. -/
def World.readLane (world : World) (r : ℕ) (replayer : Replayer) (passes : Bool) : Option World :=
  match replayer.stage with
  | .claimed id =>
      if !world.rows.isEmpty && passes then
        some (world.stage r replayer (.replaying (letters world.rows) ⟨id, replayer.lease⟩))
      else some (world.stage r replayer (.releasing [⟨id, replayer.lease⟩]))
  | _ => none

/-- `processingTask` has decided; the instant of the next lease is read at once. -/
def World.decided (world : World) (r : ℕ) (replayer : Replayer) (shouldEnqueue : Bool) :
    Option World :=
  match replayer.stage with
  | .replaying (letter::rows) held =>
      if shouldEnqueue then
        some { world.stage r replayer (.failed held) with failed := world.failed ++ [letter] }
      else
        match rows with
        | [] => some (world.stage r replayer (.handed [letter] held none))
        | following::rest => some (world.stage r replayer
            (.claiming (letter::following::rest) held following.id world.clock))
  | _ => none

def World.claimNext (config : Config) (world : World) (r : ℕ) (replayer : Replayer)
    (skipped : Bool) : Option World :=
  match replayer.stage with
  | .claiming rows held following lease =>
      match world.claim config r following lease skipped with
      | some claimed =>
          some { world.stage r replayer (.handed rows held (some ⟨following, lease⟩)) with
            rows := claimed }
      | none => some (world.stage r replayer (.handed rows held none))
  | _ => none

/-- The `DELETE`; it waits for a transaction that has deleted the row before it. -/
def World.evict (world : World) (r : ℕ) (replayer : Replayer) : Option World :=
  match replayer.stage with
  | .handed (letter::rows) held next =>
      if world.lockedByOther r letter.id then none
      else some (world.stage r replayer (.evicted (letter::rows) held next))
  | _ => none

/-- The commit of the unit of work. `reported` is false when it took effect and
`execute` rejects all the same. -/
def World.commit (world : World) (r : ℕ) (replayer : Replayer) (reported : Bool) : Option World :=
  match replayer.stage with
  | .evicted (letter::rows) held next =>
      let after := if reported then
          match next with
          | some following => Stage.replaying rows following
          | none => Stage.finished
        else Stage.releasing (held::next.toList)
      some { world.stage r replayer after with
        rows := world.rows.filter fun row => row.letter.id != letter.id
        replayed := world.replayed ++ [letter] }
  | _ => none

/-- The letters a walk has left and the leases it holds, while the unit of work of
the letter at hand is open. -/
def Stage.unitOfWork : Stage → Option (List Letter × List Held)
  | .replaying rows held => some (rows, [held])
  | .claiming rows held _ _ => some (rows, [held])
  | .handed rows held next => some (rows, held::next.toList)
  | .evicted rows held next => some (rows, held::next.toList)
  | _ => none

/-- `execute` rejects with anything but a failed letter. -/
def World.rollback (world : World) (r : ℕ) (replayer : Replayer) : Option World :=
  match replayer.stage.unitOfWork with
  | some (rows, leases) => some { world.stage r replayer (.releasing leases) with
      failed := world.failed ++ rows.take 1 }
  | none => none

/-- `requeueOn` with the lease, outside the unit of work that rolled back. -/
def World.requeue (world : World) (r : ℕ) (replayer : Replayer) : Option World :=
  match replayer.stage with
  | .failed held =>
      if world.lockedByOther r held.id then none
      else some { world.stage r replayer .finished with rows := clear held world.rows }
  | _ => none

/-- `requeueOn` has thrown, without an effect. -/
def World.requeueFails (world : World) (r : ℕ) (replayer : Replayer) : Option World :=
  match replayer.stage with
  | .failed held => some (world.stage r replayer (.releasing [held]))
  | _ => none

/-- One `release`; it may fail, which is swallowed. -/
def World.release (world : World) (r : ℕ) (replayer : Replayer) (works : Bool) : Option World :=
  match replayer.stage with
  | .releasing (held::leases) =>
      if works then
        if world.lockedByOther r held.id then none
        else some { world.stage r replayer (.releasing leases) with rows := clear held world.rows }
      else some (world.stage r replayer (.releasing leases))
  | _ => none

/-- The node is gone and with it the transaction it had open. -/
def World.crash (world : World) (r : ℕ) (replayer : Replayer) : World :=
  match replayer.stage.unitOfWork with
  | some (rows, _) =>
      { world.stage r replayer .finished with failed := world.failed ++ rows.take 1 }
  | none => world.stage r replayer .finished

/-! ## `enqueueIfPresent` -/

def World.setEnqueuer (world : World) (e : ℕ) (enqueuer : Enqueuer) : World :=
  { world with enqueuers := world.enqueuers.set e enqueuer }

/-- `laneStats`: an empty lane is left alone, a full one refuses. -/
def World.laneStats (config : Config) (world : World) (e : ℕ) (enqueuer : Enqueuer) :
    Option World :=
  match enqueuer.ended, enqueuer.planned with
  | false, none =>
      let seen := letters world.rows ++ enqueuer.own
      match (seen.map Letter.index).max? with
      | none => some world
      | some lastIndex =>
          if config.maxSequenceSize ≤ seen.length then
            some (world.setEnqueuer e { enqueuer with ended := true })
          else some (world.setEnqueuer e { enqueuer with planned := some (lastIndex + 1) })
  | _, _ => none

def World.insertLetter (world : World) (e : ℕ) (enqueuer : Enqueuer) : Option World :=
  match enqueuer.ended, enqueuer.planned with
  | false, some index =>
      some { world.setEnqueuer e ⟨false, none, enqueuer.own ++ [⟨world.nextId, index⟩]⟩ with
        nextId := world.nextId + 1 }
  | _, _ => none

/-- The batch commits, with the letters it has parked. -/
def World.commitBatch (world : World) (e : ℕ) (enqueuer : Enqueuer) : Option World :=
  match enqueuer.ended, enqueuer.planned with
  | false, none => some { world.setEnqueuer e { enqueuer with ended := true } with
      rows := enqueuer.own.foldl (fun rows letter => insertRow letter rows) world.rows
      parked := world.parked ++ enqueuer.own }
  | _, _ => none

/-! ## Runs -/

inductive Action
  | wait (ms : ℕ)
  | process
  | readHead (r : ℕ) (wanted : Bool)
  | claimFirst (r : ℕ) (skipped : Bool)
  | readLane (r : ℕ) (passes : Bool)
  | decided (r : ℕ) (shouldEnqueue : Bool)
  | claimNext (r : ℕ) (skipped : Bool)
  | evict (r : ℕ)
  | commit (r : ℕ) (reported : Bool)
  | rollback (r : ℕ)
  | requeue (r : ℕ)
  | requeueFails (r : ℕ)
  | release (r : ℕ) (works : Bool)
  | crash (r : ℕ)
  | batch
  | laneStats (e : ℕ)
  | insertLetter (e : ℕ)
  | commitBatch (e : ℕ)
  | rollbackBatch (e : ℕ)
  deriving DecidableEq, Repr

def step (config : Config) (world : World) : Action → Option World
  | .wait ms => some { world with clock := world.clock + ms }
  | .process => some { world with replayers := world.replayers ++ [⟨world.clock, .started⟩] }
  | .readHead r wanted => world.replayers[r]?.bind fun p => world.readHead config r p wanted
  | .claimFirst r skipped => world.replayers[r]?.bind fun p => world.claimFirst config r p skipped
  | .readLane r passes => world.replayers[r]?.bind fun p => world.readLane r p passes
  | .decided r shouldEnqueue => world.replayers[r]?.bind fun p => world.decided r p shouldEnqueue
  | .claimNext r skipped => world.replayers[r]?.bind fun p => world.claimNext config r p skipped
  | .evict r => world.replayers[r]?.bind fun p => world.evict r p
  | .commit r reported => world.replayers[r]?.bind fun p => world.commit r p reported
  | .rollback r => world.replayers[r]?.bind fun p => world.rollback r p
  | .requeue r => world.replayers[r]?.bind fun p => world.requeue r p
  | .requeueFails r => world.replayers[r]?.bind fun p => world.requeueFails r p
  | .release r works => world.replayers[r]?.bind fun p => world.release r p works
  | .crash r => world.replayers[r]?.map fun p => world.crash r p
  | .batch => some { world with enqueuers := world.enqueuers ++ [⟨false, none, []⟩] }
  | .laneStats e => world.enqueuers[e]?.bind fun q => world.laneStats config e q
  | .insertLetter e => world.enqueuers[e]?.bind fun q => world.insertLetter e q
  | .commitBatch e => world.enqueuers[e]?.bind fun q => world.commitBatch e q
  | .rollbackBatch e => world.enqueuers[e]?.map fun q =>
      world.setEnqueuer e { q with ended := true }

end Kronos.Postgres.DeadLetters
