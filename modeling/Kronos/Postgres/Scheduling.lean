import Mathlib.Data.Int.Notation
import Mathlib.Data.List.Nodup
import Kronos.Lib.Slots
import Kronos.Lib.Transition

/-!
# Scheduled events in Postgres

A task arms and cancels schedules inside its own transaction; a worker's tick
picks due rows, appends their events and marks the rows, all inside one
transaction of its own. What a transaction writes is seen by it alone until it
commits. A row lock is held until its transaction ends: `FOR UPDATE` waits for
it and reads the row as it then is, `SKIP LOCKED` passes it by. A row being
inserted counts as locked by its transaction, since a second insert of the same
key waits for the first to end.

A step is one statement, one commit or one rollback; a rollback may strike at
any time, whether a throw, a crash, a timeout or a deadlock caused it. A task
awaits its calls before it commits, with as many of them in flight as it likes.
The columns that make up the event are one value. The advisory locks of an
append only delay it, and events that were not scheduled have identifiers of
their own; both are left out.
-/
namespace Kronos.Postgres.Scheduling
open Kronos.Lib.Slots

variable {E : Type}

inductive Status
  | pending
  | appended
  | cancelled
  deriving DecidableEq, Repr

structure ScheduleRow (E : Type) where
  fireAt : ℤ
  status : Status
  event : E
  deriving DecidableEq, Repr

/-- Rows by their `schedule_id`. -/
abbrev Table (E : Type) := String → Option (ScheduleRow E)

inductive CancelResult
  | cancelled
  | alreadyAppended
  | notFound
  deriving DecidableEq, Repr

inductive Ending
  | active
  | committed
  | rolledBack
  deriving DecidableEq, Repr

/-- Where the code that owns a transaction stands. `cancelling` are the calls of
`cancelSchedule` between their two statements; `firing` are the rows a tick still
has to do, with the event of the first one appended or not. -/
inductive Progress (E : Type)
  | task (cancelling : List String)
  | ticking (batchSize : ℕ)
  | firing (rows : List (String × ScheduleRow E)) (appended : Bool)

structure Transaction (E : Type) where
  ending : Ending
  progress : Progress E
  locks : List String
  writes : Table E
  events : List (String × E)
  armed : List String
  answers : List (String × CancelResult)

structure World (E : Type) where
  scheduled : Table E
  log : List (String × E)
  transactions : List (Transaction E)

def World.initial : World E := ⟨fun _ => none, [], []⟩

def Table.set (table : Table E) (id : String) (row : ScheduleRow E) : Table E :=
  fun key => if key = id then some row else table key

/-- A table with the writes of a transaction on top of it. -/
def Table.over (writes table : Table E) : Table E := fun id => (writes id).or (table id)

/-- The rows a transaction sees: its own writes, then what is committed. -/
def World.view (world : World E) (transaction : Transaction E) : Table E :=
  transaction.writes.over world.scheduled

/-- Another transaction holds the lock on a row. -/
def World.lockedByOther (world : World E) (i : ℕ) (id : String) : Bool :=
  anyOther world.transactions i fun other => other.ending == .active && other.locks.contains id

/-- Another transaction still open has inserted the event. -/
def World.insertedByOther (world : World E) (i : ℕ) (id : String) : Bool :=
  anyOther world.transactions i fun other =>
    other.ending == .active && (other.events.map Prod.fst).contains id

inductive Statement (E : Type)
  | insertSchedule (id : String) (fireAt : ℤ) (event : E)
  | selectForUpdate (id : String)
  | updateCancelled (id : String)
  | selectSkipLocked (ids : List String) (now : ℤ)
  | insertEvent
  | updateAppended

namespace Transaction
variable (transaction : Transaction E)

def rollback : Transaction E := { transaction with ending := .rolledBack }

def answer (id : String) (result : CancelResult) : Transaction E :=
  { transaction with answers := transaction.answers ++ [(id, result)] }

/-- A duplicate key fails the statement and with it the transaction. -/
def insertSchedule (world : World E) (i : ℕ) (id : String) (fireAt : ℤ) (event : E) :
    Option (Transaction E) :=
  match transaction.progress with
  | .task _ =>
      if (world.view transaction id).isSome then some transaction.rollback
      else if world.lockedByOther i id then none
      else some { transaction with
        writes := transaction.writes.set id ⟨fireAt, .pending, event⟩
        locks := id::transaction.locks
        armed := id::transaction.armed }
  | _ => none

/-- The `SELECT … FOR UPDATE` of `cancelOnTx`, and its answer where it ends there. -/
def selectForUpdate (world : World E) (i : ℕ) (id : String) : Option (Transaction E) :=
  match transaction.progress with
  | .task cancelling =>
      match world.view transaction id with
      | none => some (transaction.answer id .notFound)
      | some row =>
          if world.lockedByOther i id then none
          else
            let locked := { transaction with locks := id::transaction.locks }
            match row.status with
            | .appended => some (locked.answer id .alreadyAppended)
            | .cancelled => some (locked.answer id .notFound)
            | .pending => some { locked with progress := .task (id::cancelling) }
  | _ => none

/-- `UPDATE … SET status WHERE schedule_id = id`. -/
def setStatus (world : World E) (id : String) (status : Status) : Transaction E :=
  match world.view transaction id with
  | none => transaction
  | some row => { transaction with
      writes := transaction.writes.set id { row with status := status } }

/-- The `UPDATE` of `cancelOnTx`. -/
def updateCancelled (world : World E) (id : String) : Option (Transaction E) :=
  match transaction.progress with
  | .task cancelling =>
      if id ∈ cancelling then
        some ({ transaction.setStatus world id .cancelled with
          progress := .task (cancelling.erase id) }.answer id .cancelled)
      else none
  | _ => none

/-- A row that `tick` may pick. -/
def due (world : World E) (i : ℕ) (now : ℤ) (id : String) : Bool :=
  match world.view transaction id with
  | none => false
  | some row => row.status == .pending && decide (row.fireAt ≤ now) && !world.lockedByOther i id

/-- `ORDER BY fire_at LIMIT batchSize FOR UPDATE SKIP LOCKED`: any due rows no one
else has locked, since a row may be passed by for a lock that is gone by now. -/
def selectSkipLocked (world : World E) (i : ℕ) (ids : List String) (now : ℤ) :
    Option (Transaction E) :=
  match transaction.progress with
  | .ticking batchSize =>
      let rows := ids.filterMap fun id => (world.view transaction id).map fun row => (id, row)
      if ids.Nodup ∧ ids.length ≤ batchSize ∧ ids.all (transaction.due world i now) = true ∧
          (rows.map fun row => row.2.fireAt).Pairwise (· ≤ ·) then
        some { transaction with
          progress := .firing rows false
          locks := ids ++ transaction.locks }
      else none
  | _ => none

/-- `next.append([event], undefined, uow)`. -/
def insertEvent (world : World E) (i : ℕ) : Option (Transaction E) :=
  match transaction.progress with
  | .firing ((id, row)::rows) false =>
      if id ∈ world.log.map Prod.fst ∨ id ∈ transaction.events.map Prod.fst then
        some transaction.rollback
      else if world.insertedByOther i id then none
      else some { transaction with
        progress := .firing ((id, row)::rows) true
        events := transaction.events ++ [(id, row.event)] }
  | _ => none

def updateAppended (world : World E) : Option (Transaction E) :=
  match transaction.progress with
  | .firing ((id, _)::rows) true =>
      some { transaction.setStatus world id .appended with progress := .firing rows false }
  | _ => none

def run (world : World E) (i : ℕ) : Statement E → Option (Transaction E)
  | .insertSchedule id fireAt event => transaction.insertSchedule world i id fireAt event
  | .selectForUpdate id => transaction.selectForUpdate world i id
  | .updateCancelled id => transaction.updateCancelled world id
  | .selectSkipLocked ids now => transaction.selectSkipLocked world i ids now
  | .insertEvent => transaction.insertEvent world i
  | .updateAppended => transaction.updateAppended world

/-- The code that owns the transaction has come to its end. -/
def done : Bool :=
  match transaction.progress with
  | .task cancelling => cancelling.isEmpty
  | .ticking _ => false
  | .firing rows _ => rows.isEmpty

end Transaction

/-- `arm` opens the transaction of a task, `tick` that of a worker. -/
inductive Action (E : Type)
  | arm
  | tick (batchSize : ℕ)
  | statement (i : ℕ) (statement : Statement E)
  | commit (i : ℕ)
  | rollback (i : ℕ)

def Transaction.begun (progress : Progress E) : Transaction E :=
  ⟨.active, progress, [], fun _ => none, [], [], []⟩

def World.opened (world : World E) (progress : Progress E) : World E :=
  { world with transactions := world.transactions ++ [.begun progress] }

def World.set (world : World E) (i : ℕ) (transaction : Transaction E) : World E :=
  { world with transactions := world.transactions.set i transaction }

/-- The writes and the events of a transaction land together. -/
def World.commit (world : World E) (i : ℕ) (transaction : Transaction E) : World E where
  scheduled := transaction.writes.over world.scheduled
  log := world.log ++ transaction.events
  transactions := world.transactions.set i { transaction with ending := .committed }

/-- The transaction at `i`, if it is still open. -/
def World.active (world : World E) (i : ℕ) : Option (Transaction E) :=
  world.transactions[i]?.filter fun transaction => transaction.ending = .active

def step (world : World E) : Action E → Option (World E)
  | .arm => some (world.opened (.task []))
  | .tick batchSize => some (world.opened (.ticking batchSize))
  | .statement i statement => do
      let transaction ← world.active i
      let after ← transaction.run world i statement
      some (world.set i after)
  | .commit i => do
      let transaction ← world.active i
      if transaction.done then some (world.commit i transaction) else none
  | .rollback i => do
      let transaction ← world.active i
      some (world.set i transaction.rollback)

end Kronos.Postgres.Scheduling
