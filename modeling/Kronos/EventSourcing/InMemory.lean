import Mathlib.Data.Int.Notation
import Kronos.Lib.Transition
import Kronos.EventSourcing.DcbQuery

/-!
# The in-memory event store and the tasks that decide over it

A task reads (`load`, `source`), buffers what it appends, and at
`PREPARE_COMMIT` its flush makes one conditional append of the buffer. Every
read is recorded with its query and the marker it returned; the flush combines
the records into the append condition. The store answers a call before anything
else runs, while the caller goes on later: a read takes effect when it is
issued and is recorded when it is awaited.

What a read returned is kept with its record, to compare it with the log at the
append. The state a `load` folds is a function of those events and is left out,
as are its evolution by the task's own appends and the listeners of streams.
-/
namespace Kronos.EventSourcing
open Kronos.Lib.Transition

variable {P : Type}

structure Entry (P : Type) where
  position : ℕ
  event : EventMessage P

structure InMemoryEventStore (P : Type) where
  events : List (Entry P)
  nextPosition : ℕ

/-- One read an append condition covers. Markers start at -1, before the first position. -/
structure AppendConditionRead where
  query : EventQuery
  marker : ℤ

structure AppendCondition where
  query : EventQuery
  marker : ℤ
  reads : Option (List AppendConditionRead)

structure SourcingResult (P : Type) where
  events : List (EventMessage P)
  marker : ℤ

namespace InMemoryEventStore
variable (store : InMemoryEventStore P)

/-- What `refuseConflicts` compares the log with. -/
def compileReads (condition : AppendCondition) : Except String (List (EventCriteria × ℤ)) :=
  (condition.reads.getD [⟨condition.query, condition.marker⟩]).mapM fun read => do
    return (← compileQuery read.query, read.marker)

def conflicting (checks : List (EventCriteria × ℤ)) : List (Entry P) :=
  store.events.filter fun entry => checks.any fun check =>
    decide (check.2 < entry.position) && matchesCriteria entry.event check.1

def refuseConflicts (condition : AppendCondition) : Except String Unit := do
  let checks ← compileReads condition
  let conflicting := store.conflicting checks
  if 0 < conflicting.length then
    throw ("Append condition violated: " ++ toString conflicting.length ++
      " conflicting event(s) found after position " ++ toString condition.marker)

/-- The marker of every read: the end of the whole log. -/
def globalMarker : ℤ :=
  match store.events.getLast? with
  | some entry => entry.position
  | none => -1

def source (query : EventQuery) (start : Option ℕ) : Except String (SourcingResult P) := do
  let criteria ← compileQuery query
  let candidates := store.events.filter fun entry => decide (start.getD 0 ≤ entry.position)
  let matching := candidates.filter fun entry => matchesCriteria entry.event criteria
  return ⟨matching.map Entry.event, store.globalMarker⟩

def push (event : EventMessage P) : InMemoryEventStore P :=
  ⟨store.events ++ [⟨store.nextPosition, event⟩], store.nextPosition + 1⟩

/-- `if (condition) refuseConflicts(condition)`. -/
def checkCondition : Option AppendCondition → Except String Unit
  | some condition => store.refuseConflicts condition
  | none => .ok ()

def append (newEvents : List (EventMessage P)) (condition : Option AppendCondition) :
    Except String ℤ × InMemoryEventStore P :=
  match store.checkCondition condition with
  | .error e => (.error e, store)
  | .ok () =>
      let store := newEvents.foldl push store
      (.ok (store.nextPosition - 1), store)

end InMemoryEventStore

/-- A recorded read, with the events it returned. -/
structure SourcingInfo (P : Type) where
  query : EventQuery
  markerPosition : ℤ
  events : List (EventMessage P)

/-- The part of a unit of work that deciding uses. -/
structure Task (P : Type) where
  buffered : List (EventMessage P)
  sourcingInfos : List (SourcingInfo P)
  /-- Cache key to what the load came back with. -/
  stateCache : List (String × Except String (SourcingInfo P))
  /-- Reads that were issued and not yet recorded. -/
  awaiting : List (SourcingInfo P)
  flushed : Bool

/-- The condition a flush derives from what the task has read. -/
def flushCondition (sourcingInfos : List (SourcingInfo P))
    (override : Option (EventQuery → EventQuery)) : Except String (Option AppendCondition) :=
  match sourcingInfos with
  | [] => .ok none
  | first::_ => do
      let combined := (← sourcingInfos.mapM fun s => queryItems s.query).flatten
      let earliest := sourcingInfos.foldl
        (fun min s => if s.markerPosition < min then s.markerPosition else min) first.markerPosition
      match override with
      | some override => return some ⟨override (.items combined), earliest, none⟩
      | none => return some ⟨.items combined, earliest,
          some (sourcingInfos.map fun s => ⟨s.query, s.markerPosition⟩)⟩

/-- The flush: nothing to write, or what the append came back with. -/
def flush (store : InMemoryEventStore P) (task : Task P)
    (override : Option (EventQuery → EventQuery)) :
    Option (Except String ℤ) × InMemoryEventStore P :=
  if task.buffered.isEmpty then (none, store)
  else match flushCondition task.sourcingInfos override with
    | .error e => (some (.error e), store)
    | .ok condition =>
        let result := store.append task.buffered condition
        (some result.1, result.2)

/-- A flush that had something to write. -/
structure Flush (P : Type) where
  overridden : Bool
  sourcingInfos : List (SourcingInfo P)
  before : InMemoryEventStore P
  outcome : Except String ℤ
  after : InMemoryEventStore P

structure State (P : Type) where
  store : InMemoryEventStore P
  tasks : ℕ → Task P
  flushes : List (Flush P)

inductive Action (P : Type) where
  | load (i : ℕ) (cacheKey : String) (query : EventQuery)
  | source (i : ℕ) (query : EventQuery)
  | record (i : ℕ) (k : ℕ)
  | append (i : ℕ) (event : EventMessage P)
  | flush (i : ℕ) (override : Option (EventQuery → EventQuery))

def initial : State P := ⟨⟨[], 0⟩, fun _ => ⟨[], [], [], [], false⟩, []⟩

/-- Issue a read: what it will be recorded as. -/
def issue (store : InMemoryEventStore P) (query : EventQuery) : Except String (SourcingInfo P) := do
  let result ← store.source query none
  return ⟨query, result.marker, result.events⟩

namespace Task
variable (task : Task P)

/-- A read that succeeded will be recorded; one that threw will not. -/
def await (result : Except String (SourcingInfo P)) : Task P :=
  match result with
  | .ok info => { task with awaiting := task.awaiting ++ [info] }
  | .error _ => task

/-- `ctx.load`: a repeated load answers from the cache, whatever was cached. -/
def load (store : InMemoryEventStore P) (cacheKey : String) (query : EventQuery) : Task P :=
  match task.stateCache.lookup cacheKey with
  | some result => task.await result
  | none =>
      let result := issue store query
      { task.await result with stateCache := (cacheKey, result)::task.stateCache }

/-- `recordSourcing`, in whatever order the reads are awaited. -/
def record (k : ℕ) : Option (Task P) := do
  let info ← task.awaiting[k]?
  return { task with
    awaiting := task.awaiting.eraseIdx k, sourcingInfos := task.sourcingInfos ++ [info] }

end Task

def State.setTask (s : State P) (i : ℕ) (task : Task P) : State P :=
  { s with tasks := fun j => if j = i then task else s.tasks j }

def step (s : State P) : Action P → Option (State P)
  | .load i cacheKey query => some (s.setTask i ((s.tasks i).load s.store cacheKey query))
  | .source i query => some (s.setTask i ((s.tasks i).await (issue s.store query)))
  | .record i k => ((s.tasks i).record k).map (s.setTask i)
  | .append i event =>
      if (s.tasks i).flushed then none
      else some (s.setTask i { s.tasks i with buffered := (s.tasks i).buffered ++ [event] })
  | .flush i override =>
      if (s.tasks i).flushed then none
      else
        let result := flush s.store (s.tasks i) override
        let done := s.setTask i { s.tasks i with flushed := true }
        some { done with
          store := result.2
          flushes := match result.1 with
            | none => s.flushes
            | some outcome => s.flushes ++
                [⟨override.isSome, (s.tasks i).sourcingInfos, s.store, outcome, result.2⟩] }

end Kronos.EventSourcing
