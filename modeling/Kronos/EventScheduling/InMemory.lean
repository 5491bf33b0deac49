import Mathlib.Algebra.Order.Ring.Rat
import Kronos.Lib.OrderedMap
import Kronos.Lib.Transition
import Kronos.UnitOfWork.Phases

/-!
# Schedules in memory

`schedule` stages a record while its unit of work invokes and registers two
actions there: one after the commit, which arms a timer, and one for the error,
which drops the record. `cancelSchedule` marks the record at once and has the
error of its unit of work take the mark back. A timer that expires finds the
record by its id and appends the event if this is still pending.

Every action is a synchronous piece of the code: a call, one action of a phase,
one error handler, one expiry; between two of them anything else may run, other
units of work and the host's own actions too. The clock reads instants, which
may be set at will. What Node promises is that a timer expires no earlier than
its delay after it was armed, on this clock, and that a delay it cannot hold is
one millisecond. `generateIdentifier` gives every schedule an id of its own.
-/
namespace Kronos.EventScheduling.InMemory
open Kronos.Lib
open Kronos.UnitOfWork (Phase Failure)

inductive RecordStatus where
  | pending
  | appended
  | cancelled
  deriving DecidableEq, Repr

structure ScheduleRecord (E : Type) where
  status : RecordStatus
  event : E
  /-- `at.getTime()`, whole milliseconds; `none` for an invalid date. -/
  fireAt : Option ℤ
  /-- What `setTimeout` returned. -/
  timer : Option ℕ
  deriving DecidableEq, Repr

inductive CancelResult where
  | cancelled
  | alreadyAppended
  | notFound
  deriving DecidableEq, Repr

/-- What this store registers with `onError`. -/
inductive ErrorHandler (I : Type) where
  | dropStaged (id : I)
  | revertCancel (id : I)
  deriving DecidableEq, Repr

inductive Status where
  | notStarted
  | started
  | completed
  | error
  deriving DecidableEq, Repr

structure UnitOfWork (I : Type) where
  status : Status
  phase : Option Phase
  /-- The schedules whose arming is registered for AFTER_COMMIT and has not run. -/
  afterCommit : List I
  errorHandlers : List (ErrorHandler I)
  deriving DecidableEq, Repr

/-- A timer of Node whose callback looks up `id`. -/
structure Timer (I : Type) where
  id : I
  armedAt : ℚ
  delay : ℤ
  deriving DecidableEq, Repr

/-- What a call of `schedule` was given. -/
structure Schedule (E T : Type) where
  event : E
  fireAt : Option ℤ
  uow : T
  deriving DecidableEq, Repr

/-- An event handed to the wrapped store, with what the clock read. -/
structure Appended (I E : Type) where
  id : I
  event : E
  clock : ℚ
  deriving DecidableEq, Repr

/-- `scheduled`, `answers` and `log` are kept to state what happened; the code never reads them. -/
structure State (I E T : Type) where
  records : List (I × ScheduleRecord E)
  timers : List (ℕ × Timer I)
  nextTimer : ℕ
  uows : List (T × UnitOfWork I)
  clock : ℚ
  scheduled : List (I × Schedule E T)
  answers : List (I × Option T × CancelResult)
  log : List (Appended I E)
  deriving DecidableEq, Repr

def initial (I E T : Type) (clock : ℚ) : State I E T where
  records := []
  timers := []
  nextTimer := 0
  uows := []
  clock := clock
  scheduled := []
  answers := []
  log := []

inductive Action (I E T : Type) where
  | setClock (reading : ℚ)
  | unitOfWork (uow : T)
  /-- The lifecycle goes on to the next phase, or ends. -/
  | advance (uow : T)
  /-- An action of the current phase throws. -/
  | fail (uow : T)
  | runAfterCommit (uow : T)
  | runErrorHandler (uow : T)
  | schedule (id : I) (event : E) (fireAt : Option ℤ) (uow : Option T)
  | cancelSchedule (id : I) (uow : Option T)
  | expire (handle : ℕ)
  | stopScheduling
  deriving DecidableEq, Repr

/-! ## Units of work -/

namespace UnitOfWork

variable {I : Type}

def fresh (I : Type) : UnitOfWork I where
  status := .notStarted
  phase := none
  afterCommit := []
  errorHandlers := []

def closed (u : UnitOfWork I) : Bool := u.status = .completed ∨ u.status = .error

def onAfterCommit (u : UnitOfWork I) (id : I) : UnitOfWork I :=
  { u with afterCommit := u.afterCommit ++ [id] }

def onError (u : UnitOfWork I) (handler : ErrorHandler I) : UnitOfWork I :=
  { u with errorHandlers := u.errorHandlers ++ [handler] }

def requireInvocation (u : UnitOfWork I) : Except Failure Unit :=
  if u.closed then .error .noActiveUnitOfWork
  else if u.phase = some .invocation then .ok ()
  else .error (.wrongUoWPhase u.phase)

/-- `drivePhases`: a phase is left when nothing is registered for it any more. -/
def advance (u : UnitOfWork I) : Option (UnitOfWork I) :=
  match u.status, u.phase with
  | .notStarted, none => some { u with status := .started, phase := some .preInvocation }
  | .started, some .preInvocation => some { u with phase := some .invocation }
  | .started, some .invocation => some { u with phase := some .prepareCommit }
  | .started, some .prepareCommit => some { u with phase := some .commit }
  | .started, some .commit => some { u with phase := some .afterCommit }
  | .started, some .afterCommit =>
      if u.afterCommit = [] then some { u with status := .completed } else none
  | _, _ => none

/-- It failed, and before its commit was through. -/
def RolledBack (u : UnitOfWork I) : Prop := u.status = .error ∧ u.phase ≠ some .afterCommit

end UnitOfWork

/-! ## Timers -/

/-- The delay a timer gets: what is no number from 1 to 2^31-1 becomes 1, fractions are cut off. -/
def timerDelay : Option ℚ → ℤ
  | none => 1
  | some delay => if 2147483647 < delay ∨ delay < 1 then 1 else delay.floor

/-- `Math.max(0, record.fireAt - now())`, `none` for `NaN`. -/
def delayOf (fireAt : Option ℤ) (now : ℚ) : Option ℚ := fireAt.map fun (time : ℤ) =>
    max 0 ((time : ℚ) - now)

namespace State

variable {I E T : Type} [DecidableEq I] [DecidableEq T] (s : State I E T)

def record (id : I) : Option (ScheduleRecord E) := OrderedMap.get id s.records

def setRecord (id : I) (record : ScheduleRecord E) : State I E T :=
  { s with records := OrderedMap.set id record s.records }

def deleteRecord (id : I) : State I E T := { s with records := OrderedMap.delete id s.records }

def uow (uow : T) : Option (UnitOfWork I) := OrderedMap.get uow s.uows

def setUow (uow : T) (u : UnitOfWork I) : State I E T :=
  { s with uows := OrderedMap.set uow u s.uows }

def setTimeout (id : I) (delay : Option ℚ) : State I E T :=
  { s with
    timers := s.timers ++ [(s.nextTimer, ⟨id, s.clock, timerDelay delay⟩)]
    nextTimer := s.nextTimer + 1 }

def clearTimeout (handle : ℕ) : State I E T := { s with timers := s.timers.filter (·.1 ≠ handle) }

def armTimer (id : I) (record : ScheduleRecord E) : State I E T :=
  (s.setTimeout id (delayOf record.fireAt s.clock)).setRecord id { record with
    timer := some s.nextTimer }

/-- The callback of a timer. -/
def onTimer (id : I) : State I E T :=
  match s.record id with
  | none => s
  | some record =>
      if record.status ≠ .pending then s
      else
        { s.setRecord id { record with status := .appended, timer := none } with
          log := s.log ++ [⟨id, record.event, s.clock⟩] }

/-! ## The calls -/

def schedule (id : I) (event : E) (fireAt : Option ℤ) (uow : Option T) :
    Except Failure (State I E T) :=
  match uow with
  | none => .error .noActiveUnitOfWork
  | some t =>
      match s.uow t with
      | none => .error .noActiveUnitOfWork
      | some u => do
          u.requireInvocation
          let s := s.setRecord id ⟨.pending, event, fireAt, none⟩
          let s := s.setUow t ((u.onAfterCommit id).onError (.dropStaged id))
          return { s with scheduled := OrderedMap.set id ⟨event, fireAt, t⟩ s.scheduled }

/-- What `cancelSchedule` leaves for the error of a unit of work that is open. -/
def revertOnError (id : I) (uow : Option T) : State I E T :=
  match uow with
  | none => s
  | some t =>
      match s.uow t with
      | none => s
      | some u => if u.closed then s else s.setUow t (u.onError (.revertCancel id))

def cancelRecord (id : I) (uow : Option T) : State I E T × CancelResult :=
  match s.record id with
  | none => (s, .notFound)
  | some record =>
      match record.status with
      | .appended => (s, .alreadyAppended)
      | .cancelled => (s, .notFound)
      | .pending =>
          let t := s.setRecord id { record with status := .cancelled, timer := none }
          let t := record.timer.elim t t.clearTimeout
          (t.revertOnError id uow, .cancelled)

def cancelSchedule (id : I) (uow : Option T) : State I E T :=
  let (t, result) := s.cancelRecord id uow
  { t with answers := t.answers ++ [(id, uow, result)] }

def stopScheduling : State I E T :=
  { s with
    timers := s.timers.filter fun timer => ∀ entry ∈ s.records, entry.2.timer ≠ some timer.1
    records := [] }

/-! ## What is registered with a unit of work -/

/-- The action `schedule` registers with `onAfterCommit`. -/
def arm (id : I) : State I E T :=
  match s.record id with
  | none => s
  | some record => if record.status ≠ .pending then s else s.armTimer id record

/-- The handlers `schedule` and `cancelSchedule` register with `onError`. -/
def onError : ErrorHandler I → State I E T
  | .dropStaged id =>
      match s.record id with
      | none => s
      | some record => if record.status = .pending then s.deleteRecord id else s
  | .revertCancel id =>
      match s.record id with
      | none => s
      | some record =>
          if record.status = .cancelled then s.setRecord id { record with status := .pending }
          else s

end State

variable {I E T : Type} [DecidableEq I] [DecidableEq T]

def step (s : State I E T) : Action I E T → Option (State I E T)
  | .setClock reading => some { s with clock := reading }
  | .unitOfWork t => if s.uow t = none then some (s.setUow t (.fresh I)) else none
  | .advance t => (s.uow t).bind fun u => u.advance.map (s.setUow t)
  | .fail t =>
      (s.uow t).bind fun u =>
        if u.status = .started then some (s.setUow t { u with status := .error }) else none
  | .runAfterCommit t =>
      (s.uow t).bind fun u =>
        match u.status, u.phase, u.afterCommit with
        | .started, some .afterCommit, id::rest =>
            some ((s.setUow t { u with afterCommit := rest }).arm id)
        | _, _, _ => none
  | .runErrorHandler t =>
      (s.uow t).bind fun u =>
        match u.status, u.errorHandlers with
        | .error, handler::rest =>
            some ((s.setUow t { u with errorHandlers := rest }).onError handler)
        | _, _ => none
  | .schedule id event fireAt uow =>
      if OrderedMap.get id s.scheduled = none then
        match s.schedule id event fireAt uow with
        | .ok t => some t
        | .error _ => some s
      else none
  | .cancelSchedule id uow =>
      if ∀ t, uow = some t → s.uow t ≠ none then some (s.cancelSchedule id uow) else none
  | .expire handle =>
      (OrderedMap.get handle s.timers).bind fun timer =>
        if timer.armedAt + timer.delay ≤ s.clock then
          some ((s.clearTimeout handle).onTimer timer.id) else none
  | .stopScheduling => some s.stopScheduling

end Kronos.EventScheduling.InMemory
