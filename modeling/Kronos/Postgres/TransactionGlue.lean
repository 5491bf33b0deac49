import Kronos.Lib.Transition
import Kronos.UnitOfWork.Phases

/-!
# The lazy transaction of a unit of work

`openTransaction` begins one transaction per unit of work, whoever asks first.
Only when the begin has returned are the commit registered for COMMIT and the
rollback as an error handler, while `execute` may be anywhere by then. The
program is free: what its actions register, whether they throw, and when an
opening is asked for or returns, comes with the actions of the model, in any
order.

A transaction ends once: the promise that its callback waits for is settled by
the first of commit and rollback. A commit that the database refuses leaves it
rolled back. What `begunIn`, `prepared` and `prepareThrew` keep is read by no
step.
-/
namespace Kronos.Postgres.TransactionGlue
open Kronos.Lib.Transition Kronos.UnitOfWork

inductive PhaseAction where
  | user
  | commitTransaction
  deriving DecidableEq, Repr

inductive ErrorHandler where
  | user
  | rollbackTransaction
  deriving DecidableEq, Repr

inductive Opening where
  | unasked
  | pending
  | opened
  | failed
  deriving DecidableEq, Repr

inductive Ending where
  | committed
  | rolledBack
  deriving DecidableEq, Repr

/-- Where `execute` stands. -/
inductive Control where
  | notStarted
  | running (phase : Phase) (bucket : List PhaseAction)
  | handler
  | failing (k : ℕ)
  | resolved
  | rejected
  deriving DecidableEq, Repr

/-- When the begin of the transaction returned. -/
inductive Moment where
  | inPhases
  | inAfterCommit
  | inFailing
  | late
  deriving DecidableEq, Repr

structure State where
  control : Control
  buckets : Phase → List PhaseAction
  errorHandlers : List ErrorHandler
  opening : Opening
  begun : ℕ
  /-- The variable of `begin` that its commit sets. -/
  committed : Bool
  ending : Option Ending
  begunIn : Option Moment
  prepared : Bool
  prepareThrew : Bool

def initial : State :=
  ⟨.notStarted, fun _ => [], [], .unasked, 0, false, none, none, false, false⟩

inductive Action where
  | execute
  | register (phase : Phase)
  | registerError
  | ask
  | begins
  | beginFails
  | done
  | throws
  | commitFails
  | next
  | errorHandled
  | settle
  deriving DecidableEq, Repr

namespace State
variable (s : State)

/-- `phaseActions.set(at, [])` with what was there to run. -/
def take (phase : Phase) : State :=
  { s with
    control := .running phase (s.buckets phase)
    buckets := fun p => if p = phase then [] else s.buckets p }

def push (phase : Phase) (action : PhaseAction) : State :=
  { s with buckets := fun p => if p = phase then s.buckets p ++ [action] else s.buckets p }

/-- A phase whose bucket is empty is over. -/
def leave : Phase → State
  | .preInvocation => s.take .invocation
  | .invocation => { s with control := .handler }
  | .prepareCommit => { s.take .commit with prepared := true }
  | .commit => s.take .afterCommit
  | .afterCommit => { s with control := .resolved }

def fail : State := { s with control := .failing 0 }

/-- The first to end the transaction decides. -/
def endAs (ending : Ending) : State := { s with ending := s.ending.or (some ending) }

def moment : Moment :=
  match s.control with
  | .notStarted => .inPhases
  | .running phase _ => if phase = .afterCommit then .inAfterCommit else .inPhases
  | .handler => .inPhases
  | .failing _ => .inFailing
  | .resolved => .late
  | .rejected => .late

/-- What the opener does when the begin has returned. -/
def begins : State :=
  { s.push .commit .commitTransaction with
    opening := .opened
    begun := s.begun + 1
    errorHandlers := s.errorHandlers ++ [.rollbackTransaction]
    begunIn := some s.moment }

end State

def step (s : State) : Action → Option State
  | .execute =>
      match s.control with
      | .notStarted => some (s.take .preInvocation)
      | _ => none
  | .register phase => some (s.push phase .user)
  | .registerError => some { s with errorHandlers := s.errorHandlers ++ [.user] }
  | .ask =>
      match s.opening with
      | .unasked => some { s with opening := .pending }
      | _ => some s
  | .begins => if s.opening = .pending then some s.begins else none
  | .beginFails => if s.opening = .pending then some { s with opening := .failed } else none
  | .done =>
      match s.control with
      | .running phase (.user::bucket) => some { s with control := .running phase bucket }
      | .running phase (.commitTransaction::bucket) =>
          some { s.endAs .committed with control := .running phase bucket, committed := true }
      | .handler => some (s.take .prepareCommit)
      | _ => none
  | .throws =>
      match s.control with
      | .running .prepareCommit (.user::_) => some { s.fail with prepareThrew := true }
      | .running _ (.user::_) => some s.fail
      | .handler => some s.fail
      | _ => none
  | .commitFails =>
      match s.control with
      | .running _ (.commitTransaction::_) =>
          if s.ending = none then some (s.endAs .rolledBack).fail else none
      | _ => none
  | .next =>
      match s.control with
      | .running phase [] =>
          if (s.buckets phase).isEmpty then some (s.leave phase) else some (s.take phase)
      | _ => none
  | .errorHandled =>
      match s.control with
      | .failing k =>
          match s.errorHandlers[k]? with
          | some .user => some { s with control := .failing (k + 1) }
          | some .rollbackTransaction =>
              if s.committed then some { s with control := .failing (k + 1) }
              else some { s.endAs .rolledBack with control := .failing (k + 1) }
          | none => none
      | _ => none
  | .settle =>
      match s.control with
      | .failing k =>
          if s.errorHandlers.length ≤ k then some { s with control := .rejected } else none
      | _ => none

/-- Both `execute` and the opening have settled. -/
def State.settled (s : State) : Bool :=
  (decide (s.control = .resolved) || decide (s.control = .rejected)) &&
    decide (s.opening ≠ .pending)

/-- No transaction outlives its unit of work. -/
structure Contained (s : State) : Prop where
  once : s.begun ≤ 1
  ended : s.settled = true → s.begun = 1 → s.ending ≠ none
  prepared : s.ending = some .committed → s.prepared = true ∧ s.prepareThrew = false

/-- The begin returned while a hook registered then is still to be called: before
COMMIT was drained, or before the error handlers of a failure were through. -/
def State.inTime (s : State) : Bool :=
  match s.begunIn with
  | none => true
  | some .inPhases => true
  | some .inAfterCommit => !s.settled || decide (s.control = .rejected)
  | some .inFailing => true
  | some .late => false

end Kronos.Postgres.TransactionGlue
