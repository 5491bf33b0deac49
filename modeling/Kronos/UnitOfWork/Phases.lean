import Mathlib.Data.List.Basic
import Mathlib.Logic.Function.Basic
import Mathlib.Tactic.Cases
import Mathlib.Algebra.Order.Ring.Nat

/-!
# The phase machine of a unit of work

`execute` drains the buckets of the phases in order, calls the handler inside
INVOCATION, and then notifies either the completion handlers or the error
handlers. What a closure does when it is called is data here: the lifecycle
registrations and subscription updates it makes, in order, and the error it then
throws, if any. A registration carries the body of the closure it registers, so
a program is a finite tree of any depth. A program whose closures extend
themselves for ever is one that the code never returns from.

The `log` and the serial number of each registered closure are bookkeeping: the
machine never reads the log, and the numbers name the closures in the order in
which they were registered.
-/
namespace Kronos.UnitOfWork

inductive Phase
  | preInvocation
  | invocation
  | prepareCommit
  | commit
  | afterCommit
  deriving DecidableEq, Repr

/-- The order in which `drivePhases` runs the phases. -/
def Phase.index : Phase → ℕ
  | .preInvocation => 0
  | .invocation => 1
  | .prepareCommit => 2
  | .commit => 3
  | .afterCommit => 4

/-- Before the lifecycle starts every phase is still to come. -/
def phaseIndex : Option Phase → ℕ
  | none => 0
  | some p => p.index

/-- Where a closure is registered. -/
inductive Slot
  | on (phase : Phase)
  | onError
  | whenComplete
  deriving DecidableEq, Repr

/-- One thing a closure does with the unit of work while it runs. An error value
is a number; `emitUpdate` carries what its update task throws. -/
inductive Effect
  | register (slot : Slot) (effects : List Effect) (throws : Option ℕ)
  | emitUpdate (throws : Option ℕ)

structure Body where
  effects : List Effect
  throws : Option ℕ

/-- A registered closure: one given by the program, or the one that
`runAfterCommitOrImmediately` registers to run the deferred update tasks. -/
inductive Task
  | body (body : Body)
  | updates

structure Pending where
  id : ℕ
  task : Task

inductive Failure
  | thrown (error : ℕ)
  | wrongUoWPhase (currentPhase : Option Phase)
  | noActiveUnitOfWork
  deriving DecidableEq, Repr

inductive Entry
  | registered (id : ℕ) (slot : Slot) (phase : Option Phase) (closed : Bool)
  | ran (id : ℕ) (phase : Option Phase)
  | handler
  | threw
  | finished (phase : Phase)
  | errorHandled (id : ℕ) (error : Failure) (failedPhase : Option Phase)
  | completed (id : ℕ)
  deriving DecidableEq, Repr

structure State where
  phase : Option Phase
  closed : Bool
  phaseActions : Phase → List Pending
  errorHandlers : List Pending
  completeHandlers : List Pending
  updateTasks : Option (List (Option ℕ))
  next : ℕ
  log : List Entry

def State.current (s : State) : ℕ := phaseIndex s.phase

def State.note (s : State) (e : Entry) : State := {s with log := s.log ++ [e]}

/-- A freshly minted unit of work. -/
def unitOfWork : State where
  phase := none
  closed := false
  phaseActions := fun _ => []
  errorHandlers := []
  completeHandlers := []
  updateTasks := none
  next := 0
  log := []

/-- `on`, `onError` and `whenComplete`. -/
def State.register (s : State) (slot : Slot) (task : Task) : State :=
  let named : State := {s with
    next := s.next+1
    log := s.log ++ [.registered s.next slot s.phase s.closed]}
  match slot with
  | .on p =>
      {named with
        phaseActions := Function.update s.phaseActions p (s.phaseActions p ++ [⟨s.next,task⟩])}
  | .onError => {named with errorHandlers := s.errorHandlers ++ [⟨s.next,task⟩]}
  | .whenComplete => {named with completeHandlers := s.completeHandlers ++ [⟨s.next,task⟩]}

/-- A call either returns or throws; what it did to the unit of work stays. -/
inductive Result
  | done (state : State)
  | threw (error : Failure) (state : State)

def Result.state : Result → State
  | .done s => s
  | .threw _ s => s

def Result.andThen : Result → (State → Result) → Result
  | .done s, f => f s
  | .threw e s, _ => .threw e s

def throwing (throws : Option ℕ) (s : State) : Result :=
  match throws with
  | none => .done s
  | some e => .threw (.thrown e) s

def runAfterCommitOrImmediately (task : Option ℕ) (s : State) : Result :=
  if s.closed then throwing task s
  else
    match s.updateTasks with
    | none => .done {s.register (.on .afterCommit) .updates with updateTasks := some [task]}
    | some tasks => .done {s with updateTasks := some (tasks ++ [task])}

/-- The guard of `ctx.emitUpdate`. -/
def requireInvocation (s : State) : Result :=
  if s.closed then .threw .noActiveUnitOfWork s
  else if s.phase = some .invocation then .done s
  else .threw (.wrongUoWPhase s.phase) s

def perform : List Effect → State → Result
  | [], s => .done s
  | .register slot effects throws::es, s => perform es (s.register slot (.body ⟨effects,throws⟩))
  | .emitUpdate task::es, s =>
      ((requireInvocation s).andThen (runAfterCommitOrImmediately task)).andThen (perform es)

def Body.run (b : Body) (s : State) : Result :=
  (perform b.effects s).andThen (throwing b.throws)

/-- `for (const t of list) t()`. -/
def runUpdates : List (Option ℕ) → State → Result
  | [], s => .done s
  | task::tasks, s => (throwing task s).andThen (runUpdates tasks)

def Task.run (task : Task) (s : State) : Result :=
  match task with
  | .body b => b.run s
  | .updates => runUpdates (s.updateTasks.getD []) s

def Result.noteThrow : Result → Result
  | .done s => .done s
  | .threw e s => .threw e (s.note .threw)

/-- One phase action gets its turn. -/
def State.call (s : State) (a : Pending) : Result :=
  (a.task.run (s.note (.ran a.id s.phase))).noteThrow

def runBucket : List Pending → State → Result
  | [], s => .done s
  | a::as, s => (s.call a).andThen (runBucket as)

mutual
/-- The closures of a tree, counted: what bounds the rounds of the drain loops. -/
def Effect.weight : Effect → ℕ
  | .register _ es _ => effectsWeight es+1
  | .emitUpdate _ => 1

def effectsWeight : List Effect → ℕ
  | [] => 0
  | e::es => e.weight+effectsWeight es
end

def Task.weight : Task → ℕ
  | .body b => effectsWeight b.effects+1
  | .updates => 1

def pendingWeight (as : List Pending) : ℕ := (as.map fun a => a.task.weight).sum

def State.weight (s : State) : ℕ :=
  pendingWeight (s.phaseActions .preInvocation)+pendingWeight (s.phaseActions .invocation)+
    pendingWeight (s.phaseActions .prepareCommit)+pendingWeight (s.phaseActions .commit)+
    pendingWeight (s.phaseActions .afterCommit)

/-- The `while` loop: take the bucket, leave an empty one, run what was taken. -/
def drain (p : Phase) : ℕ → State → Result
  | 0, s => .done s
  | n+1, s =>
      if (s.phaseActions p).isEmpty then .done s
      else
        (runBucket (s.phaseActions p)
          {s with phaseActions := Function.update s.phaseActions p []}).andThen (drain p n)

/-- Set `phase` and drain its bucket. Every round runs at least one closure of
the pending trees, so their weight is enough fuel (`drain_empty`). -/
def drainPhase (p : Phase) (s : State) : Result := drain p s.weight {s with phase := some p}

def runPhase (p : Phase) (s : State) : Result :=
  (drainPhase p s).andThen fun t => .done (t.note (.finished p))

def callHandler (handler : Body) (s : State) : Result :=
  (handler.run (s.note .handler)).noteThrow

def drivePhases (handler : Body) (s : State) : Result :=
  (runPhase .preInvocation s).andThen fun s =>
  (drainPhase .invocation s).andThen fun s =>
  (callHandler handler s).andThen fun s =>
  (runPhase .prepareCommit s).andThen fun s =>
  (runPhase .commit s).andThen (runPhase .afterCommit)

/-- `for (const h of handlers)` over the live array: a handler registered while
the loop runs is reached too, and what a handler throws is caught. -/
def runHandlers (handlers : State → List Pending) (entry : ℕ → Entry) : ℕ → ℕ → State → State
  | 0, _, s => s
  | n+1, i, s =>
      match (handlers s)[i]? with
      | none => s
      | some h => runHandlers handlers entry n (i+1) (h.task.run (s.note (entry h.id))).state

def runErrorHandlers (error : Failure) (s : State) : State :=
  runHandlers State.errorHandlers (fun id => .errorHandled id error s.phase)
    (pendingWeight s.errorHandlers) 0 {s with closed := true}

def runCompleteHandlers (s : State) : State :=
  runHandlers State.completeHandlers .completed
    (pendingWeight s.completeHandlers) 0 {s with closed := true}

/-- What `execute` settles with, and the unit of work it leaves behind. -/
structure Outcome where
  rejected : Option Failure
  state : State

/-- A program: what is registered between minting and `execute`, and the handler. -/
structure Program where
  before : List (Slot × Body)
  handler : Body

def Program.minted (P : Program) : State :=
  P.before.foldl (fun s r => s.register r.1 (.body r.2)) unitOfWork

def settle : Result → Outcome
  | .done s => ⟨none,runCompleteHandlers s⟩
  | .threw e s => ⟨some e,runErrorHandlers e s⟩

def Program.execute (P : Program) : Outcome := settle (drivePhases P.handler P.minted)

end Kronos.UnitOfWork
