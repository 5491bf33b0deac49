import Kronos.Lib.OrderedMap
import Kronos.Lib.Slots
import Kronos.QueryHandling.UpdateHandler

/-!
# Subscription queries on the local query bus

The subscriptions of `localQueryBus` by their identifiers, each with its update
handler and its initial result, and the tasks that emit updates or complete
subscriptions: at once, or after the commit of a unit of work. A task walks over
the map while it changes it. It only removes the entry it stands on, so it visits
the entries there were when it began.

A filter that is a function may throw; then the task is over, and with it the
tasks of its unit of work that come after it. Beside the map every subscription
ever opened is kept, and the tasks that ran.
-/
namespace Kronos.QueryHandling.LocalQueryBus
open Kronos.Lib.OrderedMap Kronos.Lib.Slots Kronos.Lib.Transition
open UpdateHandler (Handler acceptedIn endedBy)

structure QueryMessage (I N P : Type) where
  identifier : I
  name : N
  payload : P
  deriving DecidableEq, Repr

/-- What `subscriptionInitialResult` settles with. -/
inductive Initial (ε : Type) where
  | pending
  | resolved
  | rejected (error : ε)
  /-- `Subscription query closed before initial result`. -/
  | closed
  deriving DecidableEq, Repr

def Initial.close {ε : Type} : Initial ε → Initial ε
  | .pending => .closed
  | settled => settled

inductive Failure (ε : Type) where
  /-- `Subscription query update buffer overflow`. -/
  | overflow
  | failed (error : ε)
  deriving DecidableEq, Repr

/-- A subscription, with how many tasks had run when it was opened and whether its `close`
was called. -/
structure Subscription (I N P α ε : Type) where
  query : QueryMessage I N P
  bufferSize : ℕ
  handler : Handler α (Failure ε)
  /-- There is none for `subscribeToUpdates`. -/
  initial : Option (Initial ε)
  since : ℕ
  closed : Bool
  deriving DecidableEq, Repr

inductive Kind (α ε : Type) where
  | emitUpdate (update : α)
  | completeSubscription
  | completeSubscriptionExceptionally (error : ε)
  deriving DecidableEq, Repr

/-- A task by the number of its call. Its filter is `applySubscriptionFilter`, which throws when it
gives nothing. -/
structure Task (N P α ε : Type) where
  number : ℕ
  queryName : N
  filter : Option (P → Option Bool)
  kind : Kind α ε

/-- A task that ran, and the subscription whose payload its filter threw at. -/
structure Ran (N P α ε : Type) where
  task : Task N P α ε
  thrownAt : Option ℕ

/-- A unit of work as `runAfterCommitOrImmediately` sees it. -/
structure Work (N P α ε : Type) where
  closed : Bool
  updateTasks : Option (List (Task N P α ε))
  /-- Its `onAfterCommit` callback ran. -/
  committed : Bool

structure Bus (I N P α ε : Type) where
  subscriptions : List (I × ℕ)
  opened : List (Subscription I N P α ε)
  works : List (Work N P α ε)
  ran : List (Ran N P α ε)
  /-- The unit of work each task was deferred to, if any. -/
  emitted : List (Option ℕ)

def localQueryBus (I N P α ε : Type) : Bus I N P α ε := ⟨[], [], [], [], []⟩

def maxSubscriptions : ℕ := 1024

variable {I N P α ε : Type} [DecidableEq I] [DecidableEq N]

/-- A call of the handler; an end closes the initial result too. -/
def Subscription.change (sub : Subscription I N P α ε)
    (f : Handler α (Failure ε) → Handler α (Failure ε)) :
    Subscription I N P α ε :=
  { sub with
    handler := f sub.handler
    initial :=
      if !sub.handler.completed && (f sub.handler).completed then sub.initial.map Initial.close
      else sub.initial }

namespace Bus
variable (s : Bus I N P α ε)

def remove (identifier : I) : Bus I N P α ε :=
  { s with subscriptions := delete identifier s.subscriptions }

/-- A call of the handler of `k`, whose `onClose` removes what is registered under its
identifier. -/
def change (k : ℕ) (f : Handler α (Failure ε) → Handler α (Failure ε)) : Bus I N P α ε :=
  match s.opened[k]? with
  | none => s
  | some sub =>
      let changed : Bus I N P α ε := { s with opened := s.opened.set k (sub.change f) }
      if !sub.handler.completed && (f sub.handler).completed then
        changed.remove sub.query.identifier else changed

end Bus

/-- Whether a task means a query: nothing when its filter throws. -/
def Task.asks (task : Task N P α ε) (query : QueryMessage I N P) : Option Bool :=
  if query.name ≠ task.queryName then some false
  else match task.filter with
    | none => some true
    | some filter => filter query.payload

def Kind.emits : Kind α ε → Bool
  | .emitUpdate _ => true
  | _ => false

namespace Bus
variable (s : Bus I N P α ε)

/-- What a task does to a subscription that it means. -/
def affect (kind : Kind α ε) (identifier : I) (k : ℕ) (sub : Subscription I N P α ε) :
    Bus I N P α ε :=
  match kind with
  | .emitUpdate update =>
      if (sub.handler.offer sub.bufferSize update).2 then s.change k fun handler =>
        (handler.offer sub.bufferSize update).1
      else (s.change k fun handler => handler.completeExceptionally .overflow).remove identifier
  | .completeSubscription => (s.change k Handler.complete).remove identifier
  | .completeSubscriptionExceptionally error =>
      (s.change k fun handler => handler.completeExceptionally (.failed error)).remove identifier

/-- One turn of the loop over the map; `false` when the filter throws. -/
def visit (task : Task N P α ε) (entry : I × ℕ) : Bus I N P α ε × Bool :=
  match s.opened[entry.2]? with
  | none => (s, true)
  | some sub =>
      if task.kind.emits && sub.handler.completed then (s.remove entry.1, true)
      else match task.asks sub.query with
        | none => (s, false)
        | some false => (s, true)
        | some true => (s.affect task.kind entry.1 entry.2 sub, true)

def loop (task : Task N P α ε) : List (I × ℕ) → Bus I N P α ε → Bus I N P α ε × Option ℕ
  | [], s => (s, none)
  | entry :: entries, s =>
      if (s.visit task entry).2 then loop task entries (s.visit task entry).1
      else ((s.visit task entry).1, some entry.2)

/-- A task runs; `false` when it throws. -/
def run (task : Task N P α ε) : Bus I N P α ε × Bool :=
  ({ (s.loop task s.subscriptions).1 with
    ran := (s.loop task s.subscriptions).1.ran ++ [⟨task, (s.loop task s.subscriptions).2⟩] },
    (s.loop task s.subscriptions).2.isNone)

/-- `for (const t of list) t()`. -/
def runTasks : List (Task N P α ε) → Bus I N P α ε → Bus I N P α ε × Bool
  | [], s => (s, true)
  | task :: tasks, s =>
      if (s.run task).2 then runTasks tasks (s.run task).1 else ((s.run task).1, false)

def setWork (w : ℕ) (work : Work N P α ε) : Bus I N P α ε := { s with works := s.works.set w work }

def emits (uow : Option ℕ) : Bus I N P α ε := { s with emitted := s.emitted ++ [uow] }

def runAfterCommitOrImmediately (task : Task N P α ε) : Option ℕ → Bus I N P α ε
  | none => ((s.emits none).run task).1
  | some w =>
      match s.works[w]? with
      | none => s
      | some work =>
          if work.closed then ((s.emits none).run task).1
          else (s.emits (some w)).setWork w { work with
            updateTasks := some (work.updateTasks.getD [] ++ [task]) }

/-- The `onAfterCommit` callback of the unit of work `w`; when a task throws, the unit of work fails
and is closed. -/
def afterCommit (w : ℕ) (work : Work N P α ε) (tasks : List (Task N P α ε)) : Bus I N P α ε :=
  (s.runTasks tasks).1.setWork w { work with committed := true, closed := !(s.runTasks tasks).2 }

/-- `subscriptionQuery`, and without an initial result `subscribeToUpdates`; it throws when
it gives nothing. -/
def register (query : QueryMessage I N P) (bufferSize : ℕ) (initial : Option (Initial ε)) :
    Option (Bus I N P α ε) :=
  if (get query.identifier s.subscriptions).isSome then none
  else if maxSubscriptions ≤ s.subscriptions.length then none
  else if bufferSize = 0 then none
  else some { s with
    subscriptions := set query.identifier s.opened.length s.subscriptions
    opened := s.opened ++ [⟨query, bufferSize, UpdateHandler.initial, initial, s.ran.length, false⟩] }

def close (k : ℕ) (sub : Subscription I N P α ε) : Bus I N P α ε :=
  ({ s with opened := s.opened.set k { sub with closed := true } }.remove
    sub.query.identifier).change k Handler.complete

/-- The query of a subscription is answered: with a value, or with the error that fails the
subscription too. -/
def answered (k : ℕ) (sub : Subscription I N P α ε) : Option ε → Bus I N P α ε
  | none => { s with opened := s.opened.set k { sub with initial := some .resolved } }
  | some error =>
      { s with opened := s.opened.set k { sub with initial := some (.rejected error) } }.change k
        fun handler => handler.completeExceptionally (.failed error)

end Bus

inductive Action (I N P α ε : Type) where
  | subscriptionQuery (query : QueryMessage I N P) (bufferSize : ℕ)
  | subscribeToUpdates (query : QueryMessage I N P) (bufferSize : ℕ)
  /-- The query of the subscription `k` settles, with the error it is rejected with. -/
  | answered (k : ℕ) (error : Option ε)
  /-- The consumer of `k` asks for the next update, or returns. -/
  | next (k : ℕ)
  | «return» (k : ℕ)
  | close (k : ℕ)
  /-- `emitUpdate`, `completeSubscription`, `completeSubscriptionExceptionally`. -/
  | emit (queryName : N) (filter : Option (P → Option Bool)) (kind : Kind α ε) (uow : Option ℕ)
  | unitOfWork
  | afterCommit (w : ℕ)
  /-- The unit of work is completed, or fails. -/
  | closes (w : ℕ)

def step (s : Bus I N P α ε) : Action I N P α ε → Option (Bus I N P α ε)
  | .subscriptionQuery query bufferSize => s.register query bufferSize (some .pending)
  | .subscribeToUpdates query bufferSize => s.register query bufferSize none
  | .answered k error =>
      s.opened[k]?.bind fun sub =>
        match sub.initial with
        | some .pending => some (s.answered k sub error)
        | some .closed => some s
        | _ => none
  | .next k => if s.opened[k]?.isSome then some (s.change k Handler.next) else none
  | .«return» k => if s.opened[k]?.isSome then some (s.change k Handler.returns) else none
  | .close k => s.opened[k]?.map fun sub => s.close k sub
  | .emit queryName filter kind uow =>
      if uow.all (· < s.works.length) then
        some (s.runAfterCommitOrImmediately ⟨s.emitted.length, queryName, filter, kind⟩ uow)
      else none
  | .unitOfWork => some { s with works := s.works ++ [⟨false, none, false⟩] }
  | .afterCommit w =>
      s.works[w]?.bind fun work =>
        if work.closed || work.committed then none else work.updateTasks.map fun tasks =>
          s.afterCommit w work tasks
  | .closes w => s.works[w]?.map fun work => s.setWork w { work with closed := true }

/-- A `close` that removes no subscription but its own. -/
def own (s : Bus I N P α ε) : Action I N P α ε → Bool
  | .close k => s.opened[k]?.all fun sub => (get sub.query.identifier s.subscriptions).all (· = k)
  | _ => true

end Kronos.QueryHandling.LocalQueryBus
