import Mathlib.Data.Int.Notation
import Kronos.Lib.Transition
import Kronos.EventSourcing.DcbQuery
import Kronos.UnitOfWork.Phases

/-!
# Handlers that carry their message's origin onto what they bear

A handler's context holds the verbs that give birth to messages; each makes a
message with exactly the metadata it is passed. `correlatingHandler` computes a
cargo from the handled message once for each invocation and wraps the verbs so
that the cargo lies under the caller's metadata. Commands and queries cross a
bus, on which `correlation` may be intercepted any number of times; appended and
scheduled events reach their handlers through a log, as they are.

A run interleaves handlings as it likes, several of them on one unit of work.
The payload's schema, the cached states an append evolves and the routing of a
message to its handler do not touch metadata and are left out.
-/
namespace Kronos.Correlation
open Kronos.EventSourcing Kronos.UnitOfWork

variable {P : Type}

/-- A metadata value; of anything but a string only the text `String` gives is kept. -/
inductive Value
  | undefined
  | null
  | string (text : String)
  | other (text : String)
  deriving DecidableEq, Repr

/-- `String(value)`. -/
def Value.text : Value → String
  | .undefined => "undefined"
  | .null => "null"
  | .string text => text
  | .other text => text

/-- `Record<string, unknown>`: the value under each key that is there. -/
abbrev Metadata := String → Option Value

def emptyMetadata : Metadata := fun _ => none

/-- Values of `override` take precedence. -/
def mergeMetadata (base override : Metadata) : Metadata :=
  fun key => (override key).or (base key)

def Metadata.set (metadata : Metadata) (key : String) (value : Value) : Metadata :=
  fun k => if k = key then some value else metadata k

/-- `String(metadata[key] ?? fallback)`: a missing key reads as `undefined`. -/
def Metadata.textOr (metadata : Metadata) (key fallback : String) : String :=
  match metadata key with
  | none => fallback
  | some .undefined => fallback
  | some .null => fallback
  | some value => value.text

inductive MessageKind
  | command
  | event
  | query
  deriving DecidableEq, Repr

/-- `version` and `tags` are an event's. -/
structure Message (P : Type) where
  kind : MessageKind
  identifier : String
  name : QualifiedName
  version : Option String
  payload : P
  metadata : Metadata
  timestamp : Option ℤ
  tags : List Tag

def withInstant (message : Message P) (instant : ℤ) : Message P :=
  match message.timestamp with
  | none => { message with timestamp := some instant }
  | some _ => message

/-- The interceptor that seeds a root and clobbers nothing. -/
def correlation (message : Message P) : Message P :=
  { message with
    metadata := (message.metadata.set "correlationId"
        (.string (message.metadata.textOr "correlationId" message.identifier))).set "causationId"
        (.string (message.metadata.textOr "causationId" message.identifier)) }

/-- The standard cargo. -/
def messageOrigin (parent : Message P) : Metadata :=
  let origin := (emptyMetadata.set "correlationId"
    (.string (parent.metadata.textOr "correlationId" parent.identifier))).set "causationId"
    (.string parent.identifier)
  match parent.metadata "traceparent" with
  | some (.string traceparent) => origin.set "traceparent" (.string traceparent)
  | _ => origin

/-- What survives a wire: every value as its text. -/
def stringly (metadata : Metadata) : Metadata :=
  fun key => (metadata key).map fun value => .string value.text

/-! ## Buses, by the message they hand their handler -/

abbrev Bus (P : Type) := Message P → Message P

/-- `localCommandBus` and `localQueryBus`: the task settles a missing instant. -/
def localBus (now : ℤ) : Bus P := fun message => withInstant message now

/-- `interceptingCommandBus` and `interceptingQueryBus`. -/
def interceptingBus (next : Bus P) (intercept : Message P → Message P) : Bus P :=
  fun message => next (intercept message)

/-- A bus intercepted by `correlation` `n` times over. -/
def correlatedBus (bus : Bus P) : ℕ → Bus P
  | 0 => bus
  | n+1 => interceptingBus (correlatedBus bus n) correlation

/-! ## The verbs -/

/-- A unit of work as the verbs read it. -/
structure Task where
  closed : Bool
  phase : Option Phase
  now : ℤ
  deriving DecidableEq, Repr

inductive VerbError
  | noActiveUnitOfWork
  | wrongUoWPhase (phase : Option Phase)
  | noCommandBus
  | noQueryBus
  | needsScheduling (call : String)
  | invalidDate
  | invalidDelay
  | notAFunction
  deriving DecidableEq, Repr

def requireInvocation (task : Task) : Except VerbError Unit :=
  if task.closed then .error .noActiveUnitOfWork
  else if task.phase = some .invocation then .ok ()
  else .error (.wrongUoWPhase task.phase)

/-- What an entry was wired with. -/
structure Deps where
  task : Task
  commandBus : Bool
  queryBus : Bool
  scheduling : Bool

/-- `tagsOf` is the descriptor's own tag record, applied. -/
structure Descriptor (P : Type) where
  name : QualifiedName
  version : String
  tagsOf : P → Metadata → List Tag

/-- What a verb gives birth to, with the identifiers `generateIdentifier` hands out. -/
abbrev Births (P : Type) := (ℕ → String) → Except VerbError (List (Message P))

def eventMessage (identifier : String) (event : Descriptor P) (payload : P) (metadata : Metadata)
    (now : ℤ) : Message P :=
  ⟨.event, identifier, event.name, some event.version, payload, metadata, some now,
    event.tagsOf payload metadata⟩

def sendFunction (deps : Deps) (descriptor : Descriptor P) (payload : P)
    (metadata : Option Metadata) : Births P := fun identifiers => do
  requireInvocation deps.task
  if deps.commandBus then
    return [⟨.command, identifiers 0, descriptor.name, none, payload,
      metadata.getD emptyMetadata, some deps.task.now, []⟩]
  else throw .noCommandBus

def queryFunction (deps : Deps) (descriptor : Descriptor P) (payload : P)
    (metadata : Option Metadata) : Births P := fun identifiers => do
  requireInvocation deps.task
  if deps.queryBus then
    return [⟨.query, identifiers 0, descriptor.name, none, payload,
      metadata.getD emptyMetadata, some deps.task.now, []⟩]
  else throw .noQueryBus

/-- `append` takes one event or a list of entries with metadata of their own. -/
inductive AppendArgs (P : Type)
  | single (event : Descriptor P) (payload : P) (metadata : Option Metadata)
  | batch (entries : List (Descriptor P × P × Option Metadata))

def appendOne (deps : Deps) (identifier : String) (event : Descriptor P) (payload : P)
    (metadata : Option Metadata) : Except VerbError (Message P) := do
  requireInvocation deps.task
  return eventMessage identifier event payload (metadata.getD emptyMetadata) deps.task.now

def appendFunction (deps : Deps) : AppendArgs P → Births P
  | .single event payload metadata => fun identifiers => do
      return [← appendOne deps (identifiers 0) event payload metadata]
  | .batch entries => fun identifiers =>
      (entries.zipIdx).mapM fun entry =>
        appendOne deps (identifiers entry.2) entry.1.1 entry.1.2.1 entry.1.2.2

/-- `at`: a date in milliseconds, `none` when it is no valid `Date`. -/
def schedule (deps : Deps) (event : Descriptor P) (payload : P) (date : Option ℤ)
    (metadata : Option Metadata) : Births P := fun identifiers => do
  requireInvocation deps.task
  if deps.scheduling then
    match date with
    | none => throw .invalidDate
    | some _ => return [eventMessage (identifiers 0) event payload
        (metadata.getD emptyMetadata) deps.task.now]
  else throw (.needsScheduling "ctx.schedule(…)")

/-- `new Date(ms)`, invalid beyond the range of dates. -/
def newDate (ms : ℤ) : Option ℤ :=
  if ms.natAbs ≤ 8640000000000000 then some ms else none

/-- `delayMs` is `none` when it is not finite. -/
def scheduleAfter (deps : Deps) (event : Descriptor P) (payload : P) (delayMs : Option ℤ)
    (metadata : Option Metadata) : Births P :=
  match delayMs with
  | none => fun _ => throw .invalidDelay
  | some delayMs => schedule deps event payload (newDate (deps.task.now + delayMs)) metadata

/-- The birth verbs of a context; a kind of handler may lack some. -/
structure Context (P : Type) where
  send : Option (Descriptor P → P → Option Metadata → Births P)
  query : Option (Descriptor P → P → Option Metadata → Births P)
  append : Option (AppendArgs P → Births P)
  schedule : Option (Descriptor P → P → Option ℤ → Option Metadata → Births P)
  scheduleAfter : Option (Descriptor P → P → Option ℤ → Option Metadata → Births P)

def eventHandlerContext (deps : Deps) : Context P :=
  ⟨some (sendFunction deps), some (queryFunction deps), none, some (Correlation.schedule deps),
    some (Correlation.scheduleAfter deps)⟩

def commandHandlerContext (deps : Deps) : Context P :=
  { eventHandlerContext deps with append := some (appendFunction deps) }

def queryHandlerContext (deps : Deps) : Context P :=
  ⟨none, some (queryFunction deps), none, none, none⟩

def contextOf (kind : MessageKind) (deps : Deps) : Context P :=
  match kind with
  | .command => commandHandlerContext deps
  | .event => eventHandlerContext deps
  | .query => queryHandlerContext deps

def overlay (cargo : Metadata) (provided : Option Metadata) : Option Metadata :=
  some (mergeMetadata cargo (provided.getD emptyMetadata))

/-- The context with the verbs it has laid over the cargo. -/
def overlaid (context : Context P) (cargo : Metadata) : Context P where
  send := context.send.map fun send descriptor payload metadata =>
    send descriptor payload (overlay cargo metadata)
  query := context.query.map fun query descriptor payload metadata =>
    query descriptor payload (overlay cargo metadata)
  append := context.append.map fun append args =>
    match args with
    | .single event payload metadata => append (.single event payload (overlay cargo metadata))
    | .batch entries => append (.batch
        (entries.map fun entry => (entry.1, entry.2.1, overlay cargo entry.2.2)))
  schedule := context.schedule.map fun schedule descriptor payload date metadata =>
    schedule descriptor payload date (overlay cargo metadata)
  scheduleAfter :=
    context.scheduleAfter.map fun scheduleAfter descriptor payload delayMs metadata =>
    scheduleAfter descriptor payload delayMs (overlay cargo metadata)

/-- One call a handler makes. -/
inductive Verb (P : Type)
  | send (descriptor : Descriptor P) (payload : P) (metadata : Option Metadata)
  | query (descriptor : Descriptor P) (payload : P) (metadata : Option Metadata)
  | append (args : AppendArgs P)
  | schedule (event : Descriptor P) (payload : P) (date : Option ℤ) (metadata : Option Metadata)
  | scheduleAfter (event : Descriptor P) (payload : P) (delayMs : Option ℤ)
      (metadata : Option Metadata)

/-- A verb the context does not have. -/
def missing : Births P := fun _ => .error .notAFunction

def Verb.call (context : Context P) : Verb P → Births P
  | .send descriptor payload metadata =>
      (context.send.map fun verb => verb descriptor payload metadata).getD missing
  | .query descriptor payload metadata =>
      (context.query.map fun verb => verb descriptor payload metadata).getD missing
  | .append args => (context.append.map fun verb => verb args).getD missing
  | .schedule event payload date metadata =>
      (context.schedule.map fun verb => verb event payload date metadata).getD missing
  | .scheduleAfter event payload delayMs metadata =>
      (context.scheduleAfter.map fun verb => verb event payload delayMs metadata).getD missing

/-! ## Runs -/

/-- A message of the tree; `parent` is the message whose handling bore it. -/
structure Node (P : Type) where
  message : Message P
  parent : Option ℕ

/-- One invocation of a wrapped handler, with the cargo in its closure. -/
structure Handling (P : Type) where
  node : ℕ
  kind : MessageKind
  task : ℕ
  commandBus : Bool
  queryBus : Bool
  scheduling : Bool
  cargo : Metadata

structure World (P : Type) where
  tasks : List Task
  nodes : List (Node P)
  handlings : List (Handling P)

def World.initial : World P := ⟨[], [], []⟩

/-- `handle` invokes a wrapped handler on a message of the world, on a unit of
work other handlings may share; `call` is a verb of one of the handlings. -/
inductive Action (P : Type)
  | task (task : Task)
  | advance (task : ℕ) (phase : Option Phase) (closed : Bool)
  | root (message : Message P)
  | handle (node task interceptions : ℕ) (commandBus queryBus scheduling : Bool)
  | call (handling : ℕ) (verb : Verb P) (identifiers : ℕ → String)

/-- The message a handler is given: events come from the log, untouched. -/
def delivered (now : ℤ) (interceptions : ℕ) (message : Message P) : Message P :=
  match message.kind with
  | .event => message
  | .command => correlatedBus (localBus now) interceptions message
  | .query => correlatedBus (localBus now) interceptions message

/-- The context a wrapped handler sees in one of its invocations. -/
def Handling.context (handling : Handling P) (task : Task) : Context P :=
  overlaid (contextOf handling.kind
    ⟨task, handling.commandBus, handling.queryBus, handling.scheduling⟩) handling.cargo

def step (world : World P) : Action P → Option (World P)
  | .task task => some { world with tasks := world.tasks ++ [task] }
  | .advance i phase closed => do
      let task ← world.tasks[i]?
      some { world with tasks := world.tasks.set i { task with phase := phase, closed := closed } }
  | .root message => some { world with nodes := world.nodes ++ [⟨message, none⟩] }
  | .handle i t interceptions commandBus queryBus scheduling => do
      let node ← world.nodes[i]?
      let task ← world.tasks[t]?
      let message := delivered task.now interceptions node.message
      some { world with handlings := world.handlings ++ [⟨i, message.kind, t, commandBus, queryBus,
        scheduling, stringly (messageOrigin message)⟩] }
  | .call h verb identifiers => do
      let handling ← world.handlings[h]?
      let task ← world.tasks[handling.task]?
      match verb.call (handling.context task) identifiers with
      | .error _ => some world
      | .ok births => some { world with
          nodes := world.nodes ++ births.map fun message => ⟨message, some handling.node⟩ }

end Kronos.Correlation
