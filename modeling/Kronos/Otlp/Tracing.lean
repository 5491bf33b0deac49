import Kronos.Otlp.Traceparent

/-!
# One trace across buses and handlers

A handler wrapped in `otlpHandler` opens a span, stamps it onto the message it
handles, and gets a context whose operations are child spans. `ctx.send` and
`ctx.query` open a span of their own and put it on the outgoing message; a traced
bus opens one below it and replaces it; the handler that receives the message
reads the last one. So the trace goes from process to process as a text in the
metadata, and each process has an exporter of its own.

What a handler does is a tree of acts. A span is over when all under it is; a
handler that failed has no `commit` span. `sample` decides at the root of a trace
and nowhere else. Ids come from two streams, one number for each span opened.

Metrics are not modelled here, and neither are the attributes of a span.
-/
namespace Kronos.Otlp.Tracing
open Lib.Utf8 (Str)
open Lib.JsonText (ascii)

variable {X : Type}

inductive MessageKind where
  | command
  | query
  | event
  deriving DecidableEq

inductive SpanKind where
  | internal
  | server
  | client
  | producer
  | consumer
  deriving DecidableEq

structure SpanRecord (X : Type) where
  exporter : X
  traceId : Str
  spanId : Str
  parentSpanId : Option Str
  name : Str
  kind : SpanKind
  links : List (Str × Str)
  failed : Bool

/-- The exporters, one for each process, and where ids come from. No exporter is closed while a
message is handled: each is closed throughout or open throughout. -/
structure Telemetry (X : Type) where
  closed : X → Bool
  sample : X → Str → Bool
  traceId : ℕ → Str
  spanId : ℕ → Str

/-- A span that was started; an inert one records nothing. -/
structure Span where
  context : TraceContext
  recording : Bool

/-! ## What a handler does -/

/-- Whose scope: the handler's, or that of the `trace.run` around the act. -/
inductive Place where
  | handler
  | innermost

/-- What the metadata of an outgoing message are made from: nothing, those of the message being
handled, or the traceparent of the scope around the act. -/
inductive Carried where
  | nothing
  | handled
  | innermost

inductive Step (X : Type) where
  /-- `trace.span`, `ctx.load` or `ctx.source`: timed, without a scope of its own. -/
  | span (place : Place) (name : Str)
  | run (place : Place) (name : Str)
  /-- `ctx.send` or `ctx.query`, through a traced bus or another, to a handler that is or is not
  in a task; `commit` says how that ended. -/
  | send (query : Bool) (name : Str) (carried : Carried) (bus : Option X) (receiver : X)
      (commit : Option Bool)

inductive Act (X : Type) where
  | node (step : Step X) (failed : Bool) (under : List (Act X))

structure Scope (X : Type) where
  exporter : X
  context : TraceContext
  innermost : TraceContext
  metadata : Metadata

namespace Scope

variable (scope : Scope X)

def at_ : Place → TraceContext
  | .handler => scope.context
  | .innermost => scope.innermost

def outgoing : Carried → Metadata
  | .nothing => []
  | .handled => scope.metadata
  | .innermost => withTraceparent [] scope.innermost

end Scope

namespace Telemetry

variable (t : Telemetry X)

def startSpan (x : X) (parent : Option TraceContext) (n : ℕ) : Span :=
  let trace := (parent.map (·.traceId)).getD (t.traceId n)
  let sampled := match parent with
    | some parent => parent.recorded
    | none => t.sample x trace
  if t.closed x then ⟨⟨trace, t.spanId n, some false⟩, false⟩
  else if sampled then ⟨⟨trace, t.spanId n, some true⟩, true⟩
  else ⟨⟨trace, t.spanId n, some false⟩, false⟩

/-- The record of a span that is over. -/
def finish (x : X) (span : Span) (parent : Option TraceContext) (name : Str) (kind : SpanKind)
    (links : List TraceContext) (failed : Bool) : List (SpanRecord X) :=
  if span.recording then
    [⟨x, span.context.traceId, span.context.spanId, parent.map (·.spanId), name, kind,
      links.map fun link => (link.traceId, link.spanId), failed⟩]
  else []

/-! ## Handling a message -/

def handlerSpanKind : MessageKind → SpanKind
  | .query => .server
  | _ => .consumer

def parentOf (kind : MessageKind) (metadata : Metadata) : Option TraceContext :=
  if kind = .event then none else traceparentOf metadata

def linksOf (kind : MessageKind) (metadata : Metadata) : List TraceContext :=
  if kind = .event then (traceparentOf metadata).toList else []

def handlerScope (x : X) (span : Span) (metadata : Metadata) : Scope X :=
  ⟨x, span.context, span.context, withTraceparent metadata span.context⟩

/-- The spans that end after the handler has returned or thrown: its own, and that of its task. -/
def settle (x : X) (span : Span) (kind : MessageKind) (name : Str) (metadata : Metadata)
    (failed : Bool) (commit : Option Bool) (m : ℕ) : List (SpanRecord X) × ℕ :=
  let own :=
    finish x span (parentOf kind metadata) name (handlerSpanKind kind)
    (linksOf kind metadata) failed
  match failed, commit with
  | false, some aborted =>
      let commit := t.startSpan x (some span.context) m
      (own ++ finish x commit (some span.context) (ascii "commit") .internal [] aborted, m + 1)
  | _, _ => (own, m)

/-- A part of the work: the number of the next span before it, its records, and the number
after it. -/
abbrev Work (X : Type) := ℕ → List (SpanRecord X) × ℕ

/-- `next` is the handler, in the scope of its span. -/
def otlpHandler (next : Scope X → Work X) (x : X) (kind : MessageKind) (name : Str) (failed : Bool)
    (commit : Option Bool) (metadata : Metadata) : Work X := fun n =>
  let span := t.startSpan x (parentOf kind metadata) n
  let (inner, m) := next (handlerScope x span metadata) (n + 1)
  let (settled, m) := t.settle x span kind name metadata failed commit m
  (inner ++ settled, m)

/-- `next` is the bus behind, which hands the message to its handler. -/
def otlpBus (next : Metadata → Work X) (x : X) (query : Bool) (name : Str) (failed : Bool)
    (metadata : Metadata) :
    Work X := fun n =>
  let parent := traceparentOf metadata
  let span := t.startSpan x parent n
  let (inner, m) := next (withTraceparent metadata span.context) (n + 1)
  let spanName := (if query then ascii "query(" else ascii "dispatch(") ++ name ++ ascii ")"
  (inner ++ finish x span parent spanName (if query then .client else .producer) [] failed, m)

/-- `ctx.send` and `ctx.query`. -/
def operation (next : Metadata → Work X) (scope : Scope X) (query : Bool) (failed : Bool)
    (metadata : Metadata) :
    Work X := fun n =>
  let parent := (traceparentOf metadata).getD scope.context
  let span := t.startSpan scope.exporter (some parent) n
  let (inner, m) := next (withTraceparent metadata span.context) (n + 1)
  let spanName := if query then ascii "ctx.query" else ascii "ctx.send"
  (inner ++ finish scope.exporter span (some parent) spanName .internal [] failed, m)

/-- `trace.span` and `trace.run`; `next` is given the context of the span. -/
def timed (next : TraceContext → Work X) (scope : Scope X) (place : Place) (name : Str)
    (failed : Bool) : Work X :=
  fun n =>
    let parent := scope.at_ place
    let span := t.startSpan scope.exporter (some parent) n
    let (inner, m) := next span.context (n + 1)
    (inner ++ finish scope.exporter span (some parent) name .internal [] failed, m)

mutual
def perform (scope : Scope X) : Act X → Work X
  | .node (.span place name) failed under =>
      t.timed (fun _ => performAll scope under) scope place name failed
  | .node (.run place name) failed under =>
      t.timed (fun context => performAll { scope with innermost := context } under) scope place
        name failed
  | .node (.send query name carried bus receiver commit) failed under =>
      let kind := if query then .query else .command
      let handler :=
        t.otlpHandler (fun scope => performAll scope under) receiver kind name failed commit
      let dispatch := match bus with
        | none => handler
        | some x => t.otlpBus handler x query name failed
      t.operation dispatch scope query failed (scope.outgoing carried)

/-- One act after the other. -/
def performAll (scope : Scope X) : List (Act X) → Work X
  | [] => fun n => ([], n)
  | act :: acts => fun n =>
      let (out, m) := perform scope act n
      let (rest, k) := performAll scope acts m
      (out ++ rest, k)
end

/-- A message is handled, on its way in from wherever it came. -/
def handle (x : X) (kind : MessageKind) (name : Str) (failed : Bool) (commit : Option Bool)
    (acts : List (Act X)) (metadata : Metadata) : Work X :=
  t.otlpHandler (fun scope => t.performAll scope acts) x kind name failed commit metadata

end Telemetry

end Kronos.Otlp.Tracing
