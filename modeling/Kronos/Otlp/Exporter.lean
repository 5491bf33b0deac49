import Mathlib.Data.List.Sort
import Kronos.Lib.Binary64
import Kronos.Lib.JsonText
import Kronos.Lib.OrderedMap
import Kronos.Lib.Transition

/-!
# The OTLP exporter

Spans and log records wait in two bounded buffers, counters in a map of series.
`flush` chains `doFlush` on the promise `pending`: it counts what was dropped
into a counter of its own, takes all three batches at once, and posts them one
after another.

An action is a call of the host, the turn of the next flush in the chain, or the
end of a post with what `onExportError` did there. Only the first link of the
chain that has not settled can run, so the chain is kept as what has settled,
what runs and what waits. A span or log record is numbered when it is accepted.
Of a histogram only the count is kept.
-/
namespace Kronos.Otlp.Exporter
open Kronos.Lib
open Utf8 (Str)
open JsonText (Tree ascii)

inductive Signal where
  | traces
  | logs
  | metrics
  deriving DecidableEq, Repr

def Signal.text : Signal → Str
  | .traces => ascii "traces"
  | .logs => ascii "logs"
  | .metrics => ascii "metrics"

/-- A number is a finite double; `none` is `NaN` or an infinity, which JSON writes as `null`. -/
inductive AttributeValue where
  | string (s : Str)
  | number (x : Option NumberText.Finite)
  | boolean (b : Bool)

def AttributeValue.tree : AttributeValue → Tree
  | .string s => .string s
  | .number none => .null
  | .number (some x) => .number x
  | .boolean b => .boolean b

abbrev Attributes := List (Str × AttributeValue)

def Before (a b : Str × AttributeValue) : Prop := a.1 ≤ b.1

instance : DecidableRel Before := fun a b => inferInstanceAs (Decidable (a.1 ≤ b.1))

/-- Instrument identity: same name, unit and attribute set. -/
def seriesKey (name unit : Str) (attributes : Attributes) : Str :=
  JsonText.text (.array [.string name, .string unit,
    .array ((attributes.insertionSort Before).map fun entry =>
      .array [.string entry.1, entry.2.tree])])

/-- The value of a counter is a whole number. -/
structure Measurement where
  name : Str
  value : ℤ
  unit : Option Str
  description : Option Str
  attributes : Attributes

structure SumSeries where
  name : Str
  unit : Str
  description : Option Str
  attributes : Attributes
  value : ℤ

namespace Measurement

def unitOf (m : Measurement) : Str := m.unit.getD (ascii "1")

def key (m : Measurement) : Str := seriesKey m.name m.unitOf m.attributes

/-- The series that a first addition opens. -/
def series (m : Measurement) : SumSeries where
  name := m.name
  unit := m.unitOf
  description := m.description.filter (· ≠ [])
  attributes := m.attributes
  value := m.value

end Measurement

/-- The series every dropped record is counted into, by signal. -/
def DROPPED : Str := ascii "kronos.otlp.dropped"

def droppedMeasurement (signal : Signal) (count : ℕ) : Measurement where
  name := DROPPED
  value := count
  unit := some (ascii "1")
  description := some (ascii "Records dropped because the exporter's buffer was full")
  attributes := [(ascii "signal", .string signal.text)]

def droppedKey (signal : Signal) : Str := (droppedMeasurement signal 0).key

structure Options where
  maxBufferedSpans : ℕ
  maxBufferedLogs : ℕ
  maxSeriesPerMetric : ℕ
  metrics : Bool
  /-- Whether the host gave a function. -/
  onExportError : Bool
  deriving DecidableEq, Repr

structure Dropped where
  traces : ℕ
  logs : ℕ
  metrics : ℕ
  deriving DecidableEq, Repr

def Dropped.of (d : Dropped) : Signal → ℕ
  | .traces => d.traces
  | .logs => d.logs
  | .metrics => d.metrics

def Dropped.reset (d : Dropped) : Signal → Dropped
  | .traces => { d with traces := 0 }
  | .logs => { d with logs := 0 }
  | .metrics => { d with metrics := 0 }

/-- A span or log record, of which only the signal matters, with its number. -/
structure Record (B : Type) where
  signal : Signal
  serial : ℕ
  body : B
  deriving DecidableEq, Repr

/-- What happened since metrics were last drained: bookkeeping, which the code does not keep. -/
structure Window (B : Type) where
  /-- The additions of the host that went into a series. -/
  added : List (Str × ℤ)
  lost : List (Record B)
  /-- How many measurements found no room for their series. -/
  refused : ℕ
  deriving DecidableEq, Repr

def Window.empty (B : Type) : Window B := ⟨[], [], 0⟩

inductive Batch (B : Type) where
  | traces (records : List (Record B))
  | logs (records : List (Record B))
  | metrics (sums : List (Str × SumSeries)) (histograms : List (Str × ℕ)) (window : Window B)

/-- How many records and additions there had been when `flush` was called. -/
structure Call where
  records : ℕ
  additions : ℕ
  deriving DecidableEq, Repr

structure Settled extends Call where
  resolved : Bool
  deriving DecidableEq, Repr

structure State (B : Type) where
  spans : List (Record B)
  logs : List (Record B)
  sums : List (Str × SumSeries)
  histograms : List (Str × ℕ)
  dropped : Dropped
  seriesPerMetric : List (Str × ℕ)
  reportedUnbounded : List Str
  closed : Bool
  /-- The spans that record and have not ended. -/
  openSpans : List ℕ
  nextSpan : ℕ
  settled : List Settled
  /-- The flush that runs, and the batches it has still to post after the one it is posting. -/
  running : Option (Call × List (Batch B))
  waiting : List Call
  /-- From here on bookkeeping: what was accepted, what each post was given, every addition
  of the host. -/
  nextSerial : ℕ
  accepted : List (Record B)
  exports : List (Batch B)
  window : Window B
  given : List (Str × ℤ)
  refusedCounters : List Str
  /-- A call of the host threw what `onExportError` had thrown. -/
  threw : Bool

def initial (B : Type) : State B where
  spans := []
  logs := []
  sums := []
  histograms := []
  dropped := ⟨0, 0, 0⟩
  seriesPerMetric := []
  reportedUnbounded := []
  closed := false
  openSpans := []
  nextSpan := 0
  settled := []
  running := none
  waiting := []
  nextSerial := 0
  accepted := []
  exports := []
  window := .empty B
  given := []
  refusedCounters := []
  threw := false

/-- How a post ends: a response that is `ok`, one that is not, or an error on the way. -/
inductive PostOutcome where
  | ok
  | notOk
  | failed
  deriving DecidableEq, Repr

inductive Action (B : Type) where
  | startSpan (sampled : Bool)
  | endSpan (span : ℕ) (body : B)
  /-- `encodes`: the time is a number and the level one of the four. -/
  | emitLog (body : B) (encodes : Bool)
  /-- `throws`: what `onExportError` does if it is told. -/
  | addCount (m : Measurement) (throws : Bool)
  | recordHistogram (m : Measurement) (throws : Bool)
  /-- A call of the host, or of the timer as long as the exporter is not closed. -/
  | flush
  | close
  | startFlush
  /-- `throws`: whether the first and the second call of `onExportError` in this post throw. -/
  | postEnds (outcome : PostOutcome) (throws : Bool × Bool)

/-! ## Buffers -/

section Buffers

variable {B : Type} (max : ℕ) (buffer : List (Record B))

/-- `shift` once the buffer is full. -/
def shifted : List (Record B) := if max ≤ buffer.length then buffer.tail else buffer

def lost : List (Record B) := if max ≤ buffer.length then buffer.head?.toList else []

def overflow : ℕ := if max ≤ buffer.length then 1 else 0

end Buffers

namespace State

variable {B : Type} (options : Options) (s : State B)

def makeRoomForSpan : State B :=
  { s with
    spans := shifted options.maxBufferedSpans s.spans
    dropped :=
      { s.dropped with traces := s.dropped.traces + overflow options.maxBufferedSpans s.spans }
    window := { s.window with lost := s.window.lost ++ lost options.maxBufferedSpans s.spans } }

def makeRoomForLog : State B :=
  { s with
    logs := shifted options.maxBufferedLogs s.logs
    dropped := { s.dropped with logs := s.dropped.logs + overflow options.maxBufferedLogs s.logs }
    window := { s.window with lost := s.window.lost ++ lost options.maxBufferedLogs s.logs } }

def pushSpan (body : B) : State B :=
  { s with
    spans := s.spans ++ [⟨.traces, s.nextSerial, body⟩]
    nextSerial := s.nextSerial + 1
    accepted := s.accepted ++ [⟨.traces, s.nextSerial, body⟩] }

def pushLog (body : B) : State B :=
  { s with
    logs := s.logs ++ [⟨.logs, s.nextSerial, body⟩]
    nextSerial := s.nextSerial + 1
    accepted := s.accepted ++ [⟨.logs, s.nextSerial, body⟩] }

/-- After `close`, and under an unsampled trace, a span is inert. -/
def startSpan (sampled : Bool) : State B :=
  if s.closed || !sampled then s
  else { s with openSpans := s.openSpans ++ [s.nextSpan], nextSpan := s.nextSpan + 1 }

/-- `finish`: a span ends once. -/
def endSpan (span : ℕ) (body : B) : State B :=
  if span ∉ s.openSpans then s
  else
    let s := { s with openSpans := s.openSpans.filter (· ≠ span) }
    if s.closed then s else (s.makeRoomForSpan options).pushSpan body

/-- A record that cannot be encoded throws, after room was made for it. -/
def emitLog (body : B) (encodes : Bool) : State B :=
  if s.closed then s
  else if encodes then (s.makeRoomForLog options).pushLog body else s.makeRoomForLog options

/-! ## Counters -/

/-- May a new series be opened for `name`? The first refusal of a name is reported. -/
def admitSeries (name : Str) (throws : Bool) : Bool × State B :=
  if name = DROPPED then (true, s)
  else
    let seen := (OrderedMap.get name s.seriesPerMetric).getD 0
    if options.maxSeriesPerMetric ≤ seen then
      let s :=
        { s with
          dropped := { s.dropped with metrics := s.dropped.metrics + 1 }
          window := { s.window with refused := s.window.refused + 1 } }
      if name ∈ s.reportedUnbounded then (false, s)
      else
        (false, { s with
          reportedUnbounded := s.reportedUnbounded ++ [name]
          threw := s.threw || options.onExportError && throws })
    else (true, { s with seriesPerMetric := OrderedMap.set name (seen + 1) s.seriesPerMetric })

/-- Whether the addition went into a series, beside the state. -/
def addCount (m : Measurement) (throws : Bool) : Bool × State B :=
  if !options.metrics then (false, s)
  else
    match OrderedMap.get m.key s.sums with
    | some series =>
        let value := Binary64.add series.value m.value
        (true, { s with sums := OrderedMap.set m.key { series with value := value } s.sums })
    | none =>
        let (admitted, s) := s.admitSeries options m.name throws
        if admitted then (true, { s with sums := OrderedMap.set m.key m.series s.sums })
        else (false, s)

/-- A call of the host, written down. -/
def noteAddition (key : Str) (value : ℤ) (taken : Bool) : State B :=
  { s with
    given := s.given ++ [(key, value)]
    window := { s.window with added := s.window.added ++ if taken then [(key, value)] else [] }
    refusedCounters := s.refusedCounters ++ if taken then [] else [key] }

def recordHistogram (m : Measurement) (throws : Bool) : State B :=
  if !options.metrics then s
  else
    match OrderedMap.get m.key s.histograms with
    | some count => { s with histograms := OrderedMap.set m.key (count + 1) s.histograms }
    | none =>
        let (admitted, s) := s.admitSeries options m.name throws
        if admitted then { s with histograms := OrderedMap.set m.key 1 s.histograms } else s

/-! ## Flushes -/

def accountSignal (signal : Signal) : State B :=
  if s.dropped.of signal = 0 then s
  else
    let s := (s.addCount options (droppedMeasurement signal (s.dropped.of signal)) false).2
    { s with dropped := s.dropped.reset signal }

def accountDropped : State B :=
  ((s.accountSignal options .traces).accountSignal options .logs).accountSignal options .metrics

def drainSpans : Option (Batch B) × State B :=
  if s.spans = [] then (none, s) else (some (.traces s.spans), { s with spans := [] })

def drainLogs : Option (Batch B) × State B :=
  if s.logs = [] then (none, s) else (some (.logs s.logs), { s with logs := [] })

def drainMetrics : Option (Batch B) × State B :=
  if s.sums = [] ∧ s.histograms = [] then (none, s)
  else
    (some (.metrics s.sums s.histograms s.window), { s with
      sums := []
      histograms := []
      seriesPerMetric := []
      window := .empty B })

/-- The part of `doFlush` before its first post: the batches and what is left. -/
def drain : List (Batch B) × State B :=
  let s := s.accountDropped options
  let (traces, s) := s.drainSpans
  let (logs, s) := s.drainLogs
  let (metrics, s) := s.drainMetrics
  (traces.toList ++ logs.toList ++ metrics.toList, s)

def settle (call : Call) (resolved : Bool) : State B :=
  { s with running := none, settled := s.settled ++ [{ call with resolved := resolved }] }

/-- `doFlush` posts its next batch, or is done. -/
def postNext (call : Call) (batches : List (Batch B)) : State B :=
  match batches with
  | [] => s.settle call true
  | batch::rest => { s with exports := s.exports ++ [batch], running := some (call, rest) }

def flush : State B := { s with waiting := s.waiting ++ [⟨s.nextSerial, s.given.length⟩] }

/-- The promise `pending` was rejected at some link. -/
def pendingRejected : Bool := s.settled.any fun flush => !flush.resolved

/-- The next link of the chain, whose `doFlush` runs only behind a promise that was resolved. -/
def startFlush : Option (State B) :=
  match s.running, s.waiting with
  | none, call::rest =>
      let s := { s with waiting := rest }
      if s.pendingRejected then some (s.settle call false)
      else some ((s.drain options).2.postNext call (s.drain options).1)
  | _, _ => none

end State

/-- `post` rejects when the report of an error throws; a report that a response was not `ok` is made
inside the `try`, so that what it throws is reported again. -/
def postRejects (options : Options) (outcome : PostOutcome) (throws : Bool × Bool) : Bool :=
  options.onExportError &&
    match outcome with
    | .ok => false
    | .notOk => throws.1 && throws.2
    | .failed => throws.1

def step {B : Type} (options : Options) (s : State B) : Action B → Option (State B)
  | .startSpan sampled => some (s.startSpan sampled)
  | .endSpan span body => some (s.endSpan options span body)
  | .emitLog body encodes => some (s.emitLog options body encodes)
  | .addCount m throws =>
      let (taken, t) := s.addCount options m throws
      some (t.noteAddition m.key m.value taken)
  | .recordHistogram m throws => some (s.recordHistogram options m throws)
  | .flush => some s.flush
  | .close => some { s with closed := true }.flush
  | .startFlush => s.startFlush options
  | .postEnds outcome throws =>
      match s.running with
      | none => none
      | some (call, rest) =>
          if postRejects options outcome throws then some (s.settle call false)
          else some (s.postNext call rest)

end Kronos.Otlp.Exporter
