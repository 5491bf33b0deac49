import Mathlib.Data.List.Nodup
import Mathlib.Algebra.Order.Ring.Int
import Kronos.Otlp.Exporter

/-!
# What the OTLP exporter accounts for

A record that was accepted stands in a batch that was posted, in one that the
running flush has still to post, in a buffer, or among those lost since metrics
were last drained; the dropped counters say how many these are, and what a
metrics batch says of a series is what was added in its window.

A report that throws out of a post rejects the promise `pending` for good: its
flush forgets the batches it had not posted, and no later one runs `doFlush`.
-/
namespace Kronos.Otlp.Exporter
open Kronos.Lib Kronos.Lib.Transition
open Utf8 (Str)
open JsonText (ascii)

variable {B : Type} {options : Options} {s t : State B} {key : Str}

/-! ## Accounts -/

/-- What was added under a key. -/
def total (key : Str) : List (Str × ℤ) → ℤ
  | [] => 0
  | entry::entries => (if entry.1 = key then entry.2 else 0) + total key entries

def valueOf (sums : List (Str × SumSeries)) (key : Str) : ℤ :=
  (OrderedMap.get key sums).elim 0 SumSeries.value

/-- What the counts of dropped records add to a series. -/
def droppedTo (drops : Signal → ℕ) (key : Str) : ℤ :=
  (if key = droppedKey .traces then (drops .traces : ℤ) else 0) +
    (if key = droppedKey .logs then (drops .logs : ℤ) else 0) +
      (if key = droppedKey .metrics then (drops .metrics : ℤ) else 0)

def Window.drops (w : Window B) : Signal → ℕ
  | .traces => w.lost.countP fun record => record.signal = .traces
  | .logs => w.lost.countP fun record => record.signal = .logs
  | .metrics => w.refused

namespace Batch

def records : Batch B → List (Record B)
  | .traces records => records
  | .logs records => records
  | .metrics _ _ _ => []

/-- The records whose loss is counted in the batch. -/
def lost : Batch B → List (Record B)
  | .metrics _ _ window => window.lost
  | _ => []

def value (key : Str) : Batch B → ℤ
  | .metrics sums _ _ => valueOf sums key
  | _ => 0

/-- Every series says what the host added to it, and the dropped series what was lost, in
the window. -/
def Reports : Batch B → Prop
  | .metrics sums _ window =>
      ∀ key, valueOf sums key = total key window.added + droppedTo window.drops key
  | _ => True

end Batch

def valueIn (key : Str) : List (Batch B) → ℤ
  | [] => 0
  | batch::batches => batch.value key + valueIn key batches

namespace State

/-- The batches the running flush has still to post. -/
def rest (s : State B) : List (Batch B) := s.running.elim [] Prod.snd

def batches (s : State B) : List (Batch B) := s.exports ++ s.rest

/-- A counter series of the host of which no addition was refused. -/
def Counted (s : State B) (key : Str) : Prop :=
  key ∉ s.refusedCounters ∧ ∀ signal, key ≠ droppedKey signal

end State

/-- No flush was rejected and no call threw; the buffers are bounded; every record accepted
is in one place, and posted or reported lost once a flush called after it has settled; and
the posts say of every counter series what was added to it, up to the call of every flush
that has settled at least. -/
structure Accounted (options : Options) (s : State B) : Prop where
  resolves : ∀ flush ∈ s.settled, flush.resolved = true
  silent : s.threw = false
  spans : s.spans.length ≤ options.maxBufferedSpans
  logs : s.logs.length ≤ options.maxBufferedLogs
  once : s.accepted.Nodup
  places : s.accepted.Perm (s.exports.flatMap Batch.records ++ s.exports.flatMap Batch.lost ++
    (s.rest.flatMap Batch.records ++ s.rest.flatMap Batch.lost) ++
      (s.spans ++ s.logs ++ s.window.lost))
  flushed : ∀ flush ∈ s.settled, ∀ record ∈ s.accepted, record.serial < flush.records →
    record ∈ s.exports.flatMap Batch.records ∨ record ∈ s.exports.flatMap Batch.lost
  reports : ∀ batch ∈ s.exports, batch.Reports
  series : ∃ n, (∀ flush ∈ s.settled, flush.additions ≤ n) ∧
    ∀ key, s.Counted key → valueIn key s.exports = total key (s.given.take n)
  held : ∀ key, s.Counted key →
    valueIn key s.exports + (valueIn key s.rest + valueOf s.sums key) = total key s.given

/-- The report does not throw and the sum is a safe integer. A buffer that is written to has room
for one record, and what was dropped has a metric to be counted in. -/
def spared (options : Options) (s : State B) : Action B → Bool
  | .endSpan span _ =>
      decide (span ∉ s.openSpans) || s.closed || decide (1 ≤ options.maxBufferedSpans)
  | .emitLog _ _ => s.closed || decide (1 ≤ options.maxBufferedLogs)
  | .postEnds outcome throws => !postRejects options outcome throws
  | .addCount m throws =>
      !(options.onExportError && throws) && decide (Binary64.Safe (valueOf s.sums m.key + m.value))
  | .recordHistogram _ throws => !(options.onExportError && throws)
  | .startFlush =>
      [Signal.traces, .logs, .metrics].all fun signal =>
        (options.metrics || decide (s.dropped.of signal = 0)) &&
          decide (Binary64.Safe (valueOf s.sums (droppedKey signal) + s.dropped.of signal))
  | _ => true

/-! ## Sums -/

theorem total_append (entries entries' : List (Str × ℤ)) :
    total key (entries ++ entries') = total key entries + total key entries' := by
  induction entries with
  | nil => simp [total]
  | cons entry entries ih => rw [List.cons_append, total, total, ih, Int.add_assoc]

theorem total_singleton (k : Str) (value : ℤ) : total key [(k, value)] = if k = key then value
    else 0 := by
  simp [total]

theorem valueIn_append (batches batches' : List (Batch B)) :
    valueIn key (batches ++ batches') = valueIn key batches + valueIn key batches' := by
  induction batches with
  | nil => simp [valueIn]
  | cons batch batches ih => rw [List.cons_append, valueIn, valueIn, ih, Int.add_assoc]

theorem valueIn_eq_zero {batches : List (Batch B)} (h : ∀ batch ∈ batches, batch.value key = 0) :
    valueIn key batches = 0 := by
  induction batches with
  | nil => rfl
  | cons batch batches ih =>
      rw [valueIn, h batch List.mem_cons_self, ih fun b hb => h b (List.mem_cons_of_mem _ hb)]
      rfl

theorem valueOf_set {sums : List (Str × SumSeries)} {k : Str} (series : SumSeries) :
    valueOf (OrderedMap.set k series sums) key = if key = k then series.value
      else valueOf sums key := by
  unfold valueOf
  by_cases hk : key = k
  · rw [if_pos hk, hk, OrderedMap.get_set_self]
    rfl
  · rw [if_neg hk, OrderedMap.get_set_of_ne hk]

theorem add_of_safe {a b : ℤ} (h : Binary64.Safe (a + b)) : Binary64.add a b = a + b :=
  Binary64.round_safe h

theorem set_ne_nil {K V : Type} [DecidableEq K] (k : K) (v : V) (entries : List (K × V)) :
    OrderedMap.set k v entries ≠ [] := by
  cases entries with
  | nil => simp [OrderedMap.set]
  | cons entry entries =>
      unfold OrderedMap.set
      split <;> simp

/-! ## The dropped counters -/

theorem droppedKey_injective {signal signal' : Signal}
    (h : droppedKey signal = droppedKey signal') :
    signal = signal' := by
  have htree := JsonText.text_injective h
  simp only [JsonText.Tree.array.injEq, List.cons.injEq, JsonText.Tree.string.injEq] at htree
  have htext : signal.text = signal'.text := by
    have hattributes := htree.2.2.1
    simp only [droppedMeasurement, List.insertionSort, List.foldr, List.orderedInsert,
      List.map_cons, List.map_nil,
      List.cons.injEq, JsonText.Tree.array.injEq, JsonText.Tree.string.injEq,
        AttributeValue.tree] at hattributes
    exact hattributes.1.2.1
  revert htext
  cases signal <;> cases signal' <;> decide

/-- The dropped series of a signal says how many of it were lost, beside what the host added
to it. -/
theorem Batch.Reports.dropped {sums : List (Str × SumSeries)} {histograms : List (Str × ℕ)}
    {window : Window B} (h : (Batch.metrics sums histograms window).Reports) (signal : Signal) :
    valueOf sums (droppedKey signal) =
      total (droppedKey signal) window.added + window.drops signal := by
  have hne : ∀ {signal signal' : Signal}, signal ≠ signal' →
      droppedKey signal ≠ droppedKey signal' :=
    fun h heq => h (droppedKey_injective heq)
  rw [h, droppedTo]
  cases signal with
  | traces =>
      simp [hne (show Signal.traces ≠ .logs by decide),
        hne (show Signal.traces ≠ .metrics by decide)]
  | logs =>
      simp [hne (show Signal.logs ≠ .traces by decide), hne (show Signal.logs ≠ .metrics by decide)]
  | metrics =>
      simp [hne (show Signal.metrics ≠ .traces by decide),
        hne (show Signal.metrics ≠ .logs by decide)]

/-- The sums after an addition that is taken. -/
def credited (sums : List (Str × SumSeries)) (m : Measurement) : List (Str × SumSeries) :=
  match OrderedMap.get m.key sums with
  | some series =>
      OrderedMap.set m.key { series with value := Binary64.add series.value m.value } sums
  | none => OrderedMap.set m.key m.series sums

theorem valueOf_credited {sums : List (Str × SumSeries)} {m : Measurement}
    (h : Binary64.Safe (valueOf sums m.key + m.value)) :
    valueOf (credited sums m) key = valueOf sums key + if key = m.key then m.value else 0 := by
  unfold credited
  cases hget : OrderedMap.get m.key sums with
  | none =>
      simp only [valueOf_set]
      by_cases hk : key = m.key
      · rw [if_pos hk, if_pos hk, hk, valueOf, hget]
        exact (Int.zero_add _).symm
      · rw [if_neg hk, if_neg hk, Int.add_zero]
  | some series =>
      simp only [valueOf_set]
      have hvalue : valueOf sums m.key = series.value := by
        rw [valueOf, hget]
        rfl
      by_cases hk : key = m.key
      · rw [if_pos hk, if_pos hk, hk, hvalue]
        exact add_of_safe (hvalue ▸ h)
      · rw [if_neg hk, if_neg hk, Int.add_zero]

theorem credited_ne_nil (sums : List (Str × SumSeries)) (m : Measurement) :
    credited sums m ≠ [] := by
  unfold credited
  split <;> exact set_ne_nil _ _ _

/-- An addition to a series that is there, or of the exporter's own name, is taken. -/
theorem addCount_dropped (hmetrics : options.metrics = true) {m : Measurement}
    (h : m.name = DROPPED) (throws : Bool) :
    s.addCount options m throws = (true, { s with sums := credited s.sums m }) := by
  unfold State.addCount credited
  rw [hmetrics]
  simp only [Bool.not_true, Bool.false_eq_true, if_false]
  cases OrderedMap.get m.key s.sums with
  | some series => rfl
  | none => simp [State.admitSeries, h]

/-- The sums after one signal's count. -/
def accounted (sums : List (Str × SumSeries)) (signal : Signal) (count : ℕ) :
    List (Str × SumSeries) :=
  if count = 0 then sums else credited sums (droppedMeasurement signal count)

theorem accountSignal_eq (s : State B) (signal : Signal)
    (hmetrics : options.metrics = true ∨ s.dropped.of signal = 0) :
    s.accountSignal options signal =
      { s with
        sums := accounted s.sums signal (s.dropped.of signal)
        dropped := s.dropped.reset signal } := by
  unfold State.accountSignal accounted
  split
  · rename_i hzero
    have hsame : s.dropped.reset signal = s.dropped := by
      cases signal <;> simp only [Dropped.of] at hzero <;> simp only [Dropped.reset, ← hzero]
    rw [hsame]
  · rename_i hcount
    rw [addCount_dropped (hmetrics.resolve_right hcount) rfl]

theorem valueOf_accounted {sums : List (Str × SumSeries)} {signal : Signal} {count : ℕ}
    (h : Binary64.Safe (valueOf sums (droppedKey signal) + count)) :
    valueOf (accounted sums signal count) key = valueOf sums key + if key = droppedKey signal then
      (count : ℤ) else 0 := by
  unfold accounted
  split
  · rename_i hzero
    simp [hzero]
  · exact valueOf_credited h

theorem accounted_eq_nil {sums : List (Str × SumSeries)} {signal : Signal} {count : ℕ}
    (h : accounted sums signal count = []) : sums = [] ∧ count = 0 := by
  unfold accounted at h
  split at h
  · rename_i hzero
    exact ⟨h, hzero⟩
  · exact absurd h (credited_ne_nil _ _)

/-- What was dropped goes into the sums, and is forgotten. -/
theorem accountDropped_spec (s : State B)
    (hmetrics : ∀ signal, options.metrics = true ∨ s.dropped.of signal = 0)
    (hsafe : ∀ signal, Binary64.Safe (valueOf s.sums (droppedKey signal) + s.dropped.of signal)) :
    ∃ sums, s.accountDropped options = { s with sums := sums, dropped := ⟨0, 0, 0⟩ } ∧
      (∀ key, valueOf sums key = valueOf s.sums key + droppedTo s.dropped.of key) ∧
      (sums = [] → ∀ signal, s.dropped.of signal = 0) := by
  have hne : ∀ {signal signal' : Signal}, signal ≠ signal' →
      droppedKey signal ≠ droppedKey signal' :=
    fun h heq => h (droppedKey_injective heq)
  let traces := accounted s.sums .traces s.dropped.traces
  let logs := accounted traces .logs s.dropped.logs
  let withTraces : State B := { s with sums := traces, dropped := s.dropped.reset .traces }
  let withLogs : State B := { s with sums := logs, dropped := withTraces.dropped.reset .logs }
  have htraces : ∀ key, valueOf traces key =
      valueOf s.sums key + if key = droppedKey .traces then (s.dropped.traces : ℤ) else 0 :=
    fun key => valueOf_accounted (hsafe .traces)
  have hlogs : ∀ key, valueOf logs key =
      valueOf traces key + if key = droppedKey .logs then (s.dropped.logs : ℤ) else 0 := by
    intro key
    refine valueOf_accounted ?_
    rw [htraces, if_neg (hne (by decide)), Int.add_zero]
    exact hsafe .logs
  refine ⟨accounted logs .metrics s.dropped.metrics, ?_, ?_, ?_⟩
  · unfold State.accountDropped
    rw [accountSignal_eq s .traces (hmetrics .traces)]
    change State.accountSignal options (State.accountSignal options withTraces .logs) .metrics = _
    rw [accountSignal_eq withTraces .logs (hmetrics .logs)]
    change State.accountSignal options withLogs .metrics = _
    rw [accountSignal_eq withLogs .metrics (hmetrics .metrics)]
    rfl
  · intro key
    rw [valueOf_accounted, hlogs, htraces]
    · simp only [droppedTo, Dropped.of]
      omega
    · rw [hlogs, htraces, if_neg (hne (by decide)), if_neg (hne (by decide)), Int.add_zero,
        Int.add_zero]
      exact hsafe .metrics
  · intro hnil
    obtain ⟨hlogsNil, hmetricsZero⟩ := accounted_eq_nil hnil
    obtain ⟨htracesNil, hlogsZero⟩ := accounted_eq_nil hlogsNil
    obtain ⟨_, htracesZero⟩ := accounted_eq_nil htracesNil
    intro signal
    cases signal with
    | traces => exact htracesZero
    | logs => exact hlogsZero
    | metrics => exact hmetricsZero

/-! ## Draining -/

/-- The batches of spans and logs, where there are any. -/
def plain (s : State B) : List (Batch B) :=
  (if s.spans = [] then [] else [.traces s.spans]) ++ if s.logs = [] then [] else [.logs s.logs]

theorem plain_records (s : State B) : (plain s).flatMap Batch.records = s.spans ++ s.logs := by
  unfold plain
  by_cases hspans : s.spans = []
  · by_cases hlogs : s.logs = [] <;> simp [hspans, hlogs, Batch.records]
  · by_cases hlogs : s.logs = [] <;> simp [hspans, hlogs, Batch.records]

theorem plain_cases {batch : Batch B} (h : batch ∈ plain s) :
    batch.lost = [] ∧ (∀ key, batch.value key = 0) ∧ batch.Reports := by
  rcases List.mem_append.mp h with hmem | hmem
  · split_ifs at hmem
    · cases hmem
    · rw [List.mem_singleton.mp hmem]
      exact ⟨rfl, fun _ => rfl, trivial⟩
  · split_ifs at hmem
    · cases hmem
    · rw [List.mem_singleton.mp hmem]
      exact ⟨rfl, fun _ => rfl, trivial⟩

theorem plain_lost (s : State B) : (plain s).flatMap Batch.lost = [] :=
  List.flatMap_eq_nil_iff.mpr fun _ h => (plain_cases h).1

/-- What a flush leaves. -/
def drained (s : State B) (seriesPerMetric : List (Str × ℕ)) (window : Window B) : State B :=
  { s with
    spans := []
    logs := []
    sums := []
    histograms := []
    dropped := ⟨0, 0, 0⟩
    seriesPerMetric := seriesPerMetric
    window := window }

/-- What a flush takes: all spans and logs, and the metrics with the losses of the window if
there are any. -/
def Takes (s : State B) (batches : List (Batch B)) (window : Window B) : Prop :=
  ∃ sums, (∀ key, valueOf sums key = valueOf s.sums key + droppedTo s.dropped.of key) ∧
    (batches = plain s ++ [.metrics sums s.histograms s.window] ∧ window = .empty B ∨
      batches = plain s ∧ window = s.window ∧ sums = [] ∧ ∀ signal, s.dropped.of signal = 0)

theorem drain_spec (s : State B)
    (hmetrics : ∀ signal, options.metrics = true ∨ s.dropped.of signal = 0)
    (hsafe : ∀ signal, Binary64.Safe (valueOf s.sums (droppedKey signal) + s.dropped.of signal)) :
    ∃ seriesPerMetric window, (s.drain options).2 = drained s seriesPerMetric window ∧
      Takes s (s.drain options).1 window := by
  obtain ⟨sums, haccount, hvalues, hnil⟩ := accountDropped_spec s hmetrics hsafe
  have hdrain : s.drain options =
      (plain s ++
        (State.drainMetrics { s with
        spans := [], logs := [], sums := sums, dropped := ⟨0, 0, 0⟩ }).1.toList,
        (State.drainMetrics { s with
          spans := [], logs := [], sums := sums, dropped := ⟨0, 0, 0⟩ }).2) := by
    unfold State.drain plain
    rw [haccount]
    unfold State.drainSpans State.drainLogs
    by_cases hspans : s.spans = []
    · by_cases hlogs : s.logs = [] <;> simp [hspans, hlogs]
    · by_cases hlogs : s.logs = [] <;> simp [hspans, hlogs]
  rw [hdrain]
  unfold State.drainMetrics
  by_cases hempty : sums = [] ∧ s.histograms = []
  · rw [if_pos hempty]
    refine ⟨s.seriesPerMetric, s.window, ?_, sums, hvalues,
      .inr ⟨List.append_nil _, rfl, hempty.1, hnil hempty.1⟩⟩
    obtain ⟨hsums, hhistograms⟩ := hempty
    simp only [drained, hsums, ← hhistograms]
  · rw [if_neg hempty]
    exact ⟨[], .empty B, rfl, sums, hvalues, .inl ⟨rfl, rfl⟩⟩

/-! ## Measurements -/

/-- What the refusal of a new series leaves. -/
def refused (s : State B) (reportedUnbounded : List Str) (threw : Bool) : State B :=
  { s with
    dropped := { s.dropped with metrics := s.dropped.metrics + 1 }
    window := { s.window with refused := s.window.refused + 1 }
    reportedUnbounded := reportedUnbounded
    threw := threw }

/-- A new series is admitted, or refused, which at most tells the host. -/
theorem admitSeries_cases (options : Options) (s : State B) (name : Str) (throws : Bool) :
    (∃ seriesPerMetric,
      s.admitSeries options name throws = (true, { s with seriesPerMetric := seriesPerMetric })) ∨
      ∃ reportedUnbounded threw,
        (threw = true → s.threw = true ∨ (options.onExportError && throws) = true) ∧
        s.admitSeries options name throws =
          (false, refused s reportedUnbounded threw) := by
  unfold State.admitSeries
  by_cases hname : name = DROPPED
  · rw [if_pos hname]
    exact .inl ⟨s.seriesPerMetric, rfl⟩
  rw [if_neg hname]
  by_cases hfull : options.maxSeriesPerMetric ≤ (OrderedMap.get name s.seriesPerMetric).getD 0
  · simp only [if_pos hfull]
    by_cases hreported : name ∈ s.reportedUnbounded
    · rw [if_pos hreported]
      exact .inr ⟨s.reportedUnbounded, s.threw, .inl, rfl⟩
    · rw [if_neg hreported]
      exact .inr ⟨_, _, fun hthrew => (Bool.or_eq_true _ _).mp hthrew, rfl⟩
  · simp only [if_neg hfull]
    exact .inl ⟨_, rfl⟩

/-- An addition is taken, refused, or, without metrics, of no effect. -/
theorem addCount_cases (options : Options) (s : State B) (m : Measurement) (throws : Bool) :
    (∃ seriesPerMetric, s.addCount options m throws =
        (true, { s with sums := credited s.sums m, seriesPerMetric := seriesPerMetric })) ∨
      (∃ reportedUnbounded threw,
        (threw = true → s.threw = true ∨ (options.onExportError && throws) = true) ∧
        s.addCount options m throws =
          (false, refused s reportedUnbounded threw)) ∨
        s.addCount options m throws = (false, s) := by
  unfold State.addCount credited
  cases hmetrics : options.metrics with
  | false => exact .inr (.inr rfl)
  | true =>
      simp only [Bool.not_true, Bool.false_eq_true, if_false]
      cases hget : OrderedMap.get m.key s.sums with
      | some series => exact .inl ⟨s.seriesPerMetric, rfl⟩
      | none =>
          rcases admitSeries_cases options s m.name throws with
            ⟨seriesPerMetric, heq⟩ | ⟨reportedUnbounded, threw, hthrew, heq⟩
          · simp only [heq, if_true]
            exact .inl ⟨seriesPerMetric, rfl⟩
          · simp only [heq, Bool.false_eq_true, if_false]
            exact .inr (.inl ⟨reportedUnbounded, threw, hthrew, rfl⟩)

theorem recordHistogram_cases (options : Options) (s : State B) (m : Measurement) (throws : Bool) :
    (∃ histograms seriesPerMetric, s.recordHistogram options m throws =
        { s with histograms := histograms, seriesPerMetric := seriesPerMetric }) ∨
      ∃ reportedUnbounded threw,
        (threw = true → s.threw = true ∨ (options.onExportError && throws) = true) ∧
        s.recordHistogram options m throws =
          refused s reportedUnbounded threw := by
  unfold State.recordHistogram
  split
  · exact .inl ⟨s.histograms, s.seriesPerMetric, rfl⟩
  cases hget : OrderedMap.get m.key s.histograms with
  | some count => exact .inl ⟨_, s.seriesPerMetric, rfl⟩
  | none =>
      rcases admitSeries_cases options s m.name throws with
        ⟨seriesPerMetric, heq⟩ | ⟨reportedUnbounded, threw, hthrew, heq⟩
      · simp only [heq, if_true]
        exact .inl ⟨_, seriesPerMetric, rfl⟩
      · simp only [heq, Bool.false_eq_true, if_false]
        exact .inr ⟨reportedUnbounded, threw, hthrew, rfl⟩

/-! ## Records -/

/-- The first `n` records accepted are posted, or their loss is, in these batches. -/
def State.Covered (s : State B) (batches : List (Batch B)) (n : ℕ) : Prop :=
  n ≤ s.nextSerial ∧ ∀ record ∈ s.accepted, record.serial < n →
    record ∈ batches.flatMap Batch.records ∨ record ∈ batches.flatMap Batch.lost

structure Kept (options : Options) (s : State B) : Prop where
  spans : s.spans.length ≤ options.maxBufferedSpans
  logs : s.logs.length ≤ options.maxBufferedLogs
  serials : ∀ record ∈ s.accepted, record.serial < s.nextSerial
  once : s.accepted.Nodup
  places : s.accepted.Perm (s.batches.flatMap Batch.records ++ s.batches.flatMap Batch.lost ++
    (s.spans ++ s.logs ++ s.window.lost))
  spanSignals : ∀ record ∈ s.spans, record.signal = .traces
  logSignals : ∀ record ∈ s.logs, record.signal = .logs
  lostSignals : ∀ record ∈ s.window.lost, record.signal ≠ .metrics
  drops : ∀ signal, s.dropped.of signal = s.window.drops signal
  waiting : ∀ call ∈ s.waiting, call.records ≤ s.nextSerial
  running : ∀ call rest, s.running = some (call, rest) → s.Covered s.batches call.records
  settled : ∀ flush ∈ s.settled, s.Covered s.exports flush.records

/-- What the records do not depend on. -/
theorem Kept.metrics {sums : List (Str × SumSeries)} {histograms seriesPerMetric : List (Str × ℕ)}
    {reportedUnbounded : List Str} {closed : Bool} {openSpans : List ℕ} {nextSpan : ℕ}
    {added given : List (Str × ℤ)} {refusedCounters : List Str} {threw : Bool}
    (h : Kept options s) :
    Kept options
      { s with
        sums := sums
        histograms := histograms
        seriesPerMetric := seriesPerMetric
        reportedUnbounded := reportedUnbounded
        closed := closed
        openSpans := openSpans
        nextSpan := nextSpan
        window := { s.window with added := added }
        given := given
        refusedCounters := refusedCounters
        threw := threw } :=
  { h with drops := fun signal => (h.drops signal).trans (by cases signal <;> rfl) }

theorem Kept.refuse {reportedUnbounded : List Str} {threw : Bool} (h : Kept options s) :
    Kept options (refused s reportedUnbounded threw) :=
  { h with
    drops := by
      intro signal
      cases signal with
      | traces => exact h.drops .traces
      | logs => exact h.drops .logs
      | metrics => exact congrArg (· + 1) (h.drops .metrics) }

theorem lost_append_shifted (max : ℕ) (buffer : List (Record B)) :
    lost max buffer ++ shifted max buffer = buffer := by
  unfold lost shifted
  split
  · cases buffer <;> rfl
  · rfl

/-- What leaves a buffer may be put behind everything. -/
theorem perm_shifted (max : ℕ) (buffer rest : List (Record B)) :
    (buffer ++ rest).Perm (shifted max buffer ++ (rest ++ lost max buffer)) := by
  have hsplit : buffer ++ rest = lost max buffer ++ (shifted max buffer ++ rest) := by
    rw [← List.append_assoc, lost_append_shifted]
  rw [hsplit, ← List.append_assoc (shifted max buffer) rest]
  exact List.perm_append_comm

theorem length_lost {max : ℕ} {buffer : List (Record B)} (hmax : 1 ≤ max) :
    (lost max buffer).length = overflow max buffer := by
  unfold lost overflow
  split
  · cases buffer with
    | nil => simp_all
    | cons record records => rfl
  · rfl

theorem length_shifted {max : ℕ} {buffer : List (Record B)} (hmax : 1 ≤ max)
    (h : buffer.length ≤ max) :
    (shifted max buffer).length < max := by
  unfold shifted
  split
  · rw [List.length_tail]
    omega
  · omega

theorem mem_of_shifted {max : ℕ} {buffer : List (Record B)} {record : Record B}
    (h : record ∈ shifted max buffer) :
    record ∈ buffer := by
  rw [← lost_append_shifted max buffer]
  exact List.mem_append_right _ h

theorem mem_of_lost {max : ℕ} {buffer : List (Record B)} {record : Record B}
    (h : record ∈ lost max buffer) :
    record ∈ buffer := by
  rw [← lost_append_shifted max buffer]
  exact List.mem_append_left _ h

theorem countP_lost {max : ℕ} {buffer : List (Record B)} {signal : Signal} (hmax : 1 ≤ max)
    (h : ∀ record ∈ buffer, record.signal = signal) (signal' : Signal) :
    (lost max buffer).countP (fun record => record.signal = signal') =
      if signal = signal' then overflow max buffer else 0 := by
  split
  · rename_i heq
    rw [← length_lost hmax, List.countP_eq_length]
    intro record hrecord
    rw [h record (mem_of_lost hrecord), heq]
    exact decide_eq_true rfl
  · rename_i hne
    rw [List.countP_eq_zero]
    intro record hrecord
    rw [h record (mem_of_lost hrecord), decide_eq_true_eq]
    exact hne

/-- The oldest record of a full buffer is lost and counted. -/
theorem Kept.makeRoomForSpan (h : Kept options s) (hmax : 1 ≤ options.maxBufferedSpans) :
    Kept options (s.makeRoomForSpan options) ∧
      (s.makeRoomForSpan options).spans.length < options.maxBufferedSpans := by
  have hroom := length_shifted hmax h.spans
  have hcount := countP_lost hmax h.spanSignals
  refine ⟨?_, hroom⟩
  constructor
  case spans => exact Nat.le_of_lt hroom
  case logs => exact h.logs
  case serials => exact h.serials
  case once => exact h.once
  case places =>
    refine h.places.trans (List.Perm.append_left _ ?_)
    show (s.spans ++ s.logs ++ s.window.lost).Perm
      (shifted options.maxBufferedSpans s.spans ++ s.logs ++
        (s.window.lost ++ Exporter.lost options.maxBufferedSpans s.spans))
    simpa only [List.append_assoc] using
      perm_shifted options.maxBufferedSpans s.spans (s.logs ++ s.window.lost)
  case spanSignals => exact fun record hrecord => h.spanSignals record (mem_of_shifted hrecord)
  case logSignals => exact h.logSignals
  case lostSignals =>
    intro record hrecord
    rcases List.mem_append.mp hrecord with hold | hnew
    · exact h.lostSignals record hold
    · rw [h.spanSignals record (mem_of_lost hnew)]
      decide
  case drops =>
    intro signal
    have hdrops := h.drops signal
    cases signal with
    | traces =>
        show s.dropped.traces + _ = List.countP _ (s.window.lost ++ _)
        rw [List.countP_append, hcount, if_pos rfl]
        exact congrArg (· + _) hdrops
    | logs =>
        show s.dropped.logs = List.countP _ (s.window.lost ++ _)
        rw [List.countP_append, hcount, if_neg (by decide)]
        exact hdrops
    | metrics => exact hdrops
  case waiting => exact h.waiting
  case running => exact h.running
  case settled => exact h.settled

theorem Kept.makeRoomForLog (h : Kept options s) (hmax : 1 ≤ options.maxBufferedLogs) :
    Kept options (s.makeRoomForLog options) ∧
      (s.makeRoomForLog options).logs.length < options.maxBufferedLogs := by
  have hroom := length_shifted hmax h.logs
  have hcount := countP_lost hmax h.logSignals
  refine ⟨?_, hroom⟩
  constructor
  case spans => exact h.spans
  case logs => exact Nat.le_of_lt hroom
  case serials => exact h.serials
  case once => exact h.once
  case places =>
    refine h.places.trans (List.Perm.append_left _ ?_)
    show (s.spans ++ s.logs ++ s.window.lost).Perm
      (s.spans ++ shifted options.maxBufferedLogs s.logs ++
        (s.window.lost ++ Exporter.lost options.maxBufferedLogs s.logs))
    simpa only [List.append_assoc] using
      (perm_shifted options.maxBufferedLogs s.logs s.window.lost).append_left s.spans
  case spanSignals => exact h.spanSignals
  case logSignals => exact fun record hrecord => h.logSignals record (mem_of_shifted hrecord)
  case lostSignals =>
    intro record hrecord
    rcases List.mem_append.mp hrecord with hold | hnew
    · exact h.lostSignals record hold
    · rw [h.logSignals record (mem_of_lost hnew)]
      decide
  case drops =>
    intro signal
    have hdrops := h.drops signal
    cases signal with
    | traces =>
        show s.dropped.traces = List.countP _ (s.window.lost ++ _)
        rw [List.countP_append, hcount, if_neg (by decide)]
        exact hdrops
    | logs =>
        show s.dropped.logs + _ = List.countP _ (s.window.lost ++ _)
        rw [List.countP_append, hcount, if_pos rfl]
        exact congrArg (· + _) hdrops
    | metrics => exact hdrops
  case waiting => exact h.waiting
  case running => exact h.running
  case settled => exact h.settled

/-- A record that is accepted now is behind every flush that was called. -/
theorem covered_accept {batches : List (Batch B)} {n : ℕ} (h : s.Covered batches n)
    (record : Record B) (hserial : record.serial = s.nextSerial) :
    State.Covered { s with nextSerial := s.nextSerial + 1, accepted := s.accepted ++ [record] }
      batches n := by
  refine ⟨Nat.le_succ_of_le h.1, ?_⟩
  intro other hother hlt
  rcases List.mem_append.mp hother with hold | hnew
  · exact h.2 other hold hlt
  · rw [List.mem_singleton.mp hnew, hserial] at hlt
    exact absurd h.1 (Nat.not_le_of_lt hlt)

theorem serials_accept (h : Kept options s) (record : Record B)
    (hserial : record.serial = s.nextSerial) :
    (∀ other ∈ s.accepted ++ [record], other.serial < s.nextSerial + 1) ∧
      (s.accepted ++ [record]).Nodup := by
  constructor
  · intro other hother
    rcases List.mem_append.mp hother with hold | hnew
    · exact Nat.lt_succ_of_lt (h.serials other hold)
    · rw [List.mem_singleton.mp hnew, hserial]
      exact Nat.lt_succ_self _
  · refine List.nodup_append.mpr ⟨h.once, List.nodup_singleton _, ?_⟩
    rintro other hother new hnew rfl
    rw [List.mem_singleton.mp hnew] at hother
    exact absurd (h.serials record hother) (by rw [hserial]; exact Nat.lt_irrefl _)

theorem Kept.pushSpan (h : Kept options s) (hroom : s.spans.length < options.maxBufferedSpans)
    (body : B) :
    Kept options (s.pushSpan body) := by
  obtain ⟨hserials, honce⟩ := serials_accept h ⟨.traces, s.nextSerial, body⟩ rfl
  constructor
  case spans =>
    show (s.spans ++ [_]).length ≤ _
    rw [List.length_append, List.length_singleton]
    exact hroom
  case logs => exact h.logs
  case serials => exact hserials
  case once => exact honce
  case places =>
    refine (h.places.append_right _).trans ?_
    rw [List.append_assoc]
    refine List.Perm.append_left _ ?_
    show (s.spans ++ s.logs ++ s.window.lost ++ [_]).Perm
      (s.spans ++ [_] ++ s.logs ++ s.window.lost)
    simp only [List.append_assoc]
    refine List.Perm.append_left _ ?_
    rw [← List.append_assoc]
    exact List.perm_append_comm
  case spanSignals =>
    intro record hrecord
    rcases List.mem_append.mp hrecord with hold | hnew
    · exact h.spanSignals record hold
    · rw [List.mem_singleton.mp hnew]
  case logSignals => exact h.logSignals
  case lostSignals => exact h.lostSignals
  case drops => exact h.drops
  case waiting => exact fun call hcall => Nat.le_succ_of_le (h.waiting call hcall)
  case running =>
    exact fun call rest hrunning => covered_accept (h.running call rest hrunning) _ rfl
  case settled => exact fun flush hflush => covered_accept (h.settled flush hflush) _ rfl

theorem Kept.pushLog (h : Kept options s) (hroom : s.logs.length < options.maxBufferedLogs)
    (body : B) :
    Kept options (s.pushLog body) := by
  obtain ⟨hserials, honce⟩ := serials_accept h ⟨.logs, s.nextSerial, body⟩ rfl
  constructor
  case spans => exact h.spans
  case logs =>
    show (s.logs ++ [_]).length ≤ _
    rw [List.length_append, List.length_singleton]
    exact hroom
  case serials => exact hserials
  case once => exact honce
  case places =>
    refine (h.places.append_right _).trans ?_
    rw [List.append_assoc]
    refine List.Perm.append_left _ ?_
    show (s.spans ++ s.logs ++ s.window.lost ++ [_]).Perm
      (s.spans ++ (s.logs ++ [_]) ++ s.window.lost)
    simp only [List.append_assoc]
    exact List.Perm.append_left _ (List.Perm.append_left _ List.perm_append_comm)
  case spanSignals => exact h.spanSignals
  case logSignals =>
    intro record hrecord
    rcases List.mem_append.mp hrecord with hold | hnew
    · exact h.logSignals record hold
    · rw [List.mem_singleton.mp hnew]
  case lostSignals => exact h.lostSignals
  case drops => exact h.drops
  case waiting => exact fun call hcall => Nat.le_succ_of_le (h.waiting call hcall)
  case running =>
    exact fun call rest hrunning => covered_accept (h.running call rest hrunning) _ rfl
  case settled => exact fun flush hflush => covered_accept (h.settled flush hflush) _ rfl

/-- A flush takes all records, and all losses that are to be counted. -/
theorem Kept.takes {batches : List (Batch B)} {window : Window B} (h : Kept options s)
    (htakes : Takes s batches window) :
    batches.flatMap Batch.records = s.spans ++ s.logs ∧ batches.flatMap Batch.lost = s.window.lost ∧
      window.lost = [] ∧ window.refused = 0 := by
  obtain ⟨sums, _, ⟨rfl, rfl⟩ | ⟨rfl, rfl, _, hzero⟩⟩ := htakes
  · refine ⟨?_, ?_, rfl, rfl⟩
    · rw [List.flatMap_append, plain_records]
      simp [Batch.records]
    · rw [List.flatMap_append, plain_lost]
      simp [Batch.lost]
  · have hdrops : ∀ signal, s.window.drops signal = 0 := fun signal =>
      (h.drops signal).symm.trans (hzero signal)
    have hlost : s.window.lost = [] := by
      refine List.eq_nil_iff_forall_not_mem.mpr fun record hrecord => ?_
      have hsignal := h.lostSignals record hrecord
      have htraces := List.countP_eq_zero.mp (hdrops .traces) record hrecord
      have hlogs := List.countP_eq_zero.mp (hdrops .logs) record hrecord
      cases hsame : record.signal <;> simp_all
    exact ⟨plain_records s, (plain_lost s).trans hlost.symm, hlost, hdrops .metrics⟩

theorem batches_of_running {call : Call} {batches : List (Batch B)}
    (h : s.running = some (call, batches)) :
    s.batches = s.exports ++ batches := by
  rw [State.batches, State.rest, h]
  rfl

theorem batches_of_idle (h : s.running = none) : s.batches = s.exports := by
  rw [State.batches, State.rest, h]
  exact List.append_nil _

theorem Kept.drained {batches : List (Batch B)} {window : Window B} {call : Call}
    (h : Kept options s) (hidle : s.running = none) (htakes : Takes s batches window)
    (hcall : call.records ≤ s.nextSerial) (seriesPerMetric : List (Str × ℕ)) :
    Kept options { drained s seriesPerMetric window with running := some (call, batches) } := by
  obtain ⟨hrecords, hlost, hnone, hrefused⟩ := h.takes htakes
  have hplaces := h.places
  rw [batches_of_idle hidle] at hplaces
  have hall :
      s.accepted.Perm
      ((s.exports ++ batches).flatMap Batch.records ++
      (s.exports ++ batches).flatMap Batch.lost) := by
    refine hplaces.trans ?_
    rw [List.flatMap_append, List.flatMap_append, hrecords, hlost]
    simp only [List.append_assoc]
    refine List.Perm.append_left _ ?_
    simpa only [List.append_assoc] using
      List.perm_append_comm_assoc (s.exports.flatMap Batch.lost) (s.spans ++ s.logs) s.window.lost
  constructor
  case spans => exact Nat.zero_le _
  case logs => exact Nat.zero_le _
  case serials => exact h.serials
  case once => exact h.once
  case places =>
    show s.accepted.Perm ((s.exports ++ batches).flatMap Batch.records ++
      (s.exports ++ batches).flatMap Batch.lost ++ ([] ++ [] ++ window.lost))
    rw [hnone]
    simpa using hall
  case spanSignals => nofun
  case logSignals => nofun
  case lostSignals =>
    intro record hrecord
    have hmem : record ∈ window.lost := hrecord
    rw [hnone] at hmem
    cases hmem
  case drops =>
    intro signal
    show _ = window.drops signal
    cases signal with
    | traces => simp [Window.drops, hnone, Exporter.drained, Dropped.of]
    | logs => simp [Window.drops, hnone, Exporter.drained, Dropped.of]
    | metrics => exact hrefused.symm
  case waiting => exact h.waiting
  case running =>
    intro call' rest hrunning
    cases hrunning
    refine ⟨hcall, fun record hrecord _ => ?_⟩
    exact List.mem_append.mp (hall.mem_iff.mp hrecord)
  case settled => exact h.settled

theorem Kept.postNext {batches : List (Batch B)} {call : Call} (h : Kept options s)
    (hrunning : s.running = some (call, batches)) : Kept options (s.postNext call batches) := by
  have hbatches := batches_of_running hrunning
  have hcovered := h.running call batches hrunning
  have hplaces := h.places
  rw [hbatches] at hcovered hplaces
  cases batches with
  | nil =>
      rw [List.append_nil] at hcovered hplaces
      constructor
      case spans => exact h.spans
      case logs => exact h.logs
      case serials => exact h.serials
      case once => exact h.once
      case places =>
        have hidle : (s.postNext call []).batches = s.exports := batches_of_idle rfl
        rw [hidle]
        exact hplaces
      case spanSignals => exact h.spanSignals
      case logSignals => exact h.logSignals
      case lostSignals => exact h.lostSignals
      case drops => exact h.drops
      case waiting => exact h.waiting
      case running => nofun
      case settled =>
        intro flush hflush
        rcases List.mem_append.mp hflush with hold | hnew
        · exact h.settled flush hold
        · rw [List.mem_singleton.mp hnew]
          exact hcovered
  | cons batch rest =>
      have hsame : (s.postNext call (batch::rest)).batches = s.exports ++ batch::rest := by
        show (s.exports ++ [batch]) ++ rest = _
        simp
      constructor
      case spans => exact h.spans
      case logs => exact h.logs
      case serials => exact h.serials
      case once => exact h.once
      case places =>
        rw [hsame]
        exact hplaces
      case spanSignals => exact h.spanSignals
      case logSignals => exact h.logSignals
      case lostSignals => exact h.lostSignals
      case drops => exact h.drops
      case waiting => exact h.waiting
      case running =>
        intro call' rest' hrunning'
        cases hrunning'
        rw [hsame]
        exact hcovered
      case settled =>
        intro flush hflush
        obtain ⟨hle, hmem⟩ := h.settled flush hflush
        refine ⟨hle, fun record hrecord hlt => ?_⟩
        show record ∈ (s.exports ++ [batch]).flatMap _ ∨ record ∈ (s.exports ++ [batch]).flatMap _
        rw [List.flatMap_append, List.flatMap_append]
        exact (hmem record hrecord hlt).imp (List.mem_append_left _) (List.mem_append_left _)

end Kronos.Otlp.Exporter
