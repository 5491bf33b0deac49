import Mathlib.Data.List.Permutation
import Kronos.Otlp.Tracing

/-!
# A trace is recorded whole or not at all

Whatever a handler does and wherever its messages go, every span that is recorded
on the way belongs to one trace, and the span it is under is recorded too or is
the one the message came with. The decision taken at the root holds for all of
them: when it was against recording, nothing is recorded anywhere; else every
span that was opened is, if no exporter is closed.

`Recorded` is what is shown of a part of the tree, by induction on the acts; the
rule for one span puts its record behind those of what is under it.
-/
namespace Kronos.Otlp.Tracing
open Lib.Utf8 (Str)
open Lib.JsonText (ascii)

variable {X : Type} {t : Telemetry X} {x : X} {traceId : Str} {recorded : Bool}
    {context parent : TraceContext}
  {metadata : Metadata} {roots : List (Option Str)} {n m : ℕ} {out : List (SpanRecord X)}

/-- No id is refused where it is read. -/
structure Telemetry.Readable (t : Telemetry X) : Prop where
  trace : ∀ n, IsHex 32 (t.traceId n) ∧ t.traceId n ≠ INVALID_TRACE_ID
  span : ∀ n, IsHex 16 (t.spanId n) ∧ t.spanId n ≠ INVALID_SPAN_ID

/-! ## Spans of one trace -/

structure InTrace (traceId : Str) (recorded : Bool) (context : TraceContext) : Prop where
  valid : context.Valid
  trace : context.traceId = traceId
  recorded : context.recorded = recorded

theorem recorded_carried (context : TraceContext) :
    context.carried.recorded = context.recorded := by
  simp only [TraceContext.carried, TraceContext.recorded]
  split_ifs with hsampled
  · simp [hsampled]
  · simp [hsampled]

theorem InTrace.carried (h : InTrace traceId recorded context) :
    InTrace traceId recorded context.carried where
  valid := ⟨h.valid.trace, h.valid.traceId, h.valid.span, h.valid.spanId⟩
  trace := h.trace
  recorded := by rw [recorded_carried, h.recorded]

theorem InTrace.read (h : InTrace traceId recorded context) (metadata : Metadata) :
    traceparentOf (withTraceparent metadata context) = some context.carried :=
  traceparentOf_withTraceparent h.valid metadata

section Start

variable (t x n)

/-- The decision for a span, taken by its parent or, at the root of a trace, by the exporter. -/
def Telemetry.decision (parent : Option TraceContext) : Bool :=
  match parent with
  | some parent => parent.recorded
  | none => t.sample x (t.traceId n)

def Telemetry.traceOf (parent : Option TraceContext) : Str :=
  (parent.map (·.traceId)).getD (t.traceId n)

theorem recording_startSpan (parent : Option TraceContext) :
    (t.startSpan x parent n).recording = (t.decision x n parent && !t.closed x) := by
  cases parent with
  | none => cases hclosed : t.closed x <;> cases hsample : t.sample x (t.traceId n) <;>
      simp [Telemetry.startSpan, Telemetry.decision, hclosed, hsample]
  | some parent => cases hclosed : t.closed x <;> cases hsample : parent.recorded <;>
      simp [Telemetry.startSpan, Telemetry.decision, hclosed, hsample]

theorem spanId_startSpan (parent : Option TraceContext) :
    (t.startSpan x parent n).context.spanId = t.spanId n := by
  unfold Telemetry.startSpan
  dsimp only
  split_ifs <;> rfl

theorem traceId_startSpan (parent : Option TraceContext) :
    (t.startSpan x parent n).context.traceId = t.traceOf n parent := by
  unfold Telemetry.startSpan
  dsimp only
  split_ifs <;> rfl

theorem recorded_startSpan (parent : Option TraceContext) :
    (t.startSpan x parent n).context.recorded = (t.startSpan x parent n).recording := by
  unfold Telemetry.startSpan
  dsimp only
  split_ifs <;> rfl

end Start

theorem inTrace_startSpan (ht : t.Readable) (x : X) (n : ℕ) {parent : Option TraceContext}
    (hparent : ∀ p ∈ parent, p.Valid) :
    InTrace (t.traceOf n parent) (t.decision x n parent && !t.closed x)
      (t.startSpan x parent n).context where
  valid := by
    constructor
    case trace =>
      rw [traceId_startSpan]
      cases parent with
      | none => exact (ht.trace n).1
      | some p => exact (hparent p rfl).trace
    case traceId =>
      rw [traceId_startSpan]
      cases parent with
      | none => exact (ht.trace n).2
      | some p => exact (hparent p rfl).traceId
    case span => rw [spanId_startSpan]; exact (ht.span n).1
    case spanId => rw [spanId_startSpan]; exact (ht.span n).2
  trace := traceId_startSpan t x n parent
  recorded := by rw [recorded_startSpan, recording_startSpan]

theorem InTrace.startSpan (ht : t.Readable) (h : InTrace traceId recorded parent) :
    InTrace traceId (recorded && !t.closed x) (t.startSpan x (some parent) n).context := by
  have hvalid : ∀ p ∈ some parent, p.Valid := fun p hp => Option.some.inj hp ▸ h.valid
  have hspan := inTrace_startSpan ht x n hvalid
  rwa [Telemetry.traceOf, Telemetry.decision, Option.map_some, Option.getD_some, h.trace,
    h.recorded] at hspan

/-! ## Records -/

/-- The records of a part of the tree, under the spans `roots`; the spans opened have the numbers
from `n` to `m`. -/
structure Recorded (t : Telemetry X) (traceId : Str) (recorded : Bool)
    (roots : List (Option Str)) (n m : ℕ) (out : List (SpanRecord X)) : Prop where
  le : n ≤ m
  trace : ∀ r ∈ out, r.traceId = traceId
  parents : ∀ r ∈ out, r.parentSpanId ∈ roots ∨ ∃ q ∈ out, r.parentSpanId = some q.spanId
  nothing : recorded = false → out = []
  whole : recorded = true → (∀ x, t.closed x = false) →
    (out.map (·.spanId)).Perm ((List.range' n (m - n)).map t.spanId)

theorem recorded_nil (n : ℕ) : Recorded t traceId recorded roots n n [] where
  le := le_rfl
  trace := fun _ h => absurd h List.not_mem_nil
  parents := fun _ h => absurd h List.not_mem_nil
  nothing := fun _ => rfl
  whole := fun _ _ => by simp

theorem range_split {k : ℕ} (hnm : n ≤ m) (hmk : m ≤ k) :
    List.range' n (k - n) = List.range' n (m - n) ++ List.range' m (k - m) := by
  have hm : n + (m - n) = m := by omega
  have hk : m - n + (k - m) = k - n := by omega
  have happend := @List.range'_append_1 n (m - n) (k - m)
  rw [hm, hk] at happend
  exact happend.symm

theorem Recorded.append {k : ℕ} {rest : List (SpanRecord X)}
    (h : Recorded t traceId recorded roots n m out)
    (hrest : Recorded t traceId recorded roots m k rest) :
    Recorded t traceId recorded roots n k (out ++ rest) where
  le := h.le.trans hrest.le
  trace := fun r hr => (List.mem_append.mp hr).elim (h.trace r) (hrest.trace r)
  parents := fun r hr => by
    rcases List.mem_append.mp hr with hout | hout
    · rcases h.parents r hout with hroot | ⟨q, hq, hqp⟩
      · exact .inl hroot
      · exact .inr ⟨q, List.mem_append_left _ hq, hqp⟩
    · rcases hrest.parents r hout with hroot | ⟨q, hq, hqp⟩
      · exact .inl hroot
      · exact .inr ⟨q, List.mem_append_right _ hq, hqp⟩
  nothing := fun hnot => by rw [h.nothing hnot, hrest.nothing hnot]; rfl
  whole := fun hrecorded hopen => by
    rw [List.map_append, range_split h.le hrest.le, List.map_append]
    exact (h.whole hrecorded hopen).append (hrest.whole hrecorded hopen)

theorem Recorded.perm {out' : List (SpanRecord X)} (h : Recorded t traceId recorded roots n m out)
    (hperm : out.Perm out') : Recorded t traceId recorded roots n m out' where
  le := h.le
  trace := fun r hr => h.trace r (hperm.mem_iff.mpr hr)
  parents := fun r hr => by
    rcases h.parents r (hperm.mem_iff.mpr hr) with hroot | ⟨q, hq, hqp⟩
    · exact .inl hroot
    · exact .inr ⟨q, hperm.mem_iff.mp hq, hqp⟩
  nothing := fun hnot => by
    rw [h.nothing hnot] at hperm
    exact hperm.nil_eq.symm
  whole := fun hrecorded hopen => (hperm.map _).symm.trans (h.whole hrecorded hopen)

theorem Recorded.mono {roots' : List (Option Str)} (h : Recorded t traceId recorded roots n m out)
    (hroots : ∀ p ∈ roots, p ∈ roots') : Recorded t traceId recorded roots' n m out :=
  { h with parents := fun r hr => (h.parents r hr).imp_left (hroots _) }

section One

variable {roots' : List (Option Str)} {inner : List (SpanRecord X)} {name : Str}
    {links : List TraceContext}
  {failed : Bool} {parent : Option TraceContext}

/-- The rule for one span: what is under it may have it for a parent. -/
theorem Recorded.finish {kind : SpanKind}
    (hinner : Recorded t traceId (recorded && !t.closed x) roots' (n + 1) m inner)
    (hroots : ∀ p ∈ roots', p ∈ roots ∨ p = some (t.spanId n))
    (hparent : parent.map (·.spanId) ∈ roots) (htrace : t.traceOf n parent = traceId)
    (hdecision : t.decision x n parent = recorded) :
    Recorded t traceId recorded roots n m
      (inner ++ Telemetry.finish x (t.startSpan x parent n) parent name kind links failed) := by
  have hle : n ≤ m := (Nat.le_succ n).trans hinner.le
  have hrecording := recording_startSpan t x n parent
  rw [hdecision] at hrecording
  rw [Telemetry.finish, hrecording]
  cases hrec : recorded && !t.closed x with
  | false =>
      rw [hinner.nothing hrec, if_neg Bool.false_ne_true]
      refine ⟨hle, fun _ h => absurd h List.not_mem_nil, fun _ h => absurd h List.not_mem_nil,
        fun _ => rfl, ?_⟩
      intro hrecorded hopen
      rw [hrecorded, hopen] at hrec
      cases hrec
  | true =>
      have hrecorded : recorded = true := (Bool.and_eq_true_iff.mp hrec).1
      rw [if_pos rfl]
      constructor
      case le => exact hle
      case trace =>
        intro r hr
        rcases List.mem_append.mp hr with hr | hr
        · exact hinner.trace r hr
        · rw [List.mem_singleton.mp hr]
          exact (traceId_startSpan t x n parent).trans htrace
      case parents =>
        intro r hr
        rcases List.mem_append.mp hr with hr | hr
        · rcases hinner.parents r hr with hroot | ⟨q, hq, hqp⟩
          · rcases hroots _ hroot with hroot | hself
            · exact .inl hroot
            · refine .inr ⟨_, List.mem_append_right _ List.mem_cons_self, ?_⟩
              rw [hself, spanId_startSpan]
          · exact .inr ⟨q, List.mem_append_left _ hq, hqp⟩
        · rw [List.mem_singleton.mp hr]
          exact .inl hparent
      case nothing =>
        intro hnot
        rw [hrecorded] at hnot
        cases hnot
      case whole =>
        intro _ hopen
        have hfirst : List.range' n (m - n) = n :: List.range' (n + 1) (m - (n + 1)) := by
          have hle' := hinner.le
          have hlength : m - n = m - (n + 1) + 1 := by omega
          rw [hlength, List.range'_succ]
        rw [List.map_append, hfirst, List.map_cons, List.map_cons, List.map_nil, spanId_startSpan]
        exact (List.perm_append_singleton _ _).trans ((hinner.whole hrec hopen).cons _)

/-- The same for a span started below another of the trace. -/
theorem Recorded.below {kind : SpanKind} {parent : TraceContext}
    (hinner : Recorded t traceId (recorded && !t.closed x) roots' (n + 1) m inner)
    (hroots : ∀ p ∈ roots', p ∈ roots ∨ p = some (t.spanId n)) (h : InTrace traceId recorded parent)
    (hparent : some parent.spanId ∈ roots) :
    Recorded t traceId recorded roots n m
      (inner ++ Telemetry.finish x (t.startSpan x (some parent) n)
        (some parent) name kind links failed) :=
  hinner.finish hroots hparent h.trace h.recorded

/-- The rule for the spans of a handler: its own, and that of its task after it. -/
theorem Recorded.settle {kind : MessageKind} {commit : Option Bool}
    (hinner : Recorded t traceId (recorded && !t.closed x) [some (t.spanId n)] (n + 1) m inner)
    (hparentOf : Telemetry.parentOf kind metadata = parent)
    (hparent : parent.map (·.spanId) ∈ roots) (htrace : t.traceOf n parent = traceId)
    (hdecision : t.decision x n parent = recorded)
    (hspan : InTrace traceId (recorded && !t.closed x) (t.startSpan x parent n).context) :
    Recorded t traceId recorded roots n
      (t.settle x (t.startSpan x parent n) kind name metadata failed commit m).2
      (inner ++ (t.settle x (t.startSpan x parent n) kind name metadata failed commit m).1) := by
  have hroots : ∀ p ∈ [some (t.spanId n)], p ∈ roots ∨ p = some (t.spanId n) := by simp
  have hown : ∀ k out,
      Recorded t traceId (recorded && !t.closed x) [some (t.spanId n)] (n + 1) k out →
      Recorded t traceId recorded roots n k
        (out ++ Telemetry.finish x (t.startSpan x parent n) parent name
        (Telemetry.handlerSpanKind kind) (Telemetry.linksOf kind metadata) failed) :=
    fun _ _ h => h.finish hroots hparent htrace hdecision
  subst hparentOf
  unfold Telemetry.settle
  split
  case h_1 aborted =>
    have hcommit : Recorded t traceId (recorded && !t.closed x) [some (t.spanId n)] m (m + 1)
        ([] ++ Telemetry.finish x (t.startSpan x (some _) m) (some _)
          (ascii "commit") .internal [] aborted) :=
      (recorded_nil (m + 1)).below (fun p (hp : p ∈ []) => absurd hp List.not_mem_nil) hspan
        (by simp [spanId_startSpan])
    have hboth := hown _ _ (hinner.append hcommit)
    rw [List.nil_append, List.append_assoc] at hboth
    exact hboth.perm (List.perm_append_comm.append_left inner)
  case h_2 => exact hown _ _ hinner

end One

/-! ## Scopes -/

/-- A scope of the trace; what is recorded in it is not recorded by a closed exporter. -/
structure Scope.Within (t : Telemetry X) (scope : Scope X) (traceId : Str)
    (recorded : Bool) : Prop where
  context : InTrace traceId recorded scope.context
  innermost : InTrace traceId recorded scope.innermost
  metadata : ∃ context, traceparentOf scope.metadata = some context ∧
    InTrace traceId recorded context ∧
    context.spanId = scope.context.spanId
  opened : recorded = true → t.closed scope.exporter = false

/-- The spans that may be the parent of what is done in a scope. -/
def Scope.spans (scope : Scope X) : List (Option Str) :=
  [some scope.context.spanId, some scope.innermost.spanId]

variable {scope : Scope X}

theorem Scope.Within.at_ (h : scope.Within t traceId recorded) (place : Place) :
    InTrace traceId recorded (scope.at_ place) ∧ some (scope.at_ place).spanId ∈ scope.spans := by
  cases place with
  | handler => exact ⟨h.context, by simp [Scope.spans, Scope.at_]⟩
  | innermost => exact ⟨h.innermost, by simp [Scope.spans, Scope.at_]⟩

/-- The scope keeps its exporter for what is recorded. -/
theorem Scope.Within.kept (h : scope.Within t traceId recorded) :
    (recorded && !t.closed scope.exporter) = recorded := by
  cases recorded with
  | false => rfl
  | true => rw [h.opened rfl]; rfl

theorem Scope.Within.outgoing (h : scope.Within t traceId recorded) (carried : Carried) :
    InTrace traceId recorded ((traceparentOf (scope.outgoing carried)).getD scope.context) ∧
      some ((traceparentOf (scope.outgoing carried)).getD scope.context).spanId ∈ scope.spans := by
  cases carried with
  | nothing =>
      exact ⟨h.context, by simp [Scope.spans, Scope.outgoing, traceparentOf, Lib.OrderedMap.get]⟩
  | handled =>
      obtain ⟨context, hread, hcontext, hid⟩ := h.metadata
      have hparent : (traceparentOf (scope.outgoing .handled)).getD scope.context = context := by
        rw [Scope.outgoing, hread, Option.getD_some]
      rw [hparent]
      exact ⟨hcontext, by simp [Scope.spans, hid]⟩
  | innermost =>
      have hparent : (traceparentOf (scope.outgoing .innermost)).getD scope.context =
          scope.innermost.carried := by
        rw [Scope.outgoing, h.innermost.read, Option.getD_some]
      rw [hparent]
      exact ⟨h.innermost.carried, by simp [Scope.spans, TraceContext.carried]⟩

/-- The scope of a handler. -/
theorem InTrace.within {span : Span} (h : InTrace traceId recorded span.context)
    (hopen : recorded = true → t.closed x = false) (metadata : Metadata) :
    (Telemetry.handlerScope x span metadata).Within t traceId recorded where
  context := h
  innermost := h
  metadata := ⟨span.context.carried, h.read metadata, h.carried, rfl⟩
  opened := hopen

theorem open_of_recorded (h : (recorded && !t.closed x) = true) : t.closed x = false := by
  simpa using (Bool.and_eq_true_iff.mp h).2

/-- Part of the work of the trace: started anywhere, it records a part of the tree. -/
def Telemetry.Records (t : Telemetry X) (traceId : Str) (recorded : Bool)
    (roots : List (Option Str)) (work : Telemetry.Work X) : Prop :=
  ∀ n, Recorded t traceId recorded roots n (work n).2 (work n).1

section Wrappers

variable {name : Str} {failed query : Bool} {commit : Option Bool} {parent : TraceContext}
    {kind : MessageKind}

theorem records_otlpHandler (ht : t.Readable) {next : Scope X → Telemetry.Work X}
    (hnext : ∀ scope recorded,
      scope.Within t traceId recorded → t.Records traceId recorded scope.spans (next scope))
    (hparent : Telemetry.parentOf kind metadata = some parent)
    (h : InTrace traceId recorded parent) :
    t.Records traceId recorded [some parent.spanId]
      (t.otlpHandler next x kind name failed commit metadata) := by
  intro n
  have hspan := h.startSpan (x := x) (n := n) ht
  have hinner := hnext _ _ (hspan.within open_of_recorded metadata) (n + 1)
  simp only [Telemetry.otlpHandler, hparent]
  refine (hinner.mono ?_).settle hparent (by simp) h.trace h.recorded hspan
  simp [Scope.spans, Telemetry.handlerScope, spanId_startSpan]

theorem records_otlpBus (ht : t.Readable) {next : Metadata → Telemetry.Work X}
    (hnext : ∀ metadata parent recorded,
      traceparentOf metadata = some parent → InTrace traceId recorded parent →
      t.Records traceId recorded [some parent.spanId] (next metadata))
    (hparent : traceparentOf metadata = some parent) (h : InTrace traceId recorded parent) :
    t.Records traceId recorded [some parent.spanId]
      (t.otlpBus next x query name failed metadata) := by
  intro n
  have hspan := h.startSpan (x := x) (n := n) ht
  have hinner := hnext _ _ _ (hspan.read metadata) hspan.carried (n + 1)
  simp only [Telemetry.otlpBus, hparent]
  refine hinner.below ?_ h (by simp)
  simp [TraceContext.carried, spanId_startSpan]

theorem records_operation (ht : t.Readable) (h : scope.Within t traceId recorded)
    (carried : Carried) {next : Metadata → Telemetry.Work X}
    (hnext : ∀ metadata parent recorded,
      traceparentOf metadata = some parent → InTrace traceId recorded parent →
      t.Records traceId recorded [some parent.spanId] (next metadata)) :
    t.Records traceId recorded scope.spans
      (t.operation next scope query failed (scope.outgoing carried)) := by
  intro n
  obtain ⟨hparent, hroot⟩ := h.outgoing carried
  have hspan := hparent.startSpan (x := scope.exporter) (n := n) ht
  have hinner := hnext _ _ _ (hspan.read (scope.outgoing carried)) hspan.carried (n + 1)
  refine hinner.below ?_ hparent hroot
  simp [TraceContext.carried, spanId_startSpan]

theorem records_timed (ht : t.Readable) (h : scope.Within t traceId recorded) (place : Place)
    {next : TraceContext → Telemetry.Work X}
    (hnext : ∀ context, InTrace traceId recorded context →
      t.Records traceId recorded [some scope.context.spanId, some scope.innermost.spanId,
        some context.spanId]
        (next context)) :
    t.Records traceId recorded scope.spans (t.timed next scope place name failed) := by
  intro n
  obtain ⟨hparent, hroot⟩ := h.at_ place
  have hspan := hparent.startSpan (x := scope.exporter) (n := n) ht
  rw [h.kept] at hspan
  have hinner := hnext _ hspan (n + 1)
  rw [← h.kept] at hinner
  refine hinner.below ?_ hparent hroot
  simp [Scope.spans, spanId_startSpan]

end Wrappers

/-! ## Acts -/

theorem parentOf_request (query : Bool) (metadata : Metadata) :
    Telemetry.parentOf (if query then .query else .command) metadata = traceparentOf metadata := by
  cases query <;> rfl

mutual
theorem records_perform (ht : t.Readable) : ∀ (act : Act X) (scope : Scope X) (recorded : Bool),
    scope.Within t traceId recorded → t.Records traceId recorded scope.spans (t.perform scope act)
  | .node (.span place name) failed under, scope, recorded, h => by
      rw [Telemetry.perform]
      refine records_timed ht h place fun context _ n => ?_
      exact (records_performAll ht under scope recorded h n).mono (by simp [Scope.spans])
  | .node (.run place name) failed under, scope, recorded, h => by
      rw [Telemetry.perform]
      refine records_timed ht h place fun context hcontext n => ?_
      have hrun : ({ scope with innermost := context } : Scope X).Within t traceId recorded :=
        { h with innermost := hcontext }
      exact (records_performAll ht under _ recorded hrun n).mono (by simp [Scope.spans])
  | .node (.send query name carried bus receiver commit) failed under, scope, recorded, h => by
      have hhandler : ∀ metadata parent recorded, traceparentOf metadata = some parent →
          InTrace traceId recorded parent →
            t.Records traceId recorded [some parent.spanId] (t.otlpHandler
            (fun scope => t.performAll scope under) receiver (if query then .query else .command)
              name failed commit
            metadata) :=
        fun metadata parent recorded hread hparent => records_otlpHandler ht
          (fun scope recorded h => records_performAll ht under scope recorded h)
          ((parentOf_request query metadata).trans hread) hparent
      cases bus with
      | none =>
          rw [Telemetry.perform]
          exact records_operation ht h carried hhandler
      | some x =>
          rw [Telemetry.perform]
          exact records_operation ht h carried fun _ _ _ hread hparent =>
            records_otlpBus ht hhandler hread hparent

theorem records_performAll (ht : t.Readable) :
    ∀ (acts : List (Act X)) (scope : Scope X) (recorded : Bool),
    scope.Within t traceId recorded →
      t.Records traceId recorded scope.spans (t.performAll scope acts)
  | [], scope, recorded, h => by
      rw [Telemetry.performAll]
      exact fun n => recorded_nil n
  | act :: acts, scope, recorded, h => by
      rw [Telemetry.performAll]
      exact fun n =>
        (records_perform ht act scope recorded h n).append
        (records_performAll ht acts scope recorded h _)
end

/-- All that is recorded of the handling of a message is one trace, in which every span is under
another that is recorded or under the one the message came with; it is recorded whole when the
decision at its root says so and no exporter is closed, and not at all when it says otherwise. -/
theorem trace_is_recorded_whole_or_not_at_all (ht : t.Readable) (x : X) (kind : MessageKind)
    (name : Str) (failed : Bool) (commit : Option Bool) (acts : List (Act X))
    (metadata : Metadata) (n : ℕ) :
    let parent := Telemetry.parentOf kind metadata
    let out := (t.handle x kind name failed commit acts metadata n).1
    let m := (t.handle x kind name failed commit acts metadata n).2
    (∀ r ∈ out, r.traceId = t.traceOf n parent ∧
      (r.parentSpanId = parent.map (·.spanId) ∨ ∃ q ∈ out, r.parentSpanId = some q.spanId)) ∧
    (t.decision x n parent = false → out = []) ∧
    (t.decision x n parent = true → (∀ x, t.closed x = false) →
      (out.map (·.spanId)).Perm ((List.range' n (m - n)).map t.spanId)) := by
  have hvalid : ∀ p ∈ Telemetry.parentOf kind metadata, p.Valid := by
    intro p hp
    unfold Telemetry.parentOf at hp
    split_ifs at hp
    · cases hp
    · exact (traceparentOf_eq_some.mp hp).1
  have hspan := inTrace_startSpan ht x n hvalid
  have hinner := records_performAll ht acts _ _ (hspan.within open_of_recorded metadata) (n + 1)
  have hwhole : Recorded t _ _ [(Telemetry.parentOf kind metadata).map (·.spanId)] n
      (t.handle x kind name failed commit acts metadata n).2
        (t.handle x kind name failed commit acts metadata n).1 :=
    (hinner.mono (by simp [Scope.spans, Telemetry.handlerScope, spanId_startSpan])).settle rfl
      List.mem_cons_self rfl rfl hspan
  refine ⟨fun r hr => ⟨hwhole.trace r hr, ?_⟩, hwhole.nothing, hwhole.whole⟩
  exact (hwhole.parents r hr).imp_left List.mem_singleton.mp

/-- A one, and the last `width` bits of a number. -/
def bits : ℕ → ℕ → Str
  | 0, _ => [49]
  | width + 1, n => bits width (n / 2) ++ [if n % 2 = 1 then 49 else 48]

theorem isHex_bits (width n : ℕ) : IsHex (width + 1) (bits width n) ∧
    ∃ more, bits width n = 49 :: more := by
  induction width generalizing n with
  | zero => exact ⟨⟨rfl, rfl⟩, [], rfl⟩
  | succ width ih =>
      obtain ⟨⟨hlength, hdigits⟩, more, hmore⟩ := ih (n / 2)
      refine ⟨⟨?_, ?_⟩, _, congrArg (· ++ _) hmore⟩
      · rw [bits, List.length_append, hlength, List.length_singleton]
      · rw [bits, List.all_append, hdigits, Bool.true_and]
        split_ifs <;> rfl

theorem bits_ne_zeros (width n : ℕ) : bits width n ≠ List.replicate (width + 1) 48 := by
  obtain ⟨-, more, hmore⟩ := isHex_bits width n
  rw [hmore]
  intro h
  cases h

/-- Two processes that record every trace; ids are numbers. -/
def twoProcesses : Telemetry Bool where
  closed := fun _ => false
  sample := fun _ _ => true
  traceId := bits 31
  spanId := bits 15

theorem readable_twoProcesses : twoProcesses.Readable where
  trace := fun n => ⟨(isHex_bits 31 n).1, bits_ne_zeros 31 n⟩
  span := fun n => ⟨(isHex_bits 15 n).1, bits_ne_zeros 15 n⟩

/-- A command whose handler loads a state and sends a command through a traced bus; the handler of
that one fails, in the other process. -/
def loadsAndSends : List (Act Bool) :=
  [.node (.span .handler (ascii "ctx.load")) false [],
    .node (.send false (ascii "orders.Ship") .handled (some true) false none) true []]

/-- Six spans, each with an id of its own. -/
theorem command_through_bus_is_one_trace :
    let out :=
      (twoProcesses.handle true .command (ascii "orders.Place") false
      (some false) loadsAndSends [] 0).1
    (out.map (·.spanId)).Perm ((List.range' 0 6).map twoProcesses.spanId) ∧
      (out.map (·.spanId)).Nodup ∧
      ∀ r ∈ out, r.traceId = bits 31 0 ∧
        (r.parentSpanId = none ∨ ∃ q ∈ out, r.parentSpanId = some q.spanId) := by
  obtain ⟨htrace, -, hwhole⟩ :=
    trace_is_recorded_whole_or_not_at_all readable_twoProcesses true .command
    (ascii "orders.Place") false (some false) loadsAndSends [] 0
  exact ⟨hwhole rfl fun _ => rfl, by decide +kernel, htrace⟩

end Kronos.Otlp.Tracing
