import Kronos.Otlp.FlushChain

/-!
# Telemetry is exported or accounted for

What a counter series was given is what the batches taken so far say of it and
what it holds; a batch with metrics is the last of its flush. As long as no
report throws, every flush comes to its end and takes all there is, so what was
accepted before it is posted, or its loss is.
-/
namespace Kronos.Otlp.Exporter
open Kronos.Lib Kronos.Lib.Transition
open Utf8 (Str)
open JsonText (ascii)

variable {B : Type} {options : Options} {s t : State B} {key : Str}

/-! ## Counters -/

/-- The batches say what the first `n` additions were, which those before every settled
flush are among. -/
structure State.UpTo (s : State B) (batches : List (Batch B)) (n : ℕ) : Prop where
  le : n ≤ s.given.length
  settled : ∀ flush ∈ s.settled, flush.additions ≤ n
  values : ∀ key, s.Counted key → valueIn key batches = total key (s.given.take n)

structure Summed (s : State B) : Prop where
  sums : ∀ key, valueOf s.sums key = total key s.window.added
  reports : ∀ batch ∈ s.batches, batch.Reports
  waiting : ∀ call ∈ s.waiting, call.additions ≤ s.given.length
  held : ∀ key, s.Counted key → valueIn key s.batches + valueOf s.sums key = total key s.given
  posted : ∃ n, s.UpTo s.exports n
  taken : ∃ n, s.UpTo s.batches n ∧ ∀ call rest, s.running = some (call, rest) → call.additions ≤ n
  order : ∀ batch ∈ s.rest.dropLast, ∀ key, batch.value key = 0

/-- What the counters do not depend on. -/
theorem Summed.records {spans logs accepted lost : List (Record B)}
    {histograms seriesPerMetric : List (Str × ℕ)} {dropped : Dropped} {reportedUnbounded : List Str}
    {closed : Bool} {openSpans : List ℕ} {nextSpan nextSerial refused : ℕ} {threw : Bool}
    (h : Summed s) :
    Summed
      { s with
        spans := spans
        logs := logs
        histograms := histograms
        dropped := dropped
        seriesPerMetric := seriesPerMetric
        reportedUnbounded := reportedUnbounded
        closed := closed
        openSpans := openSpans
        nextSpan := nextSpan
        nextSerial := nextSerial
        accepted := accepted
        window := { s.window with lost := lost, refused := refused }
        threw := threw } where
  sums := h.sums
  reports := h.reports
  waiting := h.waiting
  held := h.held
  posted := let ⟨n, hle, hsettled, hvalues⟩ := h.posted; ⟨n, hle, hsettled, hvalues⟩
  taken := let ⟨n, ⟨hle, hsettled, hvalues⟩, hrunning⟩ :=
    h.taken; ⟨n, ⟨hle, hsettled, hvalues⟩, hrunning⟩
  order := h.order

theorem counted_of_note {k : Str} {value : ℤ} {taken : Bool}
    (h : (s.noteAddition k value taken).Counted key) :
    s.Counted key ∧ (taken = false → key ≠ k) := by
  obtain ⟨hrefused, hown⟩ := h
  have hnot := mt List.mem_append.mpr hrefused
  refine ⟨⟨fun hmem => hnot (.inl hmem), hown⟩, ?_⟩
  rintro rfl rfl
  exact hnot (.inr (List.mem_singleton_self _))

theorem upTo_note {batches : List (Batch B)} {n : ℕ} {k : Str} {value : ℤ} {taken : Bool}
    (h : s.UpTo batches n) :
    (s.noteAddition k value taken).UpTo batches n where
  le := by
    show n ≤ (s.given ++ [_]).length
    rw [List.length_append]
    exact Nat.le_trans h.le (Nat.le_add_right _ _)
  settled := h.settled
  values := by
    intro key hkey
    show _ = total key ((s.given ++ [_]).take n)
    rw [List.take_append_of_le_length h.le]
    exact h.values key (counted_of_note hkey).1

/-- An addition of the host, taken into its series or refused. -/
theorem Summed.note {k : Str} {value : ℤ} {taken : Bool} {sums : List (Str × SumSeries)}
    (h : Summed s)
    (hsums : ∀ key, valueOf sums key = valueOf s.sums key + if taken ∧ key = k then value else 0) :
    Summed (State.noteAddition { s with sums := sums } k value taken) := by
  constructor
  case sums =>
    intro key
    show valueOf sums key = total key (s.window.added ++ _)
    rw [hsums, h.sums, total_append]
    cases taken with
    | false => simp [total]
    | true => simp [total, eq_comm]
  case reports => exact h.reports
  case waiting =>
    intro call hcall
    show _ ≤ (s.given ++ [_]).length
    rw [List.length_append]
    exact Nat.le_trans (h.waiting call hcall) (Nat.le_add_right _ _)
  case held =>
    intro key hkey
    obtain ⟨hcounted, hrefused⟩ := counted_of_note hkey
    have hheld := h.held key hcounted
    show valueIn key s.batches + valueOf sums key = total key (s.given ++ [_])
    rw [total_append, total_singleton, ← hheld, hsums, Int.add_assoc]
    cases taken with
    | false => simp [hrefused rfl, (hrefused rfl).symm]
    | true => simp [eq_comm]
  case posted =>
    obtain ⟨n, hn⟩ := h.posted
    have hsame : State.UpTo { s with sums := sums } s.exports n := ⟨hn.le, hn.settled, hn.values⟩
    exact ⟨n, upTo_note hsame⟩
  case taken =>
    obtain ⟨n, hn, hrunning⟩ := h.taken
    have hsame : State.UpTo { s with sums := sums } s.batches n := ⟨hn.le, hn.settled, hn.values⟩
    exact ⟨n, upTo_note hsame, hrunning⟩
  case order => exact h.order

theorem droppedTo_of_counted (h : s.Counted key) (drops : Signal → ℕ) :
    droppedTo drops key = 0 := by
  simp [droppedTo, h.2 .traces, h.2 .logs, h.2 .metrics]

theorem droppedTo_congr {drops drops' : Signal → ℕ} (h : ∀ signal, drops signal = drops' signal) :
    droppedTo drops key = droppedTo drops' key := by
  simp only [droppedTo, h]

theorem valueIn_plain (s : State B) : valueIn key (plain s) = 0 :=
  valueIn_eq_zero fun _ h => (plain_cases h).2.1 key

/-- What the batches of a flush say of a series. -/
theorem Takes.values {batches : List (Batch B)} {window : Window B} (h : Takes s batches window)
    (key : Str) :
    valueIn key batches = valueOf s.sums key + droppedTo s.dropped.of key := by
  obtain ⟨sums, hvalues, ⟨rfl, _⟩ | ⟨rfl, _, rfl, _⟩⟩ := h
  · rw [valueIn_append, valueIn_plain, ← hvalues]
    simp [valueIn, Batch.value]
  · rw [valueIn_plain, ← hvalues]
    rfl

theorem Summed.drained {batches : List (Batch B)} {window : Window B} {call : Call} (h : Summed s)
    (hkept : Kept options s) (hidle : s.running = none) (htakes : Takes s batches window)
    (hcall : call.additions ≤ s.given.length) (seriesPerMetric : List (Str × ℕ)) :
    Summed { drained s seriesPerMetric window with running := some (call, batches) } := by
  have hvalues := htakes.values
  have hheld := h.held
  have htaken := h.taken
  rw [batches_of_idle hidle] at hheld htaken
  have hall : ∀ key, s.Counted key → valueIn key (s.exports ++ batches) = total key s.given := by
    intro key hkey
    rw [valueIn_append, hvalues, droppedTo_of_counted hkey, Int.add_zero, hheld key hkey]
  constructor
  case sums =>
    intro key
    show 0 = total key window.added
    obtain ⟨sums, hsums, ⟨_, rfl⟩ | ⟨_, rfl, rfl, hzero⟩⟩ := htakes
    · rfl
    · have hkey := hsums key
      rw [h.sums, droppedTo_congr hzero] at hkey
      simpa [droppedTo, valueOf, OrderedMap.get] using hkey
  case reports =>
    intro batch hbatch
    rcases List.mem_append.mp hbatch with hold | hnew
    · exact h.reports batch (List.mem_append_left _ hold)
    · obtain ⟨sums, hsums, ⟨rfl, _⟩ | ⟨rfl, _⟩⟩ := htakes
      · rcases List.mem_append.mp hnew with hplain | hmetrics
        · exact (plain_cases hplain).2.2
        · rw [List.mem_singleton.mp hmetrics]
          intro key
          rw [hsums, h.sums, droppedTo_congr hkept.drops]
      · exact (plain_cases hnew).2.2
  case waiting => exact h.waiting
  case held =>
    intro key hkey
    show valueIn key (s.exports ++ batches) + 0 = total key s.given
    rw [hall key hkey, Int.add_zero]
  case posted =>
    obtain ⟨n, hn⟩ := h.posted
    exact ⟨n, hn.le, hn.settled, hn.values⟩
  case taken =>
    obtain ⟨n, hn, _⟩ := htaken
    refine ⟨s.given.length, ⟨Nat.le_refl _, ?_, ?_⟩, ?_⟩
    · exact fun flush hflush => Nat.le_trans (hn.settled flush hflush) hn.le
    · intro key hkey
      show valueIn key (s.exports ++ batches) = total key (s.given.take s.given.length)
      rw [List.take_length, hall key hkey]
    · intro call' rest hrunning
      cases hrunning
      exact hcall
  case order =>
    intro batch hbatch key
    have hmem : batch ∈ batches.dropLast := hbatch
    obtain ⟨sums, _, ⟨rfl, _⟩ | ⟨rfl, _⟩⟩ := htakes
    · rw [List.dropLast_concat] at hmem
      exact (plain_cases hmem).2.1 key
    · exact (plain_cases (List.dropLast_subset _ hmem)).2.1 key

theorem Summed.postNext {batches : List (Batch B)} {call : Call} (h : Summed s)
    (hrunning : s.running = some (call, batches)) : Summed (s.postNext call batches) := by
  have hbatches := batches_of_running hrunning
  have hrest : s.rest = batches := by rw [State.rest, hrunning]; rfl
  have hreports := h.reports
  have hheld := h.held
  have horder := h.order
  obtain ⟨n, hn, hcalls⟩ := h.taken
  have hcall := hcalls call batches hrunning
  rw [hbatches] at hreports hheld hn
  rw [hrest] at horder
  cases batches with
  | nil =>
      rw [List.append_nil] at hreports hheld hn
      have hidle : (s.postNext call []).batches = s.exports := batches_of_idle rfl
      have hupTo : (s.postNext call []).UpTo s.exports n := by
        refine ⟨hn.le, fun flush hflush => ?_, hn.values⟩
        rcases List.mem_append.mp hflush with hold | hnew
        · exact hn.settled flush hold
        · rw [List.mem_singleton.mp hnew]
          exact hcall
      constructor
      case sums => exact h.sums
      case reports =>
        rw [hidle]
        exact hreports
      case waiting => exact h.waiting
      case held =>
        rw [hidle]
        exact hheld
      case posted => exact ⟨n, hupTo⟩
      case taken =>
        refine ⟨n, hidle ▸ hupTo, fun call' rest' hrunning' => ?_⟩
        cases hrunning'
      case order =>
        intro other hother
        cases hother
  | cons batch rest =>
      have hsame : (s.postNext call (batch::rest)).batches = s.exports ++ batch::rest := by
        show (s.exports ++ [batch]) ++ rest = _
        simp
      have hupTo : (s.postNext call (batch::rest)).UpTo (s.exports ++ batch::rest) n :=
        ⟨hn.le, hn.settled, hn.values⟩
      constructor
      case sums => exact h.sums
      case reports =>
        rw [hsame]
        exact hreports
      case waiting => exact h.waiting
      case held =>
        rw [hsame]
        exact hheld
      case posted =>
        show ∃ m, (s.postNext call (batch::rest)).UpTo (s.exports ++ [batch]) m
        cases hrest' : rest with
        | nil => exact ⟨n, hrest' ▸ hupTo⟩
        | cons other others =>
            obtain ⟨m, hm⟩ := h.posted
            refine ⟨m, hm.le, hm.settled, fun key hkey => ?_⟩
            have hzero : batch.value key = 0 := by
              refine horder batch ?_ key
              rw [hrest']
              exact List.mem_cons_self
            show valueIn key (s.exports ++ [batch]) = total key (s.given.take m)
            rw [valueIn_append, ← hm.values key hkey]
            simp [valueIn, hzero]
      case taken =>
        refine ⟨n, hsame ▸ hupTo, fun call' rest' hrunning' => ?_⟩
        cases hrunning'
        exact hcall
      case order =>
        intro other hother
        have hmem : other ∈ rest.dropLast := hother
        refine horder other ?_
        cases rest with
        | nil => cases hmem
        | cons next others => exact List.mem_cons_of_mem _ hmem

/-! ## Runs -/

/-- No flush was rejected, and no call threw. -/
structure Calm (s : State B) : Prop where
  resolves : ∀ flush ∈ s.settled, flush.resolved = true
  silent : s.threw = false

structure Good (options : Options) (s : State B) : Prop where
  calm : Calm s
  kept : Kept options s
  summed : Summed s

theorem Calm.postNext {batches : List (Batch B)} {call : Call} (h : Calm s) :
    Calm (s.postNext call batches) := by
  cases batches with
  | nil =>
      refine ⟨fun flush hflush => ?_, h.silent⟩
      rcases List.mem_append.mp hflush with hold | hnew
      · exact h.resolves flush hold
      · rw [List.mem_singleton.mp hnew]
  | cons batch rest => exact ⟨h.resolves, h.silent⟩

theorem Good.postNext {batches : List (Batch B)} {call : Call} (h : Good options s)
    (hrunning : s.running = some (call, batches)) : Good options (s.postNext call batches) :=
  ⟨h.calm.postNext, h.kept.postNext hrunning, h.summed.postNext hrunning⟩

theorem postNext_running (s : State B) (call : Call) (batches : List (Batch B)) :
    s.postNext call batches =
      State.postNext { s with running := some (call, batches) } call batches := by
  cases batches <;> rfl

theorem Good.frame {closed : Bool} {openSpans : List ℕ} {nextSpan : ℕ} (h : Good options s) :
    Good options { s with closed := closed, openSpans := openSpans, nextSpan := nextSpan } :=
  ⟨⟨h.calm.resolves, h.calm.silent⟩, h.kept.metrics, h.summed.records⟩

theorem Good.startSpan (h : Good options s) (sampled : Bool) :
    Good options (s.startSpan sampled) := by
  unfold State.startSpan
  split
  · exact h
  · exact h.frame

theorem Good.endSpan (h : Good options s) (span : ℕ) (body : B)
    (hmax : (span ∉ s.openSpans ∨ s.closed = true) ∨ 1 ≤ options.maxBufferedSpans) :
    Good options (s.endSpan options span body) := by
  have hended : Good options { s with openSpans := s.openSpans.filter (· ≠ span) } := h.frame
  unfold State.endSpan
  split
  · exact h
  · rename_i hopen
    simp only
    split
    · exact hended
    · rename_i hclosed
      obtain ⟨hkept, hroom⟩ := hended.kept.makeRoomForSpan
        (hmax.resolve_left fun hidle => hidle.elim hopen hclosed)
      exact ⟨⟨h.calm.resolves, h.calm.silent⟩, hkept.pushSpan hroom body, h.summed.records⟩

theorem Good.emitLog (h : Good options s) (body : B) (encodes : Bool)
    (hmax : s.closed = true ∨ 1 ≤ options.maxBufferedLogs) :
    Good options (s.emitLog options body encodes) := by
  unfold State.emitLog
  by_cases hclosed : s.closed = true
  · rw [if_pos hclosed]
    exact h
  rw [if_neg hclosed]
  obtain ⟨hkept, hroom⟩ := h.kept.makeRoomForLog (hmax.resolve_left hclosed)
  split_ifs
  · exact ⟨⟨h.calm.resolves, h.calm.silent⟩, hkept.pushLog hroom body, h.summed.records⟩
  · exact ⟨⟨h.calm.resolves, h.calm.silent⟩, hkept, h.summed.records⟩

/-- What the report of a refusal may leave behind when it does not throw. -/
theorem silent_of_spared {throws threw : Bool} (h : Calm s)
    (hspared : (options.onExportError && throws) = false)
    (hthrew : threw = true → s.threw = true ∨ (options.onExportError && throws) = true) :
    threw = false := by
  cases threw with
  | false => rfl
  | true => simpa [h.silent, hspared] using hthrew rfl

theorem Good.addCount {m : Measurement} {throws : Bool} (h : Good options s)
    (hsilent : (options.onExportError && throws) = false)
    (hsafe : Binary64.Safe (valueOf s.sums m.key + m.value)) :
    Good options
      ((s.addCount options m throws).2.noteAddition m.key m.value
      (s.addCount options m throws).1) := by
  rcases addCount_cases options s m throws with
    ⟨seriesPerMetric, heq⟩ | ⟨reportedUnbounded, threw, hthrew, heq⟩ | heq
  · rw [heq]
    refine ⟨⟨h.calm.resolves, h.calm.silent⟩, h.kept.metrics, ?_⟩
    have hrecords : Summed { s with seriesPerMetric := seriesPerMetric } := h.summed.records
    have hsums : ∀ key, valueOf (credited s.sums m) key =
        valueOf s.sums key + if true ∧ key = m.key then m.value else 0 := by
      intro key
      simpa using valueOf_credited hsafe
    exact hrecords.note hsums
  · rw [heq]
    have hquiet := silent_of_spared h.calm hsilent hthrew
    refine ⟨⟨h.calm.resolves, hquiet⟩, h.kept.refuse.metrics, ?_⟩
    have hrecords : Summed (refused s reportedUnbounded threw) := h.summed.records
    exact hrecords.note fun key => by simp [refused]
  · rw [heq]
    exact ⟨⟨h.calm.resolves, h.calm.silent⟩, h.kept.metrics, h.summed.note fun key => by simp⟩

theorem Good.recordHistogram {m : Measurement} {throws : Bool} (h : Good options s)
    (hsilent : (options.onExportError && throws) = false) :
    Good options (s.recordHistogram options m throws) := by
  rcases recordHistogram_cases options s m throws with
    ⟨histograms, seriesPerMetric, heq⟩ | ⟨reportedUnbounded, threw, hthrew, heq⟩
  · rw [heq]
    exact ⟨⟨h.calm.resolves, h.calm.silent⟩, h.kept.metrics, h.summed.records⟩
  · rw [heq]
    exact ⟨⟨h.calm.resolves, silent_of_spared h.calm hsilent hthrew⟩, h.kept.refuse,
      h.summed.records⟩

theorem Good.withWaiting {waiting : List Call} (h : Good options s)
    (hwaiting : ∀ call ∈ waiting, call.records ≤ s.nextSerial ∧ call.additions ≤ s.given.length) :
    Good options { s with waiting := waiting } := by
  obtain ⟨⟨hresolves, hsilent⟩, hkept, hsums, hreports, _, hheld, ⟨n, hn⟩, ⟨m, hm, hcalls⟩,
      horder⟩ := h
  refine ⟨⟨hresolves, hsilent⟩, { hkept with waiting := fun call hcall => (hwaiting call hcall).1 },
    ?_⟩
  exact ⟨hsums, hreports, fun call hcall => (hwaiting call hcall).2, hheld,
    ⟨n, hn.le, hn.settled, hn.values⟩,
    ⟨m, ⟨hm.le, hm.settled, hm.values⟩, hcalls⟩, horder⟩

theorem Good.flush (h : Good options s) : Good options s.flush := by
  refine h.withWaiting fun call hcall => ?_
  rcases List.mem_append.mp hcall with hold | hnew
  · exact ⟨h.kept.waiting call hold, h.summed.waiting call hold⟩
  · rw [List.mem_singleton.mp hnew]
    exact ⟨Nat.le_refl _, Nat.le_refl _⟩

/-- The chain never finds a rejected promise, and a flush takes all there is. -/
theorem Good.startFlush (h : Good options s)
    (hmetrics : ∀ signal, options.metrics = true ∨ s.dropped.of signal = 0)
    (hsafe : ∀ signal, Binary64.Safe (valueOf s.sums (droppedKey signal) + s.dropped.of signal))
    (hstart : s.startFlush options = some t) : Good options t := by
  cases hidle : s.running with
  | some run => simp [State.startFlush, hidle] at hstart
  | none =>
      cases hwaiting : s.waiting with
      | nil => simp [State.startFlush, hwaiting] at hstart
      | cons call rest =>
          have hresolved : ¬s.pendingRejected = true := by
            rw [State.pendingRejected, List.any_eq_true]
            rintro ⟨flush, hflush, hrejected⟩
            simp [h.calm.resolves flush hflush] at hrejected
          have hrest : Good options { s with waiting := rest } := by
            refine h.withWaiting fun other hother => ?_
            have hmem : other ∈ s.waiting := hwaiting ▸ List.mem_cons_of_mem _ hother
            exact ⟨h.kept.waiting other hmem, h.summed.waiting other hmem⟩
          have hmem : call ∈ s.waiting := hwaiting ▸ List.mem_cons_self
          obtain ⟨seriesPerMetric, window, heq, htakes⟩ :=
            drain_spec { s with waiting := rest } hmetrics hsafe
          rw [startFlush_eq hidle hwaiting, if_neg hresolved] at hstart
          cases hstart
          rw [heq, postNext_running]
          refine Good.postNext ⟨⟨h.calm.resolves, h.calm.silent⟩, ?_, ?_⟩ rfl
          · exact hrest.kept.drained hidle htakes (h.kept.waiting call hmem) seriesPerMetric
          · exact hrest.summed.drained hrest.kept hidle htakes
              (h.summed.waiting call hmem) seriesPerMetric

theorem good_step {action : Action B} (h : Good options s)
    (hspared : spared options s action = true) (hstep : step options s action = some t) :
    Good options t := by
  cases action with
  | startSpan sampled =>
      cases hstep
      exact h.startSpan sampled
  | endSpan span body =>
      cases hstep
      simp only [spared, Bool.or_eq_true, decide_eq_true_eq] at hspared
      exact h.endSpan span body hspared
  | emitLog body encodes =>
      cases hstep
      simp only [spared, Bool.or_eq_true, decide_eq_true_eq] at hspared
      exact h.emitLog body encodes hspared
  | addCount m throws =>
      cases hstep
      simp only [spared, Bool.and_eq_true, Bool.not_eq_true', decide_eq_true_eq] at hspared
      exact h.addCount hspared.1 hspared.2
  | recordHistogram m throws =>
      cases hstep
      simp only [spared, Bool.not_eq_true'] at hspared
      exact h.recordHistogram hspared
  | flush =>
      cases hstep
      exact h.flush
  | close =>
      cases hstep
      have hclosed : Good options { s with closed := true } := h.frame
      exact hclosed.flush
  | startFlush =>
      have hall : ∀ signal, (options.metrics = true ∨ s.dropped.of signal = 0) ∧
          Binary64.Safe (valueOf s.sums (droppedKey signal) + s.dropped.of signal) := by
        intro signal
        have hsignal := List.all_eq_true.mp hspared signal (by cases signal <;> simp)
        simpa only [Bool.and_eq_true, Bool.or_eq_true, decide_eq_true_eq] using hsignal
      exact h.startFlush (fun signal => (hall signal).1) (fun signal => (hall signal).2) hstep
  | postEnds outcome throws =>
      simp only [step] at hstep
      split at hstep
      case h_1 => cases hstep
      case h_2 call rest hrunning =>
        simp only [spared, Bool.not_eq_true'] at hspared
        simp only [hspared, Bool.false_eq_true, if_false] at hstep
        cases hstep
        exact h.postNext hrunning

theorem good_initial : Good options (initial B) where
  calm := ⟨nofun, rfl⟩
  kept :=
    { spans := Nat.zero_le _
      logs := Nat.zero_le _
      serials := nofun
      once := List.nodup_nil
      places := List.Perm.refl _
      spanSignals := nofun
      logSignals := nofun
      lostSignals := nofun
      drops := fun signal => by cases signal <;> rfl
      waiting := nofun
      running := nofun
      settled := nofun }
  summed :=
    { sums := fun _ => rfl
      reports := nofun
      waiting := nofun
      held := fun _ _ => rfl
      posted := ⟨0, Nat.le_refl _, nofun, fun _ _ => rfl⟩
      taken := ⟨0, ⟨Nat.le_refl _, nofun, fun _ _ => rfl⟩, nofun⟩
      order := nofun }

theorem good_of_reach
    (h : Reach (step options) (fun s a => spared options s a = true) (initial B) s) :
    Good options s :=
  h.invariant good_initial fun _ _ _ _ hgood hspared hstep => good_step hgood hspared hstep

theorem Good.accounted (h : Good options s) : Accounted options s where
  resolves := h.calm.resolves
  silent := h.calm.silent
  spans := h.kept.spans
  logs := h.kept.logs
  once := h.kept.once
  places := by
    have hplaces := h.kept.places
    rw [State.batches, List.flatMap_append, List.flatMap_append] at hplaces
    refine hplaces.trans (List.Perm.append_right _ ?_)
    simp only [List.append_assoc]
    refine List.Perm.append_left _ ?_
    exact List.perm_append_comm_assoc _ _ _
  flushed := fun flush hflush => (h.kept.settled flush hflush).2
  reports := fun batch hbatch => h.summed.reports batch (List.mem_append_left _ hbatch)
  series := let ⟨n, hn⟩ := h.summed.posted; ⟨n, hn.settled, hn.values⟩
  held := by
    intro key hkey
    rw [← h.summed.held key hkey, State.batches, valueIn_append, Int.add_assoc]

/-- While no report throws, the sums are safe, and there is room and a metric where they are needed,
telemetry is exported or accounted for. -/
theorem telemetry_accounted
    (h : Reach (step options) (fun s a => spared options s a = true) (initial B) s) :
    Accounted options s :=
  (good_of_reach h).accounted

/-- A counter `n` of 3 and 4 in two flushes, with room for one span. -/
theorem one_span_lost_and_counted :
    ∃ s : State Char,
        Reach (step ⟨1, 1, 1, true, true⟩) (fun s a => spared ⟨1, 1, 1, true, true⟩ s a = true)
        (initial Char) s ∧ Accounted ⟨1, 1, 1, true, true⟩ s ∧
      s.exports.flatMap Batch.records = [⟨.traces, 1, 'b'⟩] ∧
        s.exports.flatMap Batch.lost = [⟨.traces, 0, 'a'⟩] ∧
      valueIn (droppedKey .traces) s.exports = 1 ∧ valueIn (seriesKey [110] [49] []) s.exports = 7 ∧
      s.settled = [⟨⟨2, 1⟩, true⟩, ⟨⟨2, 2⟩, true⟩] := by
  obtain ⟨s, hreach, hrecords, hlost, hdropped, hcounter, hsettled⟩ :=
    reach_guarded_any (s := initial Char)
    (P := fun s => s.exports.flatMap Batch.records = [⟨.traces, 1, 'b'⟩] ∧
      s.exports.flatMap Batch.lost = [⟨.traces, 0, 'a'⟩] ∧
        valueIn (droppedKey .traces) s.exports = 1 ∧
      valueIn (seriesKey [110] [49] []) s.exports = 7 ∧ s.settled = [⟨⟨2, 1⟩, true⟩,
        ⟨⟨2, 2⟩, true⟩])
    (show ((exec (guarded (step ⟨1, 1, 1, true, true⟩) fun s a =>
      spared ⟨1, 1, 1, true, true⟩ s a = true)
      (initial Char)
      [.startSpan true, .startSpan true, .endSpan 0 'a', .endSpan 1 'b',
        .addCount ⟨[110], 3, none, none, []⟩ false,
        .flush, .startFlush, .addCount ⟨[110], 4, none, none, []⟩ false,
          .postEnds .failed (false, false), .close,
        .postEnds .ok (false, false), .startFlush, .postEnds .notOk (true, false)]).any fun s =>
          decide _) = true by
      decide +kernel)
  exact ⟨s, hreach, telemetry_accounted hreach, hrecords, hlost, hdropped, hcounter,
    hsettled⟩

/-- A report that throws rejects its flush and the next one, which leaves its span where it is. -/
theorem later_flush_rejected :
    ∃ s : State Char, Reach (step ⟨10, 10, 10, true, true⟩) always (initial Char) s ∧
      s.settled = [⟨⟨1, 0⟩, false⟩, ⟨⟨2, 0⟩, false⟩] ∧ s.spans = [⟨.traces, 1, 'b'⟩] ∧
      ¬Accounted ⟨10, 10, 10, true, true⟩ s := by
  obtain ⟨s, hreach, hsettled, hspans⟩ := reach_exec_any (s := initial Char)
    (P := fun s => s.settled = [⟨⟨1, 0⟩, false⟩, ⟨⟨2, 0⟩, false⟩] ∧ s.spans = [⟨.traces, 1, 'b'⟩])
    (show ((exec (step ⟨10, 10, 10, true, true⟩) (initial Char)
      [.startSpan true, .endSpan 0 'a', .flush, .startFlush, .postEnds .failed (true, false),
        .startSpan true,
        .endSpan 1 'b', .flush, .startFlush]).any fun s => decide _) = true by decide +kernel)
  refine ⟨s, hreach, hsettled, hspans, fun haccounted => ?_⟩
  have hresolved := haccounted.resolves ⟨⟨1, 0⟩, false⟩ (by rw [hsettled]; exact List.mem_cons_self)
  cases hresolved

end Kronos.Otlp.Exporter
