import Mathlib.Algebra.Order.Ring.Int
import Mathlib.Tactic.Common
import Kronos.EventSourcing.InMemory

/-!
# Decisions over the in-memory store are consistent

A marker is the last position of the whole log when the read was made, so a
read saw exactly the matching events of the part of the log up to its marker.
The log only grows, and that part with it stays. A flush that passes the check
has no match after any read's own marker: reading again at that moment returns
what the read returned.
-/
namespace Kronos.EventSourcing
open Kronos.Lib.Transition InMemoryEventStore

variable {P : Type} {store store' : InMemoryEventStore P} {info : SourcingInfo P}
  {s s' : State P}

/-- Positions count the log from zero. -/
structure Numbered (store : InMemoryEventStore P) : Prop where
  position : ∀ (i : ℕ) (entry : Entry P), store.events[i]? = some entry → entry.position = i
  next : store.nextPosition = store.events.length

/-- A read saw the matching part of the log up to its marker. -/
def Saw (events : List (Entry P)) (info : SourcingInfo P) : Prop :=
  ∃ k criteria, k ≤ events.length ∧ info.markerPosition = (k : ℤ) - 1 ∧
    compileQuery info.query = .ok criteria ∧
    info.events = ((events.take k).filter fun e => matchesCriteria e.event criteria).map Entry.event

theorem Saw.mono {events events' : List (Entry P)} (h : Saw events info)
    (hle : events <+: events') : Saw events' info := by
  obtain ⟨k, criteria, hk, hmarker, hquery, hevents⟩ := h
  obtain ⟨rest, rfl⟩ := hle
  refine ⟨k, criteria, ?_, hmarker, hquery, ?_⟩
  · rw [List.length_append]
    exact hk.trans (Nat.le_add_right _ _)
  · rw [List.take_append_of_le_length hk]
    exact hevents

theorem Numbered.push (h : Numbered store) (event : EventMessage P) :
    Numbered (store.push event) where
  position i entry hi := by
    simp only [InMemoryEventStore.push] at hi
    rcases Nat.lt_or_ge i store.events.length with hlt | hge
    · rw [List.getElem?_append_left hlt] at hi
      exact h.position i entry hi
    · rw [List.getElem?_append_right hge, List.getElem?_singleton] at hi
      split_ifs at hi with hzero
      cases hi
      show store.nextPosition = i
      rw [h.next]
      omega
  next := by
    simp only [InMemoryEventStore.push, List.length_append, List.length_singleton, h.next]

/-- Pushing events extends the log and keeps it numbered. -/
theorem Numbered.push_all (h : Numbered store) (newEvents : List (EventMessage P)) :
    Numbered (newEvents.foldl InMemoryEventStore.push store) ∧
      store.events <+: (newEvents.foldl InMemoryEventStore.push store).events := by
  induction newEvents generalizing store with
  | nil => exact ⟨h, List.prefix_refl _⟩
  | cons event newEvents ih =>
      obtain ⟨hnum, hpre⟩ := ih (h.push event)
      exact ⟨hnum, (List.prefix_append _ _).trans hpre⟩

theorem Numbered.globalMarker (h : Numbered store) :
    store.globalMarker = (store.events.length : ℤ) - 1 := by
  unfold InMemoryEventStore.globalMarker
  cases hlast : store.events.getLast? with
  | none =>
      rw [List.getLast?_eq_none_iff.mp hlast]
      rfl
  | some entry =>
      rw [List.getLast?_eq_getElem?] at hlast
      have hpos := h.position _ entry hlast
      obtain ⟨hlt, -⟩ := List.getElem?_eq_some_iff.mp hlast
      simp only [hpos]
      omega

theorem source_eq {query : EventQuery} {criteria : EventCriteria} (h : Numbered store)
    (hquery : compileQuery query = .ok criteria) :
    store.source query none = .ok
      ⟨(store.events.filter fun e => matchesCriteria e.event criteria).map Entry.event,
        (store.events.length : ℤ) - 1⟩ := by
  unfold InMemoryEventStore.source
  rw [hquery]
  have hall :
      (store.events.filter fun entry => decide ((none : Option ℕ).getD 0 ≤ entry.position)) =
      store.events := by
    simp
  change Except.ok (SourcingResult.mk _ _) = _
  rw [hall, h.globalMarker]

/-- A read that is issued now has seen the whole log. -/
theorem issue_saw (h : Numbered store) {query : EventQuery}
    (hissue : issue store query = .ok info) :
    Saw store.events info := by
  unfold issue at hissue
  cases hquery : compileQuery query with
  | error e =>
      have hsource : store.source query none = .error e := by
        unfold InMemoryEventStore.source
        rw [hquery]
        rfl
      rw [hsource] at hissue
      cases hissue
  | ok criteria =>
      rw [source_eq h hquery] at hissue
      cases hissue
      refine ⟨store.events.length, criteria, le_rfl, rfl, hquery, ?_⟩
      rw [List.take_length]

/-- With no match after its marker, a read made again returns what it returned. -/
theorem Saw.again (hnum : Numbered store) (h : Saw store.events info)
    (hquiet : ∀ criteria, compileQuery info.query = .ok criteria → ∀ entry ∈ store.events,
      info.markerPosition < entry.position → matchesCriteria entry.event criteria = false) :
    ∃ result, store.source info.query none = .ok result ∧ result.events = info.events := by
  obtain ⟨k, criteria, hk, hmarker, hquery, hevents⟩ := h
  refine ⟨_, source_eq hnum hquery, ?_⟩
  have hrest : (store.events.drop k).filter (fun e => matchesCriteria e.event criteria) = [] := by
    apply List.filter_eq_nil_iff.mpr
    intro entry hentry
    obtain ⟨i, hi⟩ := List.mem_iff_getElem?.mp hentry
    rw [List.getElem?_drop] at hi
    have hpos := hnum.position _ entry hi
    have hfalse := hquiet criteria hquery entry (List.mem_of_mem_drop hentry) (by omega)
    simp [hfalse]
  show ((store.events.filter fun e => matchesCriteria e.event criteria).map Entry.event) =
    info.events
  rw [hevents, ← List.take_append_drop k store.events, List.filter_append, hrest, List.append_nil,
    List.take_append_drop]

theorem refuseConflicts_eq_ok {condition : AppendCondition}
    (h : store.refuseConflicts condition = .ok ()) :
    ∃ checks, compileReads condition = .ok checks ∧ store.conflicting checks = [] := by
  unfold InMemoryEventStore.refuseConflicts at h
  cases hreads : compileReads condition with
  | error e =>
      rw [hreads] at h
      cases h
  | ok checks =>
      refine ⟨checks, rfl, ?_⟩
      rw [hreads] at h
      by_contra hne
      have hpos : 0 < (store.conflicting checks).length := List.length_pos_iff.mpr hne
      change (if 0 < (store.conflicting checks).length then _ else _) = _ at h
      rw [if_pos hpos] at h
      cases h

theorem foldl_earliest_le (infos : List (SourcingInfo P)) (m : ℤ) :
    infos.foldl (fun min s => if s.markerPosition < min then s.markerPosition else min) m ≤ m ∧
      ∀ info ∈ infos, infos.foldl
        (fun min s => if s.markerPosition < min then s.markerPosition else min) m ≤
          info.markerPosition := by
  induction infos generalizing m with
  | nil => exact ⟨le_rfl, fun _ h => by cases h⟩
  | cons first rest ih =>
      rw [List.foldl_cons]
      obtain ⟨hle, hrest⟩ := ih (if first.markerPosition < m then first.markerPosition else m)
      have hfirst : (if first.markerPosition < m then first.markerPosition else m) ≤ m ∧
          (if first.markerPosition < m then first.markerPosition else m) ≤
            first.markerPosition := by
        split_ifs with hlt
        · exact ⟨hlt.le, le_rfl⟩
        · exact ⟨le_rfl, not_lt.mp hlt⟩
      refine ⟨hle.trans hfirst.1, ?_⟩
      intro info hinfo
      rcases List.mem_cons.mp hinfo with rfl | hinfo
      · exact hle.trans hfirst.2
      · exact hrest info hinfo

/-- A flush after some reads has a condition, unless a query throws. -/
theorem flushCondition_cons {first : SourcingInfo P} {rest : List (SourcingInfo P)}
    {condition : Option AppendCondition} (h : flushCondition (first::rest) none = .ok condition) :
    ∃ items, (first::rest).mapM (fun s => queryItems s.query) = .ok items ∧
      condition = some ⟨.items items.flatten,
        (first::rest).foldl (fun min s => if s.markerPosition < min then s.markerPosition else min)
          first.markerPosition,
        some ((first::rest).map fun s => ⟨s.query, s.markerPosition⟩)⟩ := by
  unfold flushCondition at h
  cases hitems : (first::rest).mapM (fun s => queryItems s.query) with
  | error e =>
      simp only [hitems] at h
      cases h
  | ok items =>
      simp only [hitems] at h
      cases h
      exact ⟨items, rfl, rfl⟩

/-- The condition of a flush: the items of all reads, the earliest marker, and
each read with its own. -/
theorem flushCondition_eq_some {infos : List (SourcingInfo P)} {condition : AppendCondition}
    (h : flushCondition infos none = .ok (some condition)) :
    ∃ items, infos.mapM (fun s => queryItems s.query) = .ok items ∧
      condition.query = .items items.flatten ∧
      (∀ info ∈ infos, condition.marker ≤ info.markerPosition) ∧
      condition.reads = some (infos.map fun s => ⟨s.query, s.markerPosition⟩) := by
  cases infos with
  | nil => cases h
  | cons first rest =>
      obtain ⟨items, hitems, hcondition⟩ := flushCondition_cons h
      cases hcondition
      exact ⟨items, hitems, rfl, (foldl_earliest_le (first::rest) first.markerPosition).2, rfl⟩

theorem flushCondition_eq_none {infos : List (SourcingInfo P)}
    (h : flushCondition infos none = .ok none) : infos = [] := by
  cases infos with
  | nil => rfl
  | cons first rest =>
      obtain ⟨items, -, hno⟩ := flushCondition_cons h
      cases hno

/-- What the check of a passed flush says about each of its reads. -/
theorem reads_quiet {infos : List (SourcingInfo P)} {condition : AppendCondition}
    (hcond : flushCondition infos none = .ok (some condition))
    (hpassed : store.refuseConflicts condition = .ok ()) (hinfo : info ∈ infos)
    {criteria : EventCriteria} (hquery : compileQuery info.query = .ok criteria) :
    ∀ entry ∈ store.events, info.markerPosition < entry.position →
      matchesCriteria entry.event criteria = false := by
  obtain ⟨-, -, -, -, hreads⟩ := flushCondition_eq_some hcond
  obtain ⟨checks, hchecks, hnone⟩ := refuseConflicts_eq_ok hpassed
  intro entry hentry hlt
  have hread : (⟨info.query, info.markerPosition⟩ : AppendConditionRead) ∈
      condition.reads.getD [⟨condition.query, condition.marker⟩] := by
    rw [hreads, Option.getD_some]
    exact List.mem_map.mpr ⟨info, hinfo, rfl⟩
  obtain ⟨check, hcheck, heq⟩ := exists_of_mem_source hchecks hread
  simp only [hquery] at heq
  cases heq
  by_contra htrue
  rw [Bool.not_eq_false] at htrue
  have hin : entry ∈ store.conflicting checks := by
    refine List.mem_filter.mpr ⟨hentry, List.any_eq_true.mpr ⟨_, hcheck, ?_⟩⟩
    rw [Bool.and_eq_true, decide_eq_true_eq]
    exact ⟨hlt, htrue⟩
  rw [hnone] at hin
  cases hin

/-- What is claimed of one flush. -/
structure Consistent (f : Flush P) : Prop where
  reads : f.overridden = false → ∀ m, f.outcome = .ok m → ∀ info ∈ f.sourcingInfos,
    ∃ result, f.before.source info.query none = .ok result ∧ result.events = info.events
  refused : ∀ e, f.outcome = .error e → f.after = f.before

theorem append_spec (h : Numbered store) (newEvents : List (EventMessage P))
    (condition : Option AppendCondition) :
    Numbered (store.append newEvents condition).2 ∧
    store.events <+: (store.append newEvents condition).2.events ∧
    (∀ e, (store.append newEvents condition).1 = .error e →
      (store.append newEvents condition).2 = store) ∧
    ∀ m c, (store.append newEvents condition).1 = .ok m → condition = some c →
      store.refuseConflicts c = .ok () := by
  unfold InMemoryEventStore.append
  split
  · exact ⟨h, List.prefix_refl _, fun _ _ => rfl, fun m c hm _ => by cases hm⟩
  · rename_i hchecked
    obtain ⟨hnum, hpre⟩ := h.push_all newEvents
    refine ⟨hnum, hpre, ?_, ?_⟩
    · intro e he
      cases he
    · intro m c _ hc
      subst hc
      exact hchecked

theorem flush_spec {task : Task P} (override : Option (EventQuery → EventQuery))
    (h : Numbered store) (hsaw : ∀ info ∈ task.sourcingInfos, Saw store.events info) :
    Numbered (flush store task override).2 ∧ store.events <+: (flush store task override).2.events ∧
      ∀ outcome, (flush store task override).1 = some outcome →
        Consistent ⟨override.isSome, task.sourcingInfos, store, outcome,
          (flush store task override).2⟩ := by
  unfold flush
  split_ifs
  · exact ⟨h, List.prefix_refl _, fun _ ho => by cases ho⟩
  · split
    · refine ⟨h, List.prefix_refl _, fun outcome ho => ⟨fun _ m hm => ?_, fun _ _ => rfl⟩⟩
      cases ho
      cases hm
    · rename_i condition hcond
      obtain ⟨hnum, hpre, herror, hok⟩ := append_spec h task.buffered condition
      refine ⟨hnum, hpre, fun outcome ho => ⟨fun hover m hm info hinfo => ?_, fun e he => ?_⟩⟩
      · cases ho
        have hnone : override = none :=
          Option.isNone_iff_eq_none.mp (Option.isSome_eq_false_iff.mp hover)
        subst hnone
        cases hc : condition with
        | none =>
            rw [hc] at hcond
            have hin : info ∈ task.sourcingInfos := hinfo
            rw [flushCondition_eq_none hcond] at hin
            cases hin
        | some c =>
            rw [hc] at hcond
            have hpassed := hok m c hm hc
            apply (hsaw info hinfo).again h
            intro criteria hquery
            exact reads_quiet hcond hpassed hinfo hquery
      · cases ho
        exact herror e he

/-- What a task knows of the log. -/
structure TaskInv (events : List (Entry P)) (task : Task P) : Prop where
  awaiting : ∀ info ∈ task.awaiting, Saw events info
  recorded : ∀ info ∈ task.sourcingInfos, Saw events info
  cached : ∀ key info, (key, .ok info) ∈ task.stateCache → Saw events info

structure Inv (s : State P) : Prop where
  numbered : Numbered s.store
  tasks : ∀ i, TaskInv s.store.events (s.tasks i)
  flushes : ∀ f ∈ s.flushes, Consistent f

theorem TaskInv.await {events : List (Entry P)} {task : Task P}
    {result : Except String (SourcingInfo P)} (h : TaskInv events task)
    (hresult : ∀ info, result = .ok info → Saw events info) :
    TaskInv events (task.await result) := by
  cases result with
  | error e => exact h
  | ok info =>
      refine ⟨?_, h.recorded, h.cached⟩
      intro x hx
      rcases List.mem_append.mp hx with hx | hx
      · exact h.awaiting x hx
      · rw [List.mem_singleton.mp hx]
        exact hresult info rfl

theorem TaskInv.load {task : Task P} (hnum : Numbered store) (h : TaskInv store.events task)
    (key : String) (query : EventQuery) : TaskInv store.events (task.load store key query) := by
  have hissue : ∀ info, issue store query = .ok info → Saw store.events info :=
    fun info hinfo => issue_saw hnum hinfo
  unfold Task.load
  split
  · rename_i result hlookup
    apply h.await
    intro info hinfo
    rw [hinfo] at hlookup
    obtain ⟨before, after, hsplit, -⟩ := List.lookup_eq_some_iff.mp hlookup
    exact h.cached key info (by rw [hsplit]; exact List.mem_append_right _ List.mem_cons_self)
  · have hawait := h.await hissue
    refine ⟨hawait.awaiting, hawait.recorded, ?_⟩
    intro k info hmem
    rcases List.mem_cons.mp hmem with heq | hmem
    · exact hissue info (Prod.mk.inj heq).2.symm
    · exact h.cached k info hmem

theorem TaskInv.record {events : List (Entry P)} {task task' : Task P} {k : ℕ}
    (h : TaskInv events task) (hrec : task.record k = some task') : TaskInv events task' := by
  unfold Task.record at hrec
  obtain ⟨info, hinfo, hrec⟩ := Option.bind_eq_some_iff.mp hrec
  cases hrec
  refine ⟨fun x hx => h.awaiting x (List.mem_of_mem_eraseIdx hx), ?_, h.cached⟩
  intro x hx
  rcases List.mem_append.mp hx with hx | hx
  · exact h.recorded x hx
  · rw [List.mem_singleton.mp hx]
    exact h.awaiting info (List.mem_of_getElem? hinfo)

theorem Inv.setTask {i : ℕ} {task : Task P} (h : Inv s) (ht : TaskInv s.store.events task) :
    Inv (s.setTask i task) := by
  refine ⟨h.numbered, ?_, h.flushes⟩
  intro j
  by_cases hj : j = i
  · simpa only [State.setTask, if_pos hj] using ht
  · simpa only [State.setTask, if_neg hj] using h.tasks j

theorem Inv.step {a : Action P} (h : Inv s) (hstep : step s a = some s') : Inv s' := by
  cases a with
  | load i key query =>
      cases hstep
      exact h.setTask ((h.tasks i).load h.numbered key query)
  | source i query =>
      cases hstep
      exact h.setTask ((h.tasks i).await fun info hinfo => issue_saw h.numbered hinfo)
  | record i k =>
      obtain ⟨task, htask, rfl⟩ := Option.map_eq_some_iff.mp hstep
      exact h.setTask ((h.tasks i).record htask)
  | append i event =>
      simp only [EventSourcing.step] at hstep
      split_ifs at hstep
      cases hstep
      exact h.setTask ⟨(h.tasks i).awaiting, (h.tasks i).recorded, (h.tasks i).cached⟩
  | flush i override =>
      simp only [EventSourcing.step] at hstep
      split_ifs at hstep
      cases hstep
      obtain ⟨hnum, hpre, hcons⟩ := flush_spec override h.numbered (h.tasks i).recorded
      refine ⟨hnum, ?_, ?_⟩
      · intro j
        have hdone : TaskInv s.store.events { s.tasks i with flushed := true } :=
          ⟨(h.tasks i).awaiting, (h.tasks i).recorded, (h.tasks i).cached⟩
        have hold := (h.setTask (i := i) hdone).tasks j
        exact ⟨fun info hi => (hold.awaiting info hi).mono hpre,
          fun info hi => (hold.recorded info hi).mono hpre,
          fun key info hi => (hold.cached key info hi).mono hpre⟩
      · intro f hf
        split at hf
        · exact h.flushes f hf
        · rename_i outcome hout
          rcases List.mem_append.mp hf with hf | hf
          · exact h.flushes f hf
          · rw [List.mem_singleton.mp hf]
            exact hcons outcome hout

theorem inv_initial : Inv (initial : State P) where
  numbered := ⟨fun i entry h => by simp [initial] at h, rfl⟩
  tasks i := by constructor <;> simp [initial]
  flushes f h := by cases h

/-- Two tasks read the whole log and each appends; the one that flushes second,
after loading once more from its cache, is refused. -/
def overtaken : List (Action Unit) :=
  [.load 0 "all" (.item ⟨none, none⟩), .record 0 0, .source 1 (.item ⟨none, none⟩), .record 1 0,
    .append 0 ⟨⟨"a", "b"⟩, [], ()⟩, .append 1 ⟨⟨"a", "b"⟩, [], ()⟩,
      .load 0 "all" (.item ⟨none, none⟩),
    .record 0 0, .flush 1 none, .flush 0 none]

end Kronos.EventSourcing
