import Kronos.EventSourcing.DecisionConsistency
import Kronos.EventSourcing.Repository

/-!
# Snapshots over the in-memory store

The wrapper keeps one snapshot a key, in a map, and narrows a read to what comes
after it. Snapshot writes are fired and forgotten: they land later, in any order,
or never. A load that finds an unfit value reads a second time, and the log may
have grown by then; a load is compared with the bare store at the moment of the
read it is made of.

A snapshot is worth something because of two facts that never change: its
position is the head of the log at some moment, and its state is the fold of
everything that matches up to there (`Faithful`). It does not matter which of
several such snapshots is found.
-/
namespace Kronos.EventSourcing.InMemorySnapshotting
open Kronos.Lib.Transition

variable {Id P : Type}

/-- A load that returned, with what the bare store would have given it. -/
structure Load (Id : Type) where
  id : Id
  result : Except String (JsValue × ℤ)
  bare : Except String (JsValue × ℤ)

structure State (Id P : Type) where
  store : InMemoryEventStore P
  snapshots : String → Option Snapshot
  /-- Loads that found an unfit value and read again. -/
  replaying : List Id
  /-- Snapshot writes that have not landed. -/
  writes : List (String × Snapshot)
  loads : List (Load Id)

inductive Action (Id P : Type) where
  | append (events : List (EventMessage P)) (condition : Option AppendCondition)
  | load (id : Id) (sourcingTimeMs : ℕ)
  | replay (i : ℕ) (sourcingTimeMs : ℕ)
  | land (i : ℕ)
  | lose (i : ℕ)

def initial : State Id P := ⟨⟨[], 0⟩, fun _ => none, [], [], []⟩

def State.plain (s : State Id P) (query : EventQuery) (start : Option ℕ) :
    Except String (Sourced P) :=
  (s.store.source query start).map fun r => ⟨r.events, r.marker, none⟩

/-- The wrapper's `source`. -/
def State.source (s : State Id P) (query : EventQuery) (start : Option ℕ) (key : Option String) :
    Except String (Sourced P) :=
  match key.bind s.snapshots with
  | none => s.plain query start
  | some snapshot =>
      let resumeFrom := (snapshot.position + 1).toNat
      let from' := match start with
        | some start => if resumeFrom < start then start else resumeFrom
        | none => resumeFrom
      (s.plain query (some from')).map fun r => { r with snapshot := some snapshot }

section Step
variable (d : SnapshottedState Id P) (snapshotIdentifier : Id → String)

/-- The same load on the bare store. -/
def State.bare (s : State Id P) (id : Id) : Except String (JsValue × ℤ) :=
  (s.plain (d.query id) none).map (d.bare id)

/-- A load settles, and its snapshot, if it made one, is on its way. -/
def State.settle (s : State Id P) (id : Id) (result : Except String LoadResult) : State Id P :=
  { s with
    loads := s.loads ++ [⟨id, result.map fun r => (r.state, r.markerPosition), s.bare d id⟩]
    writes := match result with
      | .ok ⟨_, _, some snapshot⟩ => s.writes ++ [(d.keyFor snapshotIdentifier id, snapshot)]
      | _ => s.writes }

def step (s : State Id P) : Action Id P → Option (State Id P)
  | .append events condition => some { s with store := (s.store.append events condition).2 }
  | .load id time =>
      match s.source (d.query id) none (some (d.keyFor snapshotIdentifier id)) with
      | .error e => some (s.settle d snapshotIdentifier id (.error e))
      | .ok read =>
          match d.resume id read time with
          | some result => some (s.settle d snapshotIdentifier id (.ok result))
          | none => some { s with replaying := s.replaying ++ [id] }
  | .replay i time => do
      let id ← s.replaying[i]?
      let result := (s.source (d.query id) none none).map fun read => d.replay id read time
      return { s.settle d snapshotIdentifier id result with replaying := s.replaying.eraseIdx i }
  | .land i => do
      let (key, snapshot) ← s.writes[i]?
      return { s with
        snapshots := Function.update s.snapshots key (some snapshot)
        writes := s.writes.eraseIdx i }
  | .lose i => some { s with writes := s.writes.eraseIdx i }

end Step

/-- The snapshot is the fold of everything that matches in the first entries of
the log, and its position is the last of them. -/
def Faithful (d : SnapshottedState Id P) (id : Id) (events : List (Entry P)) (snapshot : Snapshot) :
    Prop :=
  ∃ k criteria, k ≤ events.length ∧ snapshot.position = (k : ℤ) - 1 ∧
    compileQuery (d.query id) = .ok criteria ∧
    snapshot.state = d.fold (d.initial id)
      (((events.take k).filter fun e => matchesCriteria e.event criteria).map Entry.event)

section Proof
variable {d : SnapshottedState Id P} {snapshotIdentifier : Id → String}
    {s s' : State Id P} {id : Id}

theorem Faithful.mono {events events' : List (Entry P)} {snapshot : Snapshot}
    (h : Faithful d id events snapshot) (hle : events <+: events') :
    Faithful d id events' snapshot := by
  obtain ⟨k, criteria, hk, hpos, hquery, hstate⟩ := h
  obtain ⟨rest, rfl⟩ := hle
  refine ⟨k, criteria, ?_, hpos, hquery, ?_⟩
  · rw [List.length_append]
    omega
  · rw [List.take_append_of_le_length hk]
    exact hstate

/-- Positions count the log, so a start is a number of entries to skip. -/
theorem filter_position {store : InMemoryEventStore P} (h : Numbered store) (k : ℕ) :
    store.events.filter (fun entry => decide (k ≤ entry.position)) = store.events.drop k := by
  have htake : (store.events.take k).filter (fun entry => decide (k ≤ entry.position)) = [] := by
    rw [List.filter_eq_nil_iff]
    intro entry hentry
    obtain ⟨i, hi⟩ := List.mem_iff_getElem?.mp hentry
    rw [List.getElem?_take] at hi
    split_ifs at hi with hlt
    rw [h.position i entry hi, decide_eq_true_eq]
    omega
  have hdrop : (store.events.drop k).filter (fun entry => decide (k ≤ entry.position)) =
      store.events.drop k := by
    rw [List.filter_eq_self]
    intro entry hentry
    obtain ⟨i, hi⟩ := List.mem_iff_getElem?.mp hentry
    rw [List.getElem?_drop] at hi
    rw [h.position _ entry hi, decide_eq_true_eq]
    omega
  rw [← List.take_append_drop k store.events, List.filter_append, htake, List.nil_append,
    List.take_append_drop, hdrop]

theorem source_eq {store : InMemoryEventStore P} (h : Numbered store) {query : EventQuery}
    {criteria : EventCriteria} (hquery : compileQuery query = .ok criteria) (start : Option ℕ) :
    store.source query start = .ok ⟨(((store.events.drop (start.getD 0)).filter
      fun e => matchesCriteria e.event criteria).map Entry.event), store.globalMarker⟩ := by
  unfold InMemoryEventStore.source
  rw [hquery, ← filter_position h]
  rfl

/-- The events of a faithful snapshot and those read after it are all that match. -/
theorem fold_resumed {store : InMemoryEventStore P} {snapshot : Snapshot} {criteria : EventCriteria}
    (h : Faithful d id store.events snapshot) (hquery : compileQuery (d.query id) = .ok criteria) :
    d.fold snapshot.state (((store.events.drop (snapshot.position + 1).toNat).filter
        fun e => matchesCriteria e.event criteria).map Entry.event) =
      d.fold (d.initial id)
        ((store.events.filter fun e => matchesCriteria e.event criteria).map Entry.event) := by
  obtain ⟨k, criteria', -, hpos, hquery', hstate⟩ := h
  cases hquery.symm.trans hquery'
  have hk : (snapshot.position + 1).toNat = k := by
    rw [hpos]
    omega
  rw [hstate, hk, ← fold_append, ← List.map_append, ← List.filter_append, List.take_append_drop]

structure Inv (d : SnapshottedState Id P) (snapshotIdentifier : Id → String) (s : State Id P) :
    Prop where
  numbered : Numbered s.store
  cached : ∀ id snapshot, s.snapshots (d.keyFor snapshotIdentifier id) = some snapshot →
    Faithful d id s.store.events snapshot
  writes : ∀ w ∈ s.writes, ∃ id, w.1 = d.keyFor snapshotIdentifier id ∧
    Faithful d id s.store.events w.2
  loads : ∀ l ∈ s.loads, l.result = l.bare

theorem plain_eq (h : Numbered s.store) {query : EventQuery} {criteria : EventCriteria}
    (hquery : compileQuery query = .ok criteria) (start : Option ℕ) :
    s.plain query start = .ok ⟨((s.store.events.drop (start.getD 0)).filter
      fun e => matchesCriteria e.event criteria).map Entry.event, s.store.globalMarker, none⟩ := by
  unfold State.plain
  rw [source_eq h hquery]
  rfl

theorem plain_error {query : EventQuery} {message : String}
    (hquery : compileQuery query = .error message) (start : Option ℕ) :
    s.plain query start = .error message := by
  unfold State.plain InMemoryEventStore.source
  rw [hquery]
  rfl

theorem bare_eq (h : Numbered s.store) {criteria : EventCriteria}
    (hquery : compileQuery (d.query id) = .ok criteria) :
    s.bare d id = .ok (d.fold (d.initial id)
      ((s.store.events.filter fun e => matchesCriteria e.event criteria).map Entry.event),
      s.store.globalMarker) := by
  unfold State.bare
  rw [plain_eq h hquery]
  rfl

/-- A load that settles with the bare result leaves a faithful snapshot. -/
theorem Inv.settle (h : Inv d snapshotIdentifier s) {result : Except String LoadResult}
    (hbare : result.map (fun r => (r.state, r.markerPosition)) = s.bare d id)
    (hwrite : ∀ r snapshot, result = .ok r → r.write = some snapshot →
      snapshot = ⟨r.state, r.markerPosition⟩) :
    Inv d snapshotIdentifier (s.settle d snapshotIdentifier id result) := by
  refine ⟨h.numbered, h.cached, ?_, ?_⟩
  · intro w hw
    cases result with
    | error e => exact h.writes w hw
    | ok r =>
        obtain ⟨state, marker, write⟩ := r
        cases write with
        | none => exact h.writes w hw
        | some snapshot =>
            rcases List.mem_append.mp hw with hw | hw
            · exact h.writes w hw
            · rw [List.mem_singleton.mp hw]
              refine ⟨id, rfl, ?_⟩
              have hsnap : snapshot = ⟨state, marker⟩ := hwrite _ snapshot rfl rfl
              change Faithful d id s.store.events snapshot
              rw [hsnap]
              cases hquery : compileQuery (d.query id) with
              | error e =>
                  rw [State.bare, plain_error hquery] at hbare
                  cases hbare
              | ok criteria =>
                  rw [bare_eq h.numbered hquery] at hbare
                  injection hbare with hpair
                  obtain ⟨hstate, hmarker⟩ := Prod.mk.inj hpair
                  refine ⟨s.store.events.length, criteria, le_rfl, ?_, hquery, ?_⟩
                  · rw [← h.numbered.globalMarker]
                    exact hmarker
                  · rw [List.take_length]
                    exact hstate
  · intro l hl
    rcases List.mem_append.mp hl with hl | hl
    · exact h.loads l hl
    · rw [List.mem_singleton.mp hl]
      exact hbare

theorem resume_write {read : Sourced P} {time : ℕ} {r : LoadResult} {snapshot : Snapshot}
    (h : d.resume id read time = some r) (hw : r.write = some snapshot) :
    snapshot = ⟨r.state, r.markerPosition⟩ := by
  unfold SnapshottedState.resume at h
  cases hs : read.snapshot with
  | none =>
      rw [hs] at h
      cases h
      exact (finish_write d hw).2
  | some cached =>
      rw [hs] at h
      simp only at h
      split_ifs at h
      cases h
      exact (finish_write d hw).2

/-- Reading from a faithful snapshot gives what the bare store gives. -/
theorem resume_bare (h : Inv d snapshotIdentifier s) {read : Sourced P} {time : ℕ} {r : LoadResult}
    (hread : s.source (d.query id) none (some (d.keyFor snapshotIdentifier id)) = .ok read)
    (hr : d.resume id read time = some r) :
    (Except.ok (r.state, r.markerPosition) : Except String _) = s.bare d id := by
  cases hquery : compileQuery (d.query id) with
  | error e =>
      unfold State.source at hread
      split at hread
      · rw [plain_error hquery] at hread
        cases hread
      · simp only [plain_error hquery] at hread
        cases hread
  | ok criteria =>
      rw [bare_eq h.numbered hquery]
      unfold State.source at hread
      simp only [Option.bind_some] at hread
      cases hsnap : s.snapshots (d.keyFor snapshotIdentifier id) with
      | none =>
          rw [hsnap] at hread
          simp only [plain_eq h.numbered hquery] at hread
          cases hread
          cases hr
          rfl
      | some snapshot =>
          rw [hsnap] at hread
          simp only [plain_eq h.numbered hquery, Except.map] at hread
          cases hread
          simp only [SnapshottedState.resume] at hr
          split_ifs at hr
          cases hr
          have hfold := fold_resumed (h.cached id snapshot hsnap) hquery
          simp only [SnapshottedState.finish, Option.getD_some]
          rw [hfold]

theorem Inv.step (hid : Function.Injective snapshotIdentifier) {a : Action Id P}
    (h : Inv d snapshotIdentifier s)
    (hstep : InMemorySnapshotting.step d snapshotIdentifier s a = some s') :
    Inv d snapshotIdentifier s' := by
  cases a with
  | append events condition =>
      cases hstep
      have hgrow : Numbered (s.store.append events condition).2 ∧
          s.store.events <+: (s.store.append events condition).2.events := by
        unfold InMemoryEventStore.append
        split
        · exact ⟨h.numbered, List.prefix_refl _⟩
        · exact h.numbered.push_all events
      refine ⟨hgrow.1, fun id snapshot hs => (h.cached id snapshot hs).mono hgrow.2, ?_, h.loads⟩
      intro w hw
      obtain ⟨id, hkey, hf⟩ := h.writes w hw
      exact ⟨id, hkey, hf.mono hgrow.2⟩
  | load id time =>
      simp only [InMemorySnapshotting.step] at hstep
      split at hstep
      · rename_i e hread
        cases hstep
        refine h.settle ?_ (fun r snapshot hr => by cases hr)
        cases hquery : compileQuery (d.query id) with
        | error e' =>
            unfold State.source at hread
            split at hread
            · rw [plain_error hquery] at hread
              rw [State.bare, plain_error hquery]
              cases hread
              rfl
            · simp only [plain_error hquery] at hread
              rw [State.bare, plain_error hquery]
              cases hread
              rfl
        | ok criteria =>
            unfold State.source at hread
            split at hread
            · rw [plain_eq h.numbered hquery] at hread
              cases hread
            · simp only [plain_eq h.numbered hquery] at hread
              cases hread
      · rename_i read hread
        split at hstep
        · rename_i r hr
          cases hstep
          refine h.settle (resume_bare h hread hr) ?_
          intro r' snapshot heq hw
          cases heq
          exact resume_write hr hw
        · cases hstep
          exact ⟨h.numbered, h.cached, h.writes, h.loads⟩
  | replay i time =>
      simp only [InMemorySnapshotting.step] at hstep
      cases hget : s.replaying[i]? with
      | none =>
          rw [hget] at hstep
          cases hstep
      | some id =>
          rw [hget] at hstep
          cases hstep
          have hset : Inv d snapshotIdentifier (s.settle d snapshotIdentifier id
              ((s.source (d.query id) none none).map fun read => d.replay id read time)) := by
            refine h.settle ?_ ?_
            · unfold State.bare
              change ((s.plain (d.query id) none).map _).map _ = _
              cases s.plain (d.query id) none with
              | error e => rfl
              | ok read => rfl
            · intro r snapshot hr hw
              change (s.plain (d.query id) none).map _ = _ at hr
              cases hp : s.plain (d.query id) none with
              | error e =>
                  rw [hp] at hr
                  cases hr
              | ok read =>
                  rw [hp] at hr
                  cases hr
                  exact (finish_write d hw).2
          exact ⟨hset.numbered, hset.cached, hset.writes, hset.loads⟩
  | land i =>
      simp only [InMemorySnapshotting.step] at hstep
      cases hget : s.writes[i]? with
      | none =>
          rw [hget] at hstep
          cases hstep
      | some w =>
          rw [hget] at hstep
          cases hstep
          obtain ⟨id', hkey, hf⟩ := h.writes w (List.mem_of_getElem? hget)
          refine ⟨h.numbered, ?_, fun w hw => h.writes w (List.mem_of_mem_eraseIdx hw), h.loads⟩
          intro id snapshot hs
          by_cases heq : d.keyFor snapshotIdentifier id = w.1
          · have hsame := d.keyFor_injective hid (heq.trans hkey)
            simp only [heq, Function.update_self, Option.some.injEq] at hs
            rw [← hs, hsame]
            exact hf
          · simp only [Function.update_of_ne heq] at hs
            exact h.cached id snapshot hs
  | lose i =>
      cases hstep
      exact ⟨h.numbered, h.cached, fun w hw => h.writes w (List.mem_of_mem_eraseIdx hw), h.loads⟩

/-- Every load returns the state and the marker the bare store would give it. -/
theorem snapshots_transparent (hid : Function.Injective snapshotIdentifier)
    (hs : Reach (step d snapshotIdentifier) always initial s) :
    ∀ l ∈ s.loads, l.result = l.bare := by
  have hinv : Inv d snapshotIdentifier s := by
    refine hs.invariant ?_ fun _ _ _ _ hi _ hstep => hi.step hid hstep
    refine ⟨⟨?_, rfl⟩, ?_, ?_, ?_⟩
    · intro i entry hi
      simp [initial] at hi
    · intro id snapshot hsnap
      cases hsnap
    · simp [initial]
    · simp [initial]
  exact hinv.loads

end Proof

/-- Remembers the last enrolment of a course, and snapshots every fold. -/
def lastEnrolment : SnapshottedState String Unit where
  query := fun id => .item ⟨some [("course", id)], none⟩
  initial := fun _ => .primitive .string "none"
  evolvers := [(⟨"course", "Enrolled"⟩, fun _ _ => .primitive .string "enrolled"),
    (⟨"course", "Left"⟩, fun _ _ => .primitive .string "left")]
  key := "course-v1"
  when := fun _ => true

/-- The second load starts from the snapshot of the first. -/
def loadTwice : List (Action String Unit) :=
  [.append [⟨⟨"course", "Enrolled"⟩, [⟨"course", "c1"⟩], ()⟩] none, .load "c1" 0, .land 0,
    .append [⟨⟨"course", "Left"⟩, [⟨"course", "c1"⟩], ()⟩] none, .load "c1" 0]

theorem snapshots_transparent_loadTwice :
    ∃ s : State String Unit, Reach (step lastEnrolment fun id => id) always initial s ∧
      s.loads.length = 2 ∧ (s.snapshots "course-v1:c1").isSome = true ∧
      ∀ l ∈ s.loads, l.result = l.bare := by
  have hs := reach_exec_get (show (exec (step lastEnrolment fun id => id)
    (initial : State String Unit) loadTwice).isSome = true by decide +kernel)
  exact ⟨_, hs, by decide +kernel, by decide +kernel,
    snapshots_transparent Function.injective_id hs⟩

end Kronos.EventSourcing.InMemorySnapshotting
