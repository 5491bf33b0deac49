import Kronos.EventSourcing.Repository
import Kronos.Postgres.Locking

/-!
# Snapshots over the Postgres store

The fused read is one statement: it takes the snapshot row of the key, if there
is one, and the committed events above its position. The repository folds them
and may write the result back, as a statement of its own that lands later, in any
order, or never. The position of a snapshot is that of the last event folded.

A position is handed out at the insert and becomes visible at the commit, so an
event may appear below that of a snapshot already taken, and no later read looks
there. It takes two matching events whose transactions did not wait for each
other. Where a load takes no snapshot while that is so, every load returns the
fold of all committed events of its query; and for a query whose items all have a
lock key in common it is never so.
-/
namespace Kronos.Postgres.Snapshotting
open Kronos.Lib.Transition Kronos.Lib.Window Kronos.EventSourcing Kronos.Postgres.EventStore

variable {Id P B : Type}

/-- What `encodeSnapshot` and `decodeSnapshot` use of a serializer. -/
structure Serializer (B : Type) where
  serialize : JsValue → B
  deserialize : B → JsValue

/-- A row of the snapshots table. -/
structure SnapshotRow (B : Type) where
  position : ℤ
  payload : B

/-- A load that returned, with the fold of all committed events of its query. -/
structure Load (Id : Type) where
  id : Id
  state : Except String JsValue
  bare : Except String JsValue

structure State (Id P B : Type) where
  db : EventStore.State P
  snapshots : String → Option (SnapshotRow B)
  /-- Loads that found an unfit value and read again. -/
  replaying : List Id
  /-- Snapshot writes that have not landed. -/
  writes : List (String × SnapshotRow B)
  loads : List (Load Id)

inductive Action (Id P : Type) where
  | statement (a : EventStore.Action P)
  | load (id : Id) (sourcingTimeMs : ℕ)
  | replay (i : ℕ) (sourcingTimeMs : ℕ)
  | land (i : ℕ)
  | lose (i : ℕ)

def initial : State Id P B := ⟨EventStore.initial, fun _ => none, [], [], []⟩

section Step
variable (d : SnapshottedState Id P) (snapshotIdentifier : Id → String) (serializer : Serializer B)

/-- The rows of the fused statement, from `start_at` on. -/
def eventRows (db : EventStore.State P) (criteria : EventCriteria) (startAt : ℤ) : List (Row P) :=
  db.committedRows.filter fun r =>
    decide (startAt ≤ r.sequencePosition) && matchesWhere r.event criteria

def State.sourceFused (s : State Id P B) (query : EventQuery) (start : ℕ) (key : String) :
    Except String (Sourced P) := do
  let criteria ← compileQuery query
  let snap := s.snapshots key
  let startAt : ℤ := max (snap.elim 0 fun row => row.position + 1) start
  let rows := eventRows s.db criteria startAt
  let marker : ℤ := match rows.getLast? with
    | some r => r.sequencePosition
    | none => startAt - 1
  return ⟨rows.map Row.event, marker,
    snap.map fun row => ⟨serializer.deserialize row.payload, row.position⟩⟩

/-- The read without a cache: `sourcePlain`. -/
def State.sourcePlain (s : State Id P B) (query : EventQuery) : Except String (Sourced P) :=
  (s.db.sourcePlain query 0).map fun read => ⟨read.rows.map Row.event, read.marker, none⟩

/-- The same load without the snapshot. -/
def State.bare (s : State Id P B) (id : Id) : Except String JsValue :=
  (s.sourcePlain (d.query id)).map fun read => (d.bare id read).1

def State.settle (s : State Id P B) (id : Id) (result : Except String LoadResult) : State Id P B :=
  { s with
    loads := s.loads ++ [⟨id, result.map LoadResult.state, s.bare d id⟩]
    writes := match result with
      | .ok ⟨_, _, some snapshot⟩ => s.writes ++ [(d.keyFor snapshotIdentifier id,
          ⟨snapshot.position, serializer.serialize snapshot.state⟩)]
      | _ => s.writes }

def step (s : State Id P B) : Action Id P → Option (State Id P B)
  | .statement a => (EventStore.step s.db a).map fun db => { s with db := db }
  | .load id time =>
      match s.sourceFused serializer (d.query id) 0 (d.keyFor snapshotIdentifier id) with
      | .error e => some (s.settle d snapshotIdentifier serializer id (.error e))
      | .ok read =>
          match d.resume id read time with
          | some result => some (s.settle d snapshotIdentifier serializer id (.ok result))
          | none => some { s with replaying := s.replaying ++ [id] }
  | .replay i time => do
      let id ← s.replaying[i]?
      let result := (s.sourcePlain (d.query id)).map fun read => d.replay id read time
      return { s.settle d snapshotIdentifier serializer id result with
        replaying := s.replaying.eraseIdx i }
  | .land i => do
      let (key, row) ← s.writes[i]?
      return { s with
        snapshots := Function.update s.snapshots key (some row)
        writes := s.writes.eraseIdx i }
  | .lose i => some { s with writes := s.writes.eraseIdx i }

/-- A matching event is inserted and undecided below a committed one. -/
def overtaken (db : EventStore.State P) (query : EventQuery) : Bool :=
  db.rows.any fun r => matchesQuery r.event query && decide (db.status r.transaction = .active) &&
    db.rows.any fun m => matchesQuery m.event query &&
      decide (db.status m.transaction = .committed) &&
      decide (r.sequencePosition < m.sequencePosition)

/-- The load goes on to write a snapshot. -/
def takesSnapshot (read : Except String (Option LoadResult)) : Bool :=
  match read with
  | .ok (some result) => result.write.isSome
  | _ => false

/-- The states the fold goes through survive the serializer. -/
def Survives : Prop :=
  ∀ id events, serializer.deserialize (serializer.serialize (d.fold (d.initial id) events)) =
    d.fold (d.initial id) events

/-- No snapshot is taken by a read over which an event may still appear. -/
def snapshotsSettled (s : State Id P B) : Action Id P → Bool
  | .load id time =>
      !(overtaken s.db (d.query id) && takesSnapshot
        ((s.sourceFused serializer (d.query id) 0 (d.keyFor snapshotIdentifier id)).map
          fun read => d.resume id read time))
  | .replay i time =>
      match s.replaying[i]? with
      | none => true
      | some id =>
          !(overtaken s.db (d.query id) && takesSnapshot
            ((s.sourcePlain (d.query id)).map fun read => some (d.replay id read time)))
  | _ => true

end Step

/-- What a statement may do to the table: append rows above all positions handed
out so far, and decide transactions that were open. -/
structure Grows (db db' : EventStore.State P) : Prop where
  rows : ∃ new, db'.rows = db.rows ++ new ∧ ∀ r ∈ new, db.nextPosition ≤ r.sequencePosition
  next : db.nextPosition ≤ db'.nextPosition
  decided : ∀ t, db.status t ≠ .active → db'.status t = db.status t

section Grows
variable {db db' : EventStore.State P}

/-- A transaction moves on and keeps its state, or is decided while open. -/
theorem grows_setTransaction {t : ℕ} {tx : Transaction P}
    (h : tx.status = db.status t ∨ db.status t = .active) : Grows db (db.setTransaction t tx) := by
  refine ⟨⟨[], by simp [State.setTransaction], by simp⟩, le_rfl, ?_⟩
  intro u hu
  rw [State.status, State.transactions_set]
  split_ifs with htu
  · subst htu
    exact h.resolve_right hu
  · rfl

theorem grows_step {a : EventStore.Action P} (h : EventStore.step db a = some db') :
    Grows db db' := by
  have hrefl {db : EventStore.State P} : Grows db db :=
    ⟨⟨[], by simp, by simp⟩, le_rfl, fun _ _ => rfl⟩
  cases a with
  | source query start =>
      simp only [EventStore.step] at h
      split at h <;> cases h
      · exact ⟨hrefl.rows, le_rfl, fun _ _ => rfl⟩
      · exact hrefl
  | transaction =>
      cases h
      exact ⟨hrefl.rows, le_rfl, fun _ _ => rfl⟩
  | append t events condition reads =>
      simp only [EventStore.step] at h
      split at h
      · by_cases hact : t < db.begun ∧ db.status t = .active
        · rw [if_pos hact] at h
          split at h <;> cases h <;> exact grows_setTransaction (Or.inl rfl)
        · rw [if_neg hact] at h
          cases h
      · cases h
  | acquire t =>
      simp only [EventStore.step] at h
      split at h
      · cases h
        exact grows_setTransaction (Or.inl rfl)
      · split_ifs at h
        cases h
        exact grows_setTransaction (Or.inl rfl)
      · cases h
  | check t =>
      simp only [EventStore.step] at h
      split at h
      · split at h
        · cases h
          exact grows_setTransaction (Or.inl rfl)
        · split_ifs at h <;> cases h <;> exact grows_setTransaction (Or.inl rfl)
      · cases h
  | insert t =>
      simp only [EventStore.step] at h
      split at h
      · rename_i event rest hphase
        cases h
        refine ⟨⟨_, rfl, ?_⟩, Nat.le_succ _, ?_⟩
        · intro r hr
          rw [List.mem_singleton.mp hr]
        · intro u _
          exact State.insertRow_status t u event _
      · cases h
  | commit t =>
      simp only [EventStore.step] at h
      split at h
      · split_ifs at h with hact
        cases h
        have hset : Grows db (db.setTransaction t
            { db.transactions t with status := .committed }) :=
          grows_setTransaction (Or.inr hact.2)
        exact ⟨hset.rows, hset.next, hset.decided⟩
      · cases h
  | rollback t =>
      simp only [EventStore.step] at h
      split_ifs at h with hact
      cases h
      exact grows_setTransaction (Or.inr hact.2)
  | release t =>
      simp only [EventStore.step] at h
      split_ifs at h
      cases h
      exact grows_setTransaction (Or.inl rfl)

end Grows

def rowPosition (r : Row P) : ℤ := r.sequencePosition

/-- The committed matches up to a position, in order. -/
def matchesUpTo (db : EventStore.State P) (criteria : EventCriteria) (p : ℤ) : List (Row P) :=
  window rowPosition (fun r => matchesWhere r.event criteria) (-1) p db.committedRows

/-- The snapshot is the fold of the committed matches up to its position, and no
other match can appear there any more. -/
def Faithful (d : SnapshottedState Id P) (db : EventStore.State P) (id : Id) (state : JsValue)
    (p : ℤ) : Prop :=
  ∃ criteria, compileQuery (d.query id) = .ok criteria ∧ -1 ≤ p ∧ p < db.nextPosition ∧
    (∀ r ∈ db.rows, matchesWhere r.event criteria = true → rowPosition r ≤ p →
      db.status r.transaction ≠ .active) ∧
    state = d.fold (d.initial id) ((matchesUpTo db criteria p).map Row.event)

theorem matchesUpTo_grows {db db' : EventStore.State P} {criteria : EventCriteria} {p : ℤ}
    (hg : Grows db db') (hp : p < db.nextPosition)
    (hdecided : ∀ r ∈ db.rows, matchesWhere r.event criteria = true → rowPosition r ≤ p →
      db.status r.transaction ≠ .active) :
    matchesUpTo db' criteria p = matchesUpTo db criteria p := by
  obtain ⟨new, hrows, hnew⟩ := hg.rows
  unfold matchesUpTo window State.committedRows
  rw [List.filter_filter, List.filter_filter, hrows, List.filter_append]
  have hnil : new.filter (fun r => decide (-1 < rowPosition r) && decide (rowPosition r ≤ p) &&
      matchesWhere r.event criteria && decide (db'.status r.transaction = .committed)) = [] := by
    rw [List.filter_eq_nil_iff]
    intro r hr hkept
    simp only [Bool.and_eq_true, decide_eq_true_eq] at hkept
    have hpos := hnew r hr
    have hle : rowPosition r ≤ p := hkept.1.1.2
    unfold rowPosition at hle
    omega
  rw [hnil, List.append_nil]
  apply List.filter_congr
  intro r hr
  by_cases hkept : (decide (-1 < rowPosition r) && decide (rowPosition r ≤ p) &&
      matchesWhere r.event criteria) = true
  · have hkept' := hkept
    simp only [Bool.and_eq_true, decide_eq_true_eq] at hkept'
    rw [hg.decided _ (hdecided r hr hkept'.2 hkept'.1.2)]
  · rw [Bool.not_eq_true] at hkept
    rw [hkept, Bool.false_and, Bool.false_and]

theorem Faithful.grows {d : SnapshottedState Id P} {db db' : EventStore.State P} {id : Id}
    {state : JsValue} {p : ℤ} (h : Faithful d db id state p) (hg : Grows db db') :
    Faithful d db' id state p := by
  obtain ⟨criteria, hquery, hlow, hp, hdecided, hstate⟩ := h
  obtain ⟨new, hrows, hnew⟩ := hg.rows
  have hnext := hg.next
  refine ⟨criteria, hquery, hlow, by omega, ?_, ?_⟩
  · intro r hr hm hle
    rw [hrows, List.mem_append] at hr
    rcases hr with hr | hr
    · have hd := hdecided r hr hm hle
      rw [hg.decided _ hd]
      exact hd
    · have hpos := hnew r hr
      unfold rowPosition at hle
      omega
  · rw [matchesUpTo_grows hg hp hdecided]
    exact hstate

section Proof
variable {d : SnapshottedState Id P} {snapshotIdentifier : Id → String} {serializer : Serializer B}
  {s s' : State Id P B} {id : Id} {criteria : EventCriteria}

/-- The committed matches above a position. -/
def matchesAbove (db : EventStore.State P) (criteria : EventCriteria) (p : ℤ) : List (Row P) :=
  beyond rowPosition (fun r => matchesWhere r.event criteria) p db.committedRows

theorem ordered_committedRows {db : EventStore.State P} (h : EventStore.Inv db) :
    Ordered rowPosition db.committedRows := by
  refine (h.ordered.filter _).imp ?_
  intro r m hlt
  exact Int.ofNat_lt.mpr hlt

/-- All committed matches, cut at a position. -/
theorem matches_split {db : EventStore.State P} (h : EventStore.Inv db) {p : ℤ} (hp : -1 ≤ p) :
    matchesAbove db criteria (-1) = matchesUpTo db criteria p ++ matchesAbove db criteria p :=
  beyond_split (ordered_committedRows h) hp

theorem eventRows_eq (db : EventStore.State P) (p : ℤ) :
    eventRows db criteria (p + 1) = matchesAbove db criteria p := by
  apply List.filter_congr
  intro r _
  have hiff : p + 1 ≤ (r.sequencePosition : ℤ) ↔ p < rowPosition r := by
    unfold rowPosition
    omega
  rw [decide_eq_decide.mpr hiff]

/-- The last committed match, when no match below it is undecided, is a position
up to which nothing can appear. -/
theorem faithful_last {db : EventStore.State P} (h : EventStore.Inv db)
    (hquery : compileQuery (d.query id) = .ok criteria) {last : Row P}
    (hlast : (matchesAbove db criteria (-1)).getLast? = some last)
    (hsettled : overtaken db (d.query id) = false) :
    Faithful d db id (d.fold (d.initial id) ((matchesAbove db criteria (-1)).map Row.event))
      last.sequencePosition := by
  have hord := ordered_committedRows h
  have hmem := mem_beyond.mp (List.mem_of_getLast? hlast)
  have hin := List.mem_filter.mp hmem.1
  have hbound := h.bound last hin.1
  refine ⟨criteria, hquery, by omega, by omega, ?_, ?_⟩
  · intro r hr hm hle hact
    have hover : overtaken db (d.query id) = true := by
      unfold rowPosition at hle
      have hlt : r.sequencePosition < last.sequencePosition := by
        have hle' : r.sequencePosition ≤ last.sequencePosition := by omega
        rcases hle'.lt_or_eq with hlt | hsame
        · exact hlt
        · -- The committed row itself is not undecided.
          rw [h.ordered.eq_of_key hr hin.1 hsame] at hact
          rw [decide_eq_true_eq] at hin
          rw [hin.2] at hact
          cases hact
      unfold overtaken
      refine List.any_eq_true.mpr ⟨r, hr, ?_⟩
      simp only [matchesQuery, hquery, hm, hact, Bool.and_eq_true, decide_true, true_and]
      refine List.any_eq_true.mpr ⟨last, hin.1, ?_⟩
      simp only [hmem.2.2, Bool.true_and, Bool.and_eq_true, decide_eq_true_eq]
      exact ⟨of_decide_eq_true hin.2, hlt⟩
    rw [hover] at hsettled
    cases hsettled
  · have hnil : matchesAbove db criteria (last.sequencePosition : ℤ) = [] := by
      rw [List.eq_nil_iff_forall_not_mem]
      intro r hr
      obtain ⟨hr, hlt, hm⟩ := mem_beyond.mp hr
      have hall : r ∈ matchesAbove db criteria (-1) := mem_beyond.mpr ⟨hr, by omega, hm⟩
      have hle := (hord.beyond _ (-1)).le_getLast hall hlast
      unfold rowPosition at hle hlt
      omega
    rw [matches_split h (show -1 ≤ (last.sequencePosition : ℤ) by omega), hnil, List.append_nil]

/-- A fold that goes on from the matches up to a position. -/
theorem finish_above {db : EventStore.State P} (h : EventStore.Inv db)
    (hquery : compileQuery (d.query id) = .ok criteria) {p : ℤ} (hp : -1 ≤ p) {start : JsValue}
    (hstart : start = d.fold (d.initial id) ((matchesUpTo db criteria p).map Row.event))
    {marker : ℤ} (time : ℕ)
    (hmarker : ∀ last, (matchesAbove db criteria p).getLast? = some last →
      marker = last.sequencePosition) :
    (d.finish start ((matchesAbove db criteria p).map Row.event) marker time).state =
        d.fold (d.initial id) ((matchesAbove db criteria (-1)).map Row.event) ∧
      ∀ snapshot, (d.finish start ((matchesAbove db criteria p).map Row.event) marker time).write =
        some snapshot → overtaken db (d.query id) = false →
          Faithful d db id snapshot.state snapshot.position := by
  have hfold : d.fold start ((matchesAbove db criteria p).map Row.event) =
      d.fold (d.initial id) ((matchesAbove db criteria (-1)).map Row.event) := by
    rw [matches_split h hp, List.map_append, fold_append, hstart]
  refine ⟨hfold, ?_⟩
  intro snapshot hwrite hsettled
  obtain ⟨hne, hsnap⟩ := finish_write d hwrite
  rw [hsnap, hfold]
  obtain ⟨last, hlast⟩ : ∃ last, (matchesAbove db criteria p).getLast? = some last := by
    refine ⟨_, List.getLast?_eq_some_getLast ?_⟩
    intro hnil
    apply hne
    rw [hnil]
    rfl
  rw [hmarker last hlast]
  apply faithful_last h hquery _ hsettled
  rw [matches_split h hp, List.getLast?_append, hlast]
  rfl

/-- Below the first position there is nothing to fold. -/
theorem initial_fold (db : EventStore.State P) :
    d.initial id = d.fold (d.initial id) ((matchesUpTo db criteria (-1)).map Row.event) := by
  have hempty : matchesUpTo db criteria (-1) = [] := window_self (-1)
  rw [hempty]
  rfl

/-- What a read without the cache returns: all committed matches. -/
theorem sourcePlain_eq (s : State Id P B) (hquery : compileQuery (d.query id) = .ok criteria) :
    ∃ marker, s.sourcePlain (d.query id) =
        .ok ⟨(matchesAbove s.db criteria (-1)).map Row.event, marker, none⟩ ∧
      ∀ last, (matchesAbove s.db criteria (-1)).getLast? = some last →
        marker = last.sequencePosition := by
  have hrows : (s.db.committedRows.filter fun r =>
      decide (0 ≤ r.sequencePosition) && matchesWhere r.event criteria) =
        matchesAbove s.db criteria (-1) := by
    rw [← eventRows_eq]
    rfl
  unfold State.sourcePlain EventStore.State.sourcePlain
  rw [hquery]
  simp only [bind, Except.bind, hrows]
  refine ⟨_, rfl, ?_⟩
  intro last hlast
  rw [hlast]

theorem bare_eq (hquery : compileQuery (d.query id) = .ok criteria) :
    s.bare d id =
      .ok (d.fold (d.initial id) ((matchesAbove s.db criteria (-1)).map Row.event)) := by
  obtain ⟨marker, hplain, -⟩ := sourcePlain_eq s hquery
  unfold State.bare
  rw [hplain]
  rfl

theorem bare_error {message : String} (hquery : compileQuery (d.query id) = .error message) :
    s.bare d id = .error message := by
  unfold State.bare State.sourcePlain EventStore.State.sourcePlain
  rw [hquery]
  rfl

theorem sourceFused_error {message : String} (key : String)
    (hquery : compileQuery (d.query id) = .error message) :
    s.sourceFused serializer (d.query id) 0 key = .error message := by
  unfold State.sourceFused
  rw [hquery]
  rfl

/-- What the fused statement returns: the committed matches above the snapshot. -/
theorem sourceFused_eq (serializer : Serializer B) {key : String}
    (hquery : compileQuery (d.query id) = .ok criteria) {p : ℤ} (hp : -1 ≤ p)
    (hsnap : (s.snapshots key).elim (-1) SnapshotRow.position = p) :
    ∃ marker, s.sourceFused serializer (d.query id) 0 key =
        .ok ⟨(matchesAbove s.db criteria p).map Row.event, marker,
          (s.snapshots key).map fun row => ⟨serializer.deserialize row.payload, row.position⟩⟩ ∧
      ∀ last, (matchesAbove s.db criteria p).getLast? = some last →
        marker = last.sequencePosition := by
  have hstart : max ((s.snapshots key).elim 0 fun row => row.position + 1) ((0 : ℕ) : ℤ) =
      p + 1 := by
    cases hget : s.snapshots key with
    | none =>
        rw [hget] at hsnap
        simp only [Option.elim_none] at hsnap ⊢
        omega
    | some row =>
        rw [hget] at hsnap
        simp only [Option.elim_some] at hsnap ⊢
        omega
  unfold State.sourceFused
  rw [hquery]
  simp only [bind, Except.bind, hstart, eventRows_eq]
  refine ⟨_, rfl, ?_⟩
  intro last hlast
  rw [hlast]

/-- Every snapshot, written or on its way, is faithful, and every load so far
returned the fold of all committed matches. -/
structure Inv (d : SnapshottedState Id P) (snapshotIdentifier : Id → String)
    (serializer : Serializer B) (s : State Id P B) : Prop where
  db : EventStore.Inv s.db
  cached : ∀ id row, s.snapshots (d.keyFor snapshotIdentifier id) = some row →
    Faithful d s.db id (serializer.deserialize row.payload) row.position
  writes : ∀ w ∈ s.writes, ∃ id, w.1 = d.keyFor snapshotIdentifier id ∧
    Faithful d s.db id (serializer.deserialize w.2.payload) w.2.position
  loads : ∀ l ∈ s.loads, l.state = l.bare

theorem Faithful.comes_back (hround : Survives d serializer) {state : JsValue} {p : ℤ}
    (h : Faithful d s.db id state p) :
    serializer.deserialize (serializer.serialize state) = state := by
  obtain ⟨_, _, _, _, _, hstate⟩ := h
  rw [hstate]
  exact hround id _

/-- A load returns the fold of all committed matches and leaves a faithful snapshot. -/
theorem Inv.settle (hround : Survives d serializer)
    (h : Inv d snapshotIdentifier serializer s) {result : Except String LoadResult}
    (hbare : result.map LoadResult.state = s.bare d id)
    (hwrite : ∀ r snapshot, result = .ok r → r.write = some snapshot →
      Faithful d s.db id snapshot.state snapshot.position) :
    Inv d snapshotIdentifier serializer (s.settle d snapshotIdentifier serializer id result) := by
  refine ⟨h.db, h.cached, ?_, ?_⟩
  · intro w hw
    cases result with
    | error e => exact h.writes w hw
    | ok r =>
        obtain ⟨state, marker, write⟩ := r
        cases write with
        | none => exact h.writes w hw
        | some snapshot =>
            rcases List.mem_append.mp hw with hw | hw
            · exact h.writes w hw
            · rw [List.mem_singleton.mp hw]
              have hf := hwrite _ snapshot rfl rfl
              refine ⟨id, rfl, ?_⟩
              rw [hf.comes_back hround]
              exact hf
  · intro l hl
    rcases List.mem_append.mp hl with hl | hl
    · exact h.loads l hl
    · rw [List.mem_singleton.mp hl]
      exact hbare

/-- The fused read, and what the repository makes of it. -/
theorem Inv.resume (h : Inv d snapshotIdentifier serializer s) {read : Sourced P} {time : ℕ}
    {r : LoadResult}
    (hread : s.sourceFused serializer (d.query id) 0 (d.keyFor snapshotIdentifier id) = .ok read)
    (hr : d.resume id read time = some r) :
    Except.ok r.state = s.bare d id ∧ ∀ snapshot, r.write = some snapshot →
      overtaken s.db (d.query id) = false →
        Faithful d s.db id snapshot.state snapshot.position := by
  cases hquery : compileQuery (d.query id) with
  | error e =>
      rw [sourceFused_error _ hquery] at hread
      cases hread
  | ok criteria =>
      rw [bare_eq hquery]
      cases hsnap : s.snapshots (d.keyFor snapshotIdentifier id) with
      | none =>
          obtain ⟨marker, hfused, hmarker⟩ := sourceFused_eq serializer hquery
            le_rfl (congrArg (Option.elim · (-1) SnapshotRow.position) hsnap)
          rw [hfused, hsnap] at hread
          cases hread
          cases hr
          have hfinish := finish_above h.db hquery le_rfl (initial_fold s.db) time hmarker
          exact ⟨congrArg _ hfinish.1, hfinish.2⟩
      | some row =>
          obtain ⟨criteria', hquery', hlow, -, -, hstate⟩ := h.cached id row hsnap
          rw [hquery] at hquery'
          cases hquery'
          obtain ⟨marker, hfused, hmarker⟩ := sourceFused_eq serializer hquery
            hlow (congrArg (Option.elim · (-1) SnapshotRow.position) hsnap)
          rw [hfused, hsnap] at hread
          cases hread
          simp only [SnapshottedState.resume, Option.map_some] at hr
          split_ifs at hr
          cases hr
          have hfinish := finish_above h.db hquery hlow hstate time hmarker
          exact ⟨congrArg _ hfinish.1, hfinish.2⟩

/-- The read without the cache, when the cached value was unfit. -/
theorem Inv.replay (h : Inv d snapshotIdentifier serializer s) {read : Sourced P} (time : ℕ)
    (hread : s.sourcePlain (d.query id) = .ok read) :
    Except.ok (d.replay id read time).state = s.bare d id ∧
      ∀ snapshot, (d.replay id read time).write = some snapshot →
        overtaken s.db (d.query id) = false →
          Faithful d s.db id snapshot.state snapshot.position := by
  cases hquery : compileQuery (d.query id) with
  | error e =>
      unfold State.sourcePlain EventStore.State.sourcePlain at hread
      rw [hquery] at hread
      cases hread
  | ok criteria =>
      rw [bare_eq hquery]
      obtain ⟨marker, hplain, hmarker⟩ := sourcePlain_eq s hquery
      rw [hplain] at hread
      cases hread
      have hfinish := finish_above h.db hquery le_rfl (initial_fold s.db) time hmarker
      exact ⟨congrArg _ hfinish.1, hfinish.2⟩

theorem Inv.statement (h : Inv d snapshotIdentifier serializer s) {a : EventStore.Action P}
    {db : EventStore.State P} (hstep : EventStore.step s.db a = some db) :
    Inv d snapshotIdentifier serializer { s with db := db } := by
  have hg := grows_step hstep
  refine ⟨h.db.step hstep, fun id row hrow => (h.cached id row hrow).grows hg, ?_, h.loads⟩
  intro w hw
  obtain ⟨id, hkey, hf⟩ := h.writes w hw
  exact ⟨id, hkey, hf.grows hg⟩

theorem Inv.step (hid : Function.Injective snapshotIdentifier)
    (hround : Survives d serializer) {a : Action Id P}
    (h : Inv d snapshotIdentifier serializer s)
    (hok : snapshotsSettled d snapshotIdentifier serializer s a = true)
    (hstep : Snapshotting.step d snapshotIdentifier serializer s a = some s') :
    Inv d snapshotIdentifier serializer s' := by
  cases a with
  | statement a =>
      obtain ⟨db, hdb, rfl⟩ := Option.map_eq_some_iff.mp hstep
      exact h.statement hdb
  | load id time =>
      simp only [Snapshotting.step] at hstep
      split at hstep
      · rename_i e hread
        cases hstep
        refine h.settle hround ?_ (fun r snapshot hr => by cases hr)
        cases hquery : compileQuery (d.query id) with
        | error e' =>
            rw [sourceFused_error _ hquery] at hread
            cases hread
            rw [bare_error hquery]
            rfl
        | ok criteria =>
            unfold State.sourceFused at hread
            rw [hquery] at hread
            cases hread
      · rename_i read hread
        split at hstep
        · rename_i r hr
          cases hstep
          obtain ⟨hbare, hwrite⟩ := h.resume hread hr
          refine h.settle hround hbare ?_
          intro r' snapshot heq hw
          cases heq
          apply hwrite snapshot hw
          simp only [snapshotsSettled, hread, Except.map, hr, takesSnapshot, hw, Option.isSome_some,
            Bool.and_true, Bool.not_eq_true'] at hok
          exact hok
        · cases hstep
          exact ⟨h.db, h.cached, h.writes, h.loads⟩
  | replay i time =>
      simp only [Snapshotting.step] at hstep
      cases hget : s.replaying[i]? with
      | none =>
          rw [hget] at hstep
          cases hstep
      | some id =>
          rw [hget] at hstep
          cases hstep
          have hset :
              Inv d snapshotIdentifier serializer (s.settle d snapshotIdentifier serializer id
              ((s.sourcePlain (d.query id)).map fun read => d.replay id read time)) := by
            cases hread : s.sourcePlain (d.query id) with
            | error e =>
                refine h.settle hround ?_ (fun r snapshot hr => by cases hr)
                unfold State.bare
                rw [hread]
                rfl
            | ok read =>
                obtain ⟨hbare, hwrite⟩ := h.replay time hread
                refine h.settle hround hbare ?_
                intro r' snapshot heq hw
                cases heq
                apply hwrite snapshot hw
                simp only [snapshotsSettled, hget, hread, Except.map, takesSnapshot, hw,
                  Option.isSome_some, Bool.and_true, Bool.not_eq_true'] at hok
                exact hok
          exact ⟨hset.db, hset.cached, hset.writes, hset.loads⟩
  | land i =>
      simp only [Snapshotting.step] at hstep
      cases hget : s.writes[i]? with
      | none =>
          rw [hget] at hstep
          cases hstep
      | some w =>
          rw [hget] at hstep
          cases hstep
          obtain ⟨id', hkey, hf⟩ := h.writes w (List.mem_of_getElem? hget)
          refine ⟨h.db, ?_, fun w hw => h.writes w (List.mem_of_mem_eraseIdx hw), h.loads⟩
          intro id row hrow
          by_cases heq : d.keyFor snapshotIdentifier id = w.1
          · have hsame := d.keyFor_injective hid (heq.trans hkey)
            simp only [heq, Function.update_self, Option.some.injEq] at hrow
            rw [← hrow, hsame]
            exact hf
          · simp only [Function.update_of_ne heq] at hrow
            exact h.cached id row hrow
  | lose i =>
      cases hstep
      exact ⟨h.db, h.cached, fun w hw => h.writes w (List.mem_of_mem_eraseIdx hw), h.loads⟩

theorem inv_start : Inv d snapshotIdentifier serializer initial := by
  refine ⟨inv_initial, ?_, ?_, ?_⟩
  · intro id row hrow
    cases hrow
  · simp [initial]
  · simp [initial]

/-- Every load returns the fold of all committed events of its query, when no load
takes its snapshot over an event that may still appear. -/
theorem loads_transparent (hid : Function.Injective snapshotIdentifier)
    (hround : Survives d serializer)
    (hs : Reach (step d snapshotIdentifier serializer)
      (fun s a => snapshotsSettled d snapshotIdentifier serializer s a = true) initial s) :
    ∀ l ∈ s.loads, l.state = l.bare := by
  have hinv : Inv d snapshotIdentifier serializer s :=
    hs.invariant inv_start fun _ _ _ _ hi hok hstep => hi.step hid hround hok hstep
  exact hinv.loads

/-- Writers of a linked query take turns, so none of its events is overtaken. -/
theorem not_overtaken_of_linked {db : EventStore.State P} (h : EventStore.Inv db)
    {query : EventQuery} (hlinked : Linked query) : overtaken db query = false := by
  rw [Bool.eq_false_iff]
  intro hover
  unfold overtaken at hover
  obtain ⟨r, hr, hrest⟩ := List.any_eq_true.mp hover
  rw [Bool.and_eq_true, Bool.and_eq_true, decide_eq_true_eq] at hrest
  obtain ⟨⟨hrm, hact⟩, hrest⟩ := hrest
  obtain ⟨m, hm, hkept⟩ := List.any_eq_true.mp hrest
  rw [Bool.and_eq_true, Bool.and_eq_true, decide_eq_true_eq, decide_eq_true_eq] at hkept
  obtain ⟨⟨hmm, hcommitted⟩, hlt⟩ := hkept
  obtain ⟨k, hrk, hmk, -⟩ := hlinked.common hrm hmm
  refine h.turns r hr m hm hlt ?_ k hrk hmk hact
  intro hsame
  rw [hsame, hcommitted] at hact
  cases hact

/-- For linked queries every load is transparent, whatever the interleaving. -/
theorem linked_loads_transparent (hid : Function.Injective snapshotIdentifier)
    (hround : Survives d serializer)
    (hlinked : ∀ id, Linked (d.query id))
    (hs : Reach (step d snapshotIdentifier serializer) always initial s) :
    ∀ l ∈ s.loads, l.state = l.bare := by
  have hinv : Inv d snapshotIdentifier serializer s := by
    refine hs.invariant inv_start fun s a s' _ hi _ hstep => hi.step hid hround ?_ hstep
    have hnone : ∀ id, overtaken s.db (d.query id) = false :=
      fun id => not_overtaken_of_linked hi.db (hlinked id)
    cases a with
    | load id time => simp only [snapshotsSettled, hnone, Bool.false_and, Bool.not_false]
    | replay i time =>
        cases hget : s.replaying[i]? with
        | none => simp only [snapshotsSettled, hget]
        | some id => simp only [snapshotsSettled, hget, hnone, Bool.false_and, Bool.not_false]
    | _ => rfl
  exact hinv.loads

end Proof

/-- Counts the openings of two courses, in strokes, and snapshots every fold. -/
def openings : SnapshottedState String Unit where
  query := fun _ => .items [⟨some [("course", "c1")], none⟩, ⟨some [("course", "c2")], none⟩]
  initial := fun _ => .primitive .string ""
  evolvers := [(⟨"course", "Opened"⟩, fun state _ =>
    match state with
    | .primitive .string strokes => .primitive .string (strokes ++ "|")
    | _ => state)]
  key := "openings-v1"
  when := fun _ => true

/-- An append of one event with one tag, up to its insert. -/
def inserts (t : ℕ) (event : EventMessage Unit) : List (Action String Unit) :=
  ([.append t [event] none [], .acquire t, .acquire t, .acquire t, .acquire t, .check t,
    .insert t] : List (EventStore.Action Unit)).map .statement

def plainSerializer : Serializer JsValue := ⟨fun v => v, fun v => v⟩

/-- The second load starts from the snapshot of the first. -/
def resumed : List (Action String Unit) :=
  [Action.statement .transaction, .statement .transaction] ++ inserts 0 firstCourse ++
    [Action.statement (.commit 0), .load "all" 0, .land 0] ++ inserts 1 secondCourse ++
    [Action.statement (.commit 1), .load "all" 0]

theorem loads_transparent_resumed :
    ∃ s : State String Unit JsValue,
      Reach (step openings (fun id => id) plainSerializer)
        (fun s a => snapshotsSettled openings (fun id => id) plainSerializer s a = true) initial s ∧
      s.loads.length = 2 ∧ (s.snapshots "openings-v1:all").isSome = true ∧
      ∀ l ∈ s.loads, l.state = l.bare := by
  obtain ⟨s, hs, htwo, hcached⟩ := reach_guarded_any
    (P := fun s => s.loads.length = 2 ∧ (s.snapshots "openings-v1:all").isSome = true)
    (show ((exec (guarded (step openings (fun id => id) plainSerializer)
      (fun s a => snapshotsSettled openings (fun id => id) plainSerializer s a = true))
      (initial : State String Unit JsValue) resumed).any fun s => decide _) = true
      by decide +kernel)
  exact ⟨s, hs, htwo, hcached, loads_transparent Function.injective_id (fun _ _ => rfl) hs⟩

/-- The first transaction inserts, the second inserts above it and commits, a load
takes its snapshot there, and then the first one commits. -/
def overtaking : List (Action String Unit) :=
  [Action.statement .transaction, .statement .transaction] ++ inserts 0 firstCourse ++
    inserts 1 secondCourse ++ [Action.statement (.commit 1), .load "all" 0, .land 0,
      .statement (.commit 0), .load "all" 0]

/-- What a load returned, as text. -/
def shown : Except String JsValue → String
  | .ok (.primitive _ value) => value
  | _ => "?"

theorem load_misses_overtaken_event :
    ∃ s : State String Unit JsValue,
      Reach (step openings (fun id => id) plainSerializer) always initial s ∧
      ∃ l ∈ s.loads, shown l.state = "|" ∧ shown l.bare = "||" ∧ l.state ≠ l.bare := by
  obtain ⟨s, hs, l, hl, hstate, hbare⟩ := reach_exec_any
    (P := fun s => ∃ l ∈ s.loads, shown l.state = "|" ∧ shown l.bare = "||")
    (show ((exec (step openings (fun id => id) plainSerializer)
      (initial : State String Unit JsValue) overtaking).any fun s => decide _) = true
      by decide +kernel)
  refine ⟨s, hs, l, hl, hstate, hbare, ?_⟩
  intro heq
  rw [heq, hbare] at hstate
  exact absurd hstate (by decide)

end Kronos.Postgres.Snapshotting
