import Kronos.Lib.Transition
import Kronos.EventSourcing.Repository
import Kronos.AxonServer.EventStore

/-!
# Snapshots over Axon Server

The read is two calls: `GetLast` for the entry of the key, then a `Source` from
one above its position. The repository folds what comes back and may add the
result to the snapshot store, under the marker of the read, as a call of its own
that lands later, in any order, or never.

A marker of this server is the first sequence not accounted for, where the
resume takes a position for the last sequence that is. An event appended at the
marker of a snapshot is therefore in neither part of the read, and the marker of
the load does not guard it either. Where no load resumes over a matching event
at that one sequence, every load returns the fold of all matching events, and an
append conditioned on its marker is refused once there is another.
-/
namespace Kronos.AxonServer.Snapshotting
open Kronos.Lib.Transition Kronos.EventSourcing Kronos.AxonServer.EventStore

variable {Id P W B : Type}

/-- What the snapshot converters use of a serializer and its bytes. -/
structure Serializer (B : Type) where
  serialize : JsValue → B
  deserialize : B → JsValue
  length : B → ℕ

/-- An `Add` to the snapshot store. -/
structure Entry (B : Type) where
  key : String
  sequence : ℤ
  payload : B

/-- A load between its two calls. -/
structure Loading (Id : Type) where
  id : Id
  snapshot : Option Snapshot

/-- A load that returned, with the fold of all matching events and the head at its read. -/
structure Load (Id : Type) where
  id : Id
  result : Except String LoadResult
  bare : Except String JsValue
  seen : ℕ

structure State (Id W B : Type) where
  log : List (TaggedEvent W)
  added : List (Entry B)
  loading : List (Loading Id)
  /-- Calls of `storeSnapshot` that have not landed. -/
  writes : List (Entry B)
  loads : List (Load Id)

inductive Action (Id P : Type) where
  | append (events : List (EventMessage P)) (condition : Option (EventQuery × ℤ))
  | getLast (id : Id) (found : Option ℕ)
  | source (i : ℕ) (marker : ℕ) (sourcingTimeMs : ℕ)
  | fail (i : ℕ)
  | land (i : ℕ)
  | lose (i : ℕ)

def initial : State Id W B := ⟨[], [], [], [], []⟩

def snapshotFromProto (serializer : Serializer B) (payload : B) (position : ℤ) : Snapshot :=
  ⟨if 0 < serializer.length payload then serializer.deserialize payload else .object .nil, position⟩

/-- Resume after the position, or at a later floor the condition has of its own. -/
def resumeFrom (plainStart : Option ℤ) (snapshot : Snapshot) : ℤ :=
  match plainStart with
  | some start => if snapshot.position + 1 < start then start else snapshot.position + 1
  | none => snapshot.position + 1

/-- Where the second call starts; the repository's condition has no floor. -/
def Loading.start (l : Loading Id) : Option ℤ := l.snapshot.map (resumeFrom none)

section Step
variable (meets : Criterion → TaggedEvent W → Bool) (converters : Converters P W)
  (serializer : Serializer B) (d : SnapshottedState Id P) (snapshotIdentifier : Id → String)

/-- The entry has the highest sequence added under its key. -/
def isLast (added : List (Entry B)) (entry : Entry B) : Bool :=
  added.all fun other => decide (other.key = entry.key → other.sequence ≤ entry.sequence)

/-- The fold of all matching events. -/
def State.bare (s : State Id W B) (id : Id) : Except String JsValue :=
  (compileQuery (d.query id)).map fun criteria =>
    d.fold (d.initial id) (decoded meets converters criteria s.log)

def State.settle (s : State Id W B) (i : ℕ) (id : Id) (result : Except String LoadResult) :
    State Id W B :=
  { s with
    loading := s.loading.eraseIdx i
    loads := s.loads ++ [⟨id, result, s.bare meets converters d id, s.log.length⟩]
    writes := match result with
      | .ok ⟨_, _, some snapshot⟩ => s.writes ++ [⟨d.keyFor snapshotIdentifier id,
          snapshot.position, serializer.serialize snapshot.state⟩]
      | _ => s.writes }

def step (s : State Id W B) : Action Id P → Option (State Id W B)
  | .append events condition =>
      match appendEvents meets converters s.log events condition with
      | .ok log => some { s with log := log }
      | .error _ => some s
  -- No entry, or a snapshot service that cannot be reached.
  | .getLast id none => some { s with loading := s.loading ++ [⟨id, none⟩] }
  | .getLast id (some k) => do
      let entry ← s.added[k]?
      if entry.key = d.keyFor snapshotIdentifier id ∧ isLast s.added entry = true then
        some { s with
          loading :=
            s.loading ++ [⟨id, snapshotFromProto serializer entry.payload entry.sequence⟩] }
      else none
  | .source i marker time => do
      let l ← s.loading[i]?
      match ← sourceOnce meets converters s.log (d.query l.id) l.start marker with
      | .error e =>
          return s.settle meets converters serializer d snapshotIdentifier i l.id (.error e)
      | .ok (events, position) =>
          match d.resume l.id ⟨events, position, l.snapshot⟩ time with
          | some result =>
              return s.settle meets converters serializer d snapshotIdentifier i l.id (.ok result)
          -- An unfit value: the read is made again without the snapshot.
          | none => return { s with loading := s.loading.set i ⟨l.id, none⟩ }
  | .fail i => some { s with loading := s.loading.eraseIdx i }
  | .land i => do
      let entry ← s.writes[i]?
      return { s with added := s.added ++ [entry], writes := s.writes.eraseIdx i }
  | .lose i => some { s with writes := s.writes.eraseIdx i }

/-- The event at the snapshot's own position, if there is one, is not the query's. -/
def skipsNothing (log : List (TaggedEvent W)) (l : Loading Id) : Bool :=
  match l.snapshot, compileQuery (d.query l.id) with
  | some snapshot, .ok criteria =>
      !matchesInitialStructure (d.initial l.id) snapshot.state ||
        !(log[snapshot.position.toNat]?.any (matching meets (criteriaToCriterions criteria)))
  | _, _ => true

/-- No load resumes over a matching event at the position of its snapshot. -/
def resumesClear (s : State Id W B) : Action Id P → Bool
  | .source i _ _ => s.loading[i]?.all fun l => skipsNothing meets d s.log l
  | _ => true

/-- The states the fold goes through survive the serializer. -/
def Survives : Prop :=
  ∀ id events, 0 < serializer.length (serializer.serialize (d.fold (d.initial id) events)) ∧
    serializer.deserialize (serializer.serialize (d.fold (d.initial id) events)) =
      d.fold (d.initial id) events

/-- The snapshot is the fold of the matching events below its position. -/
def Faithful (log : List (TaggedEvent W)) (id : Id) (snapshot : Snapshot) : Prop :=
  ∃ criteria, ∃ m : ℕ, compileQuery (d.query id) = .ok criteria ∧ snapshot.position = m ∧
    m ≤ log.length ∧
    snapshot.state = d.fold (d.initial id) (decoded meets converters criteria (log.take m))

/-- What is filed under a key is a faithful snapshot of its state. -/
def Filed (log : List (TaggedEvent W)) (entry : Entry B) : Prop :=
  ∃ id, entry.key = d.keyFor snapshotIdentifier id ∧
    Faithful meets converters d log id (snapshotFromProto serializer entry.payload entry.sequence)

/-- The load saw all there was, and its marker is no higher than the head it saw. -/
structure Load.Sound (log : List (TaggedEvent W)) (l : Load Id) : Prop where
  state : l.result.map LoadResult.state = l.bare
  marker : ∀ r, l.result = .ok r → r.markerPosition ≤ l.seen
  seen : l.seen ≤ log.length

structure Inv (s : State Id W B) : Prop where
  added : ∀ entry ∈ s.added, Filed meets converters serializer d snapshotIdentifier s.log entry
  loading : ∀ l ∈ s.loading, ∀ snapshot, l.snapshot = some snapshot →
    Faithful meets converters d s.log l.id snapshot
  writes : ∀ entry ∈ s.writes, Filed meets converters serializer d snapshotIdentifier s.log entry
  loads : ∀ l ∈ s.loads, l.Sound s.log

end Step

section Proof
variable {meets : Criterion → TaggedEvent W → Bool} {converters : Converters P W}
  {serializer : Serializer B} {d : SnapshottedState Id P} {snapshotIdentifier : Id → String}
  {s s' : State Id W B} {log : List (TaggedEvent W)} {id : Id}

theorem Faithful.append {snapshot : Snapshot} (h : Faithful meets converters d log id snapshot)
    (later : List (TaggedEvent W)) : Faithful meets converters d (log ++ later) id snapshot := by
  obtain ⟨criteria, m, hquery, hposition, hle, hstate⟩ := h
  refine ⟨criteria, m, hquery, hposition, ?_, ?_⟩
  · rw [List.length_append]
    omega
  · rw [List.take_append_of_le_length hle]
    exact hstate

theorem Filed.append {entry : Entry B}
    (h : Filed meets converters serializer d snapshotIdentifier log entry)
    (later : List (TaggedEvent W)) :
    Filed meets converters serializer d snapshotIdentifier (log ++ later) entry := by
  obtain ⟨id, hkey, hf⟩ := h
  exact ⟨id, hkey, hf.append later⟩

/-- A state of the fold comes back from the snapshot store as it went in. -/
theorem Faithful.stored (hround : Survives serializer d) {snapshot : Snapshot}
    (h : Faithful meets converters d log id snapshot) :
    snapshotFromProto serializer (serializer.serialize snapshot.state) snapshot.position =
      snapshot := by
  obtain ⟨criteria, m, -, -, -, hstate⟩ := h
  obtain ⟨hlength, hback⟩ := hround id (decoded meets converters criteria (log.take m))
  rw [← hstate] at hlength hback
  unfold snapshotFromProto
  rw [if_pos hlength, hback]

theorem bare_eq {criteria : EventCriteria} (hquery : compileQuery (d.query id) = .ok criteria) :
    s.bare meets converters d id =
      .ok (d.fold (d.initial id) (decoded meets converters criteria s.log)) := by
  unfold State.bare
  rw [hquery]
  rfl

/-- What a load makes of a read that leaves out only what its start has folded. -/
theorem finish_read {criteria : EventCriteria} {start : Option ℤ} {n marker : ℕ} {position : ℤ}
    {events : List (EventMessage P)} {state : JsValue}
    (hquery : compileQuery (d.query id) = .ok criteria) (hn : start.getD 0 = n)
    (hle : n ≤ log.length + 1)
    (hread : sourceOnce meets converters log (d.query id) start marker =
      some (.ok (events, position)))
    (hstate : d.fold state (decoded meets converters criteria (log.drop n)) =
      d.fold (d.initial id) (decoded meets converters criteria log)) (time : ℕ) :
    (d.finish state events position time).state =
        d.fold (d.initial id) (decoded meets converters criteria log) ∧
      (d.finish state events position time).markerPosition ≤ log.length ∧
      ∀ snapshot, (d.finish state events position time).write = some snapshot →
        Faithful meets converters d log id snapshot := by
  obtain ⟨criteria', hquery', hcases⟩ := sourceOnce_cases hread
  rw [hquery] at hquery'
  cases hquery'
  rw [hn, Int.toNat_natCast] at hcases
  rcases hcases with ⟨hpast, rfl, rfl⟩ | ⟨-, rfl, hmarker, hnone, rfl⟩
  · -- Past the head: the start is one above it, and nothing is there.
    have hdrop : log.drop n = [] := List.drop_eq_nil_of_le (by omega)
    rw [hdrop] at hstate
    refine ⟨hstate, ?_, ?_⟩
    · change (n : ℤ) - 1 ≤ log.length
      omega
    · intro snapshot hwrite
      exact absurd rfl (finish_write d hwrite).1
  · refine ⟨hstate, ?_, ?_⟩
    · change (marker : ℤ) ≤ log.length
      omega
    · intro snapshot hwrite
      obtain ⟨hsome, rfl⟩ := finish_write d hwrite
      refine ⟨criteria, marker, hquery, rfl, hmarker, ?_⟩
      rw [decoded_take_marker hnone hsome]
      exact hstate

/-- The load as a whole: it returns the fold of all matching events. -/
theorem load_whole {l : Loading Id} {marker time : ℕ} {position : ℤ}
    {events : List (EventMessage P)} {result : LoadResult}
    (hfaithful : ∀ snapshot, l.snapshot = some snapshot →
      Faithful meets converters d log l.id snapshot)
    (hclear : skipsNothing meets d log l = true)
    (hread : sourceOnce meets converters log (d.query l.id) l.start marker =
      some (.ok (events, position)))
    (hresult : d.resume l.id ⟨events, position, l.snapshot⟩ time = some result) :
    ∃ criteria, compileQuery (d.query l.id) = .ok criteria ∧
      result.state = d.fold (d.initial l.id) (decoded meets converters criteria log) ∧
      result.markerPosition ≤ log.length ∧
      ∀ snapshot, result.write = some snapshot →
        Faithful meets converters d log l.id snapshot := by
  obtain ⟨criteria, hquery, -⟩ := sourceOnce_cases hread
  refine ⟨criteria, hquery, ?_⟩
  obtain ⟨id, snapshot⟩ := l
  cases snapshot with
  | none =>
      cases hresult
      exact finish_read hquery rfl (Nat.zero_le _) hread (by rw [List.drop_zero]) time
  | some snapshot =>
      obtain ⟨criteria', m, hquery', hposition, hm, hstate⟩ := hfaithful snapshot rfl
      rw [hquery] at hquery'
      cases hquery'
      simp only [SnapshottedState.resume] at hresult
      split_ifs at hresult with hfits
      cases hresult
      have hskip : log[m]?.any (matching meets (criteriaToCriterions criteria)) = false := by
        simp only [skipsNothing, hquery, hfits, Bool.not_true, Bool.false_or, Bool.not_eq_true',
          hposition, Int.toNat_natCast] at hclear
        exact hclear
      refine finish_read (n := m + 1) hquery ?_ (by omega) hread ?_ time
      · change snapshot.position + 1 = _
        rw [hposition]
        rfl
      · rw [hstate, ← fold_append, ← decoded_drop_succ hskip, ← decoded_split]

/-- A load returned: it is sound, and what it leaves to be added is faithful. -/
theorem Inv.settle (hround : Survives serializer d) {i : ℕ} {result : Except String LoadResult}
    (h : Inv meets converters serializer d snapshotIdentifier s)
    (hstate : result.map LoadResult.state = s.bare meets converters d id)
    (hmarker : ∀ r, result = .ok r → r.markerPosition ≤ s.log.length)
    (hwrite : ∀ r snapshot, result = .ok r → r.write = some snapshot →
      Faithful meets converters d s.log id snapshot) :
    Inv meets converters serializer d snapshotIdentifier
      (s.settle meets converters serializer d snapshotIdentifier i id result) := by
  refine ⟨h.added, fun l hl => h.loading l (List.mem_of_mem_eraseIdx hl), ?_, ?_⟩
  · intro entry hentry
    simp only [State.settle] at hentry
    split at hentry
    · rename_i state position snapshot
      rcases List.mem_append.mp hentry with hentry | hentry
      · exact h.writes entry hentry
      · have hf := hwrite _ snapshot rfl rfl
        rw [List.mem_singleton.mp hentry]
        refine ⟨id, rfl, ?_⟩
        change Faithful meets converters d s.log id (snapshotFromProto serializer
          (serializer.serialize snapshot.state) snapshot.position)
        rw [hf.stored hround]
        exact hf
    · exact h.writes entry hentry
  · intro l hl
    rcases List.mem_append.mp hl with hl | hl
    · exact h.loads l hl
    · rw [List.mem_singleton.mp hl]
      exact ⟨hstate, hmarker, le_rfl⟩

theorem Inv.append (h : Inv meets converters serializer d snapshotIdentifier s)
    (later : List (TaggedEvent W)) :
    Inv meets converters serializer d snapshotIdentifier { s with log := s.log ++ later } := by
  refine ⟨fun entry hentry => (h.added entry hentry).append later,
    fun l hl snapshot hsnapshot => (h.loading l hl snapshot hsnapshot).append later,
    fun entry hentry => (h.writes entry hentry).append later, ?_⟩
  intro l hl
  have hsound := h.loads l hl
  refine ⟨hsound.state, hsound.marker, ?_⟩
  have hseen := hsound.seen
  change l.seen ≤ (s.log ++ later).length
  rw [List.length_append]
  omega

theorem Inv.getLast (hid : Function.Injective snapshotIdentifier) {entry : Entry B}
    (h : Inv meets converters serializer d snapshotIdentifier s) (hentry : entry ∈ s.added)
    (hkey : entry.key = d.keyFor snapshotIdentifier id) :
    Faithful meets converters d s.log id
      (snapshotFromProto serializer entry.payload entry.sequence) := by
  obtain ⟨id', hkey', hf⟩ := h.added entry hentry
  rw [d.keyFor_injective hid (hkey.symm.trans hkey')]
  exact hf

/-- The second call of a load, whatever comes of it. -/
theorem Inv.source (hround : Survives serializer d) {i marker time : ℕ}
    (h : Inv meets converters serializer d snapshotIdentifier s)
    (hclear : resumesClear meets d s (.source i marker time : Action Id P) = true)
    (hstep : step meets converters serializer d snapshotIdentifier s (.source i marker time) =
      some s') :
    Inv meets converters serializer d snapshotIdentifier s' := by
  simp only [step] at hstep
  obtain ⟨l, hget, hstep⟩ := Option.bind_eq_some_iff.mp hstep
  obtain ⟨reply, hread, hstep⟩ := Option.bind_eq_some_iff.mp hstep
  have hl := List.mem_of_getElem? hget
  simp only [resumesClear, hget, Option.all_some] at hclear
  cases reply with
  | error e =>
      cases hstep
      refine h.settle hround ?_ (fun r hr => by cases hr) (fun r snapshot hr => by cases hr)
      unfold State.bare
      rw [sourceOnce_error hread]
      rfl
  | ok read =>
      obtain ⟨events, position⟩ := read
      cases hresult : d.resume l.id ⟨events, position, l.snapshot⟩ time with
      | none =>
          simp only [hresult] at hstep
          cases hstep
          refine ⟨h.added, ?_, h.writes, h.loads⟩
          intro l' hl' snapshot hsnapshot
          rcases List.mem_or_eq_of_mem_set hl' with hl' | rfl
          · exact h.loading l' hl' snapshot hsnapshot
          · cases hsnapshot
      | some result =>
          simp only [hresult] at hstep
          cases hstep
          obtain ⟨criteria, hquery, hstate, hmarker, hwrite⟩ :=
            load_whole (h.loading l hl) hclear hread hresult
          refine h.settle hround ?_ ?_ ?_
          · rw [bare_eq hquery, ← hstate]
            rfl
          · intro r hr
            cases hr
            exact hmarker
          · intro r snapshot hr hsnapshot
            cases hr
            exact hwrite snapshot hsnapshot

theorem Inv.step (hid : Function.Injective snapshotIdentifier) (hround : Survives serializer d)
    {a : Action Id P} (h : Inv meets converters serializer d snapshotIdentifier s)
    (hclear : resumesClear meets d s a = true)
    (hstep : Snapshotting.step meets converters serializer d snapshotIdentifier s a = some s') :
    Inv meets converters serializer d snapshotIdentifier s' := by
  cases a with
  | append events condition =>
      simp only [Snapshotting.step] at hstep
      split at hstep
      · rename_i log hlog
        cases hstep
        obtain ⟨later, rfl⟩ := appendEvents_grows hlog
        exact h.append later
      · cases hstep
        exact h
  | getLast id found =>
      have hput : ∀ snapshot : Option Snapshot,
          (∀ v, snapshot = some v → Faithful meets converters d s.log id v) →
          Inv meets converters serializer d snapshotIdentifier
            { s with loading := s.loading ++ [⟨id, snapshot⟩] } := by
        intro snapshot hf
        refine ⟨h.added, ?_, h.writes, h.loads⟩
        intro l hl v hv
        rcases List.mem_append.mp hl with hl | hl
        · exact h.loading l hl v hv
        · rw [List.mem_singleton.mp hl] at hv ⊢
          exact hf v hv
      cases found with
      | none =>
          cases hstep
          exact hput none (fun v hv => by cases hv)
      | some k =>
          simp only [Snapshotting.step] at hstep
          obtain ⟨entry, hget, hstep⟩ := Option.bind_eq_some_iff.mp hstep
          split_ifs at hstep with hlast
          cases hstep
          refine hput _ ?_
          intro v hv
          cases hv
          exact h.getLast hid (List.mem_of_getElem? hget) hlast.1
  | source i marker time => exact h.source hround hclear hstep
  | fail i =>
      cases hstep
      exact ⟨h.added, fun l hl => h.loading l (List.mem_of_mem_eraseIdx hl), h.writes, h.loads⟩
  | land i =>
      simp only [Snapshotting.step] at hstep
      obtain ⟨entry, hget, hstep⟩ := Option.bind_eq_some_iff.mp hstep
      cases hstep
      refine ⟨?_, h.loading, fun w hw => h.writes w (List.mem_of_mem_eraseIdx hw), h.loads⟩
      intro entry' hentry
      rcases List.mem_append.mp hentry with hentry | hentry
      · exact h.added entry' hentry
      · rw [List.mem_singleton.mp hentry]
        exact h.writes entry (List.mem_of_getElem? hget)
  | lose i =>
      cases hstep
      exact ⟨h.added, h.loading, fun w hw => h.writes w (List.mem_of_mem_eraseIdx hw), h.loads⟩

theorem inv_initial : Inv meets converters serializer d snapshotIdentifier initial := by
  refine ⟨?_, ?_, ?_, ?_⟩ <;> simp [initial]

/-- Where no load resumes over a matching event at the position of its snapshot,
every load returns the fold of all matching events, and once another is appended
an append conditioned on its marker is refused. -/
theorem snapshots_transparent_on_axonServer (hid : Function.Injective snapshotIdentifier)
    (hround : Survives serializer d)
    (hs : Reach (step meets converters serializer d snapshotIdentifier)
      (fun s a => resumesClear meets d s a = true) initial s) :
    ∀ l ∈ s.loads, l.result.map LoadResult.state = l.bare ∧
      ∀ r criteria events, l.result = .ok r → compileQuery (d.query l.id) = .ok criteria →
        (s.log.drop l.seen).any (matching meets (criteriaToCriterions criteria)) = true →
        appendEvents meets converters s.log events (some (d.query l.id, r.markerPosition)) =
          .error .refused := by
  have hinv : Inv meets converters serializer d snapshotIdentifier s :=
    hs.invariant inv_initial fun _ _ _ _ hi hclear hstep => hi.step hid hround hclear hstep
  intro l hl
  have hsound := hinv.loads l hl
  refine ⟨hsound.state, ?_⟩
  intro r criteria events hr hquery hlater
  exact appendEvents_refused hquery (hsound.marker r hr) hlater

end Proof

/-- Counts the openings of a course, in strokes, and snapshots every fold. -/
def courseOpenings : SnapshottedState String Unit where
  query := fun id => .item ⟨some [("course", id)], none⟩
  initial := fun _ => .primitive .string ""
  evolvers := [(⟨"course", "Opened"⟩, fun state _ =>
    match state with
    | .primitive .string strokes => .primitive .string (strokes ++ "|")
    | _ => state)]
  key := "openings-v1"
  when := fun _ => true

/-- Any of the names, none meaning all, and all of the tags. -/
def tagsAndNames (criterion : Criterion) (event : TaggedEvent Unit) : Bool :=
  (criterion.name.isEmpty || criterion.name.contains event.name) &&
    criterion.tag.all fun t => event.tag.contains t

def sameContent : Converters Unit Unit := ⟨id, id⟩

/-- Bytes stand for the value they encode, and there are some. -/
def wholeSerializer : Serializer JsValue := ⟨id, id, fun _ => 1⟩

def opened (course : String) : EventMessage Unit := ⟨⟨"course", "Opened"⟩, [⟨"course", course⟩], ()⟩

/-- What a load returned, as text. -/
def shown : Except String JsValue → String
  | .ok (.primitive _ value) => value
  | _ => "?"

/-- Another course's event takes the sequence at the snapshot's position; then one
of the course is appended before the second load, and one after it. -/
def resumedClear : List (Action String Unit) :=
  [.append [opened "c1"] none, .getLast "c1" none, .source 0 1 0, .land 0,
    .append [opened "c2"] none, .append [opened "c1"] none, .getLast "c1" (some 0), .source 0 3 0,
    .append [opened "c1"] none]

theorem snapshots_transparent_resumed_clear :
    ∃ s : State String Unit JsValue,
      Reach (step tagsAndNames sameContent wholeSerializer courseOpenings id)
        (fun s a => resumesClear tagsAndNames courseOpenings s a = true) initial s ∧
      ∃ l ∈ s.loads, ∃ r, l.result = .ok r ∧ shown (.ok r.state) = "||" ∧
        l.result.map LoadResult.state = l.bare ∧
        appendEvents tagsAndNames sameContent s.log [opened "c1"]
          (some (courseOpenings.query l.id, r.markerPosition)) = .error .refused := by
  obtain ⟨s, hs, l, hl, hcourse, hbare, hlater⟩ := reach_guarded_any
    (P := fun s => ∃ l ∈ s.loads, l.id = "c1" ∧ shown l.bare = "||" ∧
      (s.log.drop l.seen).any (matching tagsAndNames [⟨[], [⟨"course", "c1"⟩]⟩]) = true)
    (show ((exec (guarded (step tagsAndNames sameContent wholeSerializer courseOpenings id)
      (fun s a => resumesClear tagsAndNames courseOpenings s a = true))
      (initial : State String Unit JsValue) resumedClear).any fun s => decide _) = true
      by decide +kernel)
  have hround : Survives wholeSerializer courseOpenings := fun _ _ => ⟨Nat.one_pos, rfl⟩
  obtain ⟨hstate, hrefused⟩ :=
    snapshots_transparent_on_axonServer Function.injective_id hround hs l hl
  have hquery : compileQuery (courseOpenings.query l.id) = .ok (.tags [⟨"course", "c1"⟩]) := by
    rw [hcourse]
    rfl
  rw [← hstate] at hbare
  cases hr : l.result with
  | error e =>
      rw [hr] at hbare
      change "?" = "||" at hbare
      exact absurd hbare (by decide)
  | ok r =>
      rw [hr] at hbare
      exact ⟨s, hs, l, hl, r, hr, hbare, hstate, hrefused r _ _ hr hquery hlater⟩

/-- The course's second event takes the sequence that is the snapshot's position. -/
def skipping : List (Action String Unit) :=
  [.append [opened "c1"] none, .getLast "c1" none, .source 0 1 0, .land 0,
    .append [opened "c1"] none, .getLast "c1" (some 0), .source 0 2 0]

/-- The load takes no notice of the event, and neither does an append on its marker. -/
def skipped (log : List (TaggedEvent Unit)) (l : Load String) : Bool :=
  match l.result with
  | .error _ => false
  | .ok r => decide (shown (.ok r.state) = "|" ∧ shown l.bare = "||") &&
      (appendEvents tagsAndNames sameContent log [opened "c1"]
        (some (courseOpenings.query l.id, r.markerPosition))).isOk

theorem load_skips_event_at_marker :
    ∃ s : State String Unit JsValue,
      Reach (step tagsAndNames sameContent wholeSerializer courseOpenings id) always initial s ∧
      ∃ l ∈ s.loads, skipped s.log l = true ∧ l.result.map LoadResult.state ≠ l.bare := by
  obtain ⟨s, hs, l, hl, hskipped⟩ := reach_exec_any
    (P := fun s => ∃ l ∈ s.loads, skipped s.log l = true)
    (show ((exec (step tagsAndNames sameContent wholeSerializer courseOpenings id)
      (initial : State String Unit JsValue) skipping).any fun s => decide _) = true
      by decide +kernel)
  refine ⟨s, hs, l, hl, hskipped, ?_⟩
  intro heq
  unfold skipped at hskipped
  split at hskipped
  · cases hskipped
  · rename_i r hr
    rw [Bool.and_eq_true, decide_eq_true_eq] at hskipped
    have hbare := hskipped.1.2
    rw [← heq, hr] at hbare
    exact absurd (hskipped.1.1.symm.trans hbare) (by decide)

end Kronos.AxonServer.Snapshotting
