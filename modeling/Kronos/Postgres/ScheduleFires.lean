import Kronos.Postgres.Scheduling

/-!
# A schedule fires at most once and a cancellation is final

While a transaction is open it has exclusive locks on the rows it writes, so
what is committed under its locks stays as it was when it locked them
(`Active.frame`). It writes over pending rows only, and a tick that has come to
its end has marked exactly the rows whose events it inserts; a commit therefore
keeps the log and the appended rows the same set of schedules.
-/
namespace Kronos.Postgres.Scheduling
open Kronos.Lib.Slots Kronos.Lib.Transition

variable {E : Type} {world after : World E} {table : Table E} {transaction next : Transaction E}
  {i : ℕ} {id : String}

def Table.status (table : Table E) (id : String) : Option Status :=
  (table id).map fun row => row.status

/-- The schedules whose events are in a log. -/
def fired (log : List (String × E)) : List String := log.map Prod.fst

namespace Transaction

/-- The calls of `cancelSchedule` between their two statements. -/
def cancelling (transaction : Transaction E) : List String :=
  match transaction.progress with
  | .task cancelling => cancelling
  | _ => []

/-- The rows a tick still has to mark. -/
def rows (transaction : Transaction E) : List (String × ScheduleRow E) :=
  match transaction.progress with
  | .firing rows _ => rows
  | _ => []

/-- The row whose event is inserted and whose status is not yet set. -/
def halfway (transaction : Transaction E) : List String :=
  match transaction.progress with
  | .firing ((id, _)::_) true => [id]
  | _ => []

end Transaction

/-! ## Tables -/

theorem Table.set_self (table : Table E) (id : String) (row : ScheduleRow E) :
    table.set id row id = some row := by
  simp [Table.set]

theorem Table.set_of_ne (table : Table E) {key : String} (row : ScheduleRow E) (h : key ≠ id) :
    table.set id row key = table key := by
  simp [Table.set, h]

theorem Table.status_set_self (table : Table E) (id : String) (row : ScheduleRow E) :
    (table.set id row).status id = some row.status := by
  simp [Table.status, Table.set_self]

theorem Table.status_set_of_ne (table : Table E) {key : String} (row : ScheduleRow E)
    (h : key ≠ id) : (table.set id row).status key = table.status key := by
  simp [Table.status, Table.set_of_ne table row h]

theorem Table.over_of_none {writes : Table E} (table : Table E) (h : writes id = none) :
    writes.over table id = table id := by
  simp [Table.over, h]

theorem Table.over_of_some {writes : Table E} (table : Table E) {row : ScheduleRow E}
    (h : writes id = some row) : writes.over table id = some row := by
  simp [Table.over, h]

theorem Table.over_congr {writes : Table E} {table table' : Table E} (h : table' id = table id) :
    writes.over table' id = writes.over table id := by
  simp [Table.over, h]

/-- What a transaction sees is its own write or what is committed. -/
theorem Table.over_eq_some {writes table : Table E} {row : ScheduleRow E}
    (h : writes.over table id = some row) :
    writes id = some row ∨ (writes id = none ∧ table id = some row) := by
  unfold Table.over at h
  cases hw : writes id with
  | none => rw [hw] at h; exact .inr ⟨rfl, h⟩
  | some own => rw [hw] at h; exact .inl h

theorem Table.status_of_some {row : ScheduleRow E} (h : table id = some row) :
    table.status id = some row.status := by
  simp [Table.status, h]

theorem Table.status_of_none (h : table id = none) : table.status id = none := by
  simp [Table.status, h]

/-! ## One transaction -/

/-- A row that is committed as pending, or not committed at all. -/
def Replaceable (table : Table E) (id : String) : Prop :=
  ∀ status, table.status id = some status → status = .pending

structure Active (table : Table E) (transaction : Transaction E) : Prop where
  locked : ∀ id, (transaction.writes id).isSome → id ∈ transaction.locks
  replaceable : ∀ id, (transaction.writes id).isSome → Replaceable table id
  known : ∀ id, (transaction.writes id).isSome → (table id).isSome ∨ id ∈ transaction.armed
  events : ∀ id, id ∈ fired transaction.events ↔
    transaction.writes.status id = some .appended ∨ id ∈ transaction.halfway
  once : (fired transaction.events).Nodup
  idle : ∀ cancelling, transaction.progress = .task cancelling → transaction.events = []
  cancelled : ∀ id, (id, .cancelled) ∈ transaction.answers →
    transaction.writes.status id = some .cancelled
  cancelling : ∀ id ∈ transaction.cancelling, id ∈ transaction.locks ∧ Replaceable table id ∧
    (transaction.writes.over table id).isSome
  rows : ∀ row ∈ transaction.rows, row.1 ∈ transaction.locks ∧
    table.status row.1 = some .pending ∧ transaction.writes row.1 = none
  distinct : (transaction.rows.map Prod.fst).Nodup
  fresh : ∀ batchSize, transaction.progress = .ticking batchSize →
    ∀ id, transaction.writes id = none

/-- What is committed under the locks of a transaction is all it depends on. -/
theorem Active.frame {table' : Table E} (h : Active table transaction)
    (hsame : ∀ id ∈ transaction.locks, table' id = table id) : Active table' transaction where
  locked := h.locked
  replaceable := by
    intro id hwrites status hstatus
    have heq := hsame id (h.locked id hwrites)
    apply h.replaceable id hwrites status
    rw [← hstatus, Table.status, Table.status, heq]
  known := by
    intro id hwrites
    rw [hsame id (h.locked id hwrites)]
    exact h.known id hwrites
  events := h.events
  once := h.once
  idle := h.idle
  cancelled := h.cancelled
  cancelling := by
    intro id hid
    obtain ⟨hlock, hrep, hseen⟩ := h.cancelling id hid
    have heq := hsame id hlock
    refine ⟨hlock, ?_, ?_⟩
    · intro status hstatus
      apply hrep status
      rw [← hstatus, Table.status, Table.status, heq]
    · rw [Table.over_congr heq]
      exact hseen
  rows := by
    intro row hrow
    obtain ⟨hlock, hstatus, hnone⟩ := h.rows row hrow
    refine ⟨hlock, ?_, hnone⟩
    rw [← hstatus, Table.status, Table.status, hsame row.1 hlock]
  distinct := h.distinct
  fresh := h.fresh

/-- What one statement makes of a transaction. -/
structure Ran (world : World E) (i : ℕ) (transaction next : Transaction E) : Prop where
  ending : next.ending ≠ .committed
  locks : ∀ id ∈ next.locks, id ∈ transaction.locks ∨ world.lockedByOther i id = false
  answers : ∀ id, (id, .alreadyAppended) ∈ next.answers →
    (id, .alreadyAppended) ∈ transaction.answers ∨ world.scheduled.status id = some .appended
  active : next.ending = .active → Active world.scheduled next

theorem Ran.rollback (world : World E) (i : ℕ) (transaction : Transaction E) :
    Ran world i transaction transaction.rollback where
  ending := by
    intro h
    cases h
  locks := fun id hid => .inl hid
  answers := fun id hid => .inl hid
  active := by
    intro h
    cases h

theorem isSome_set {writes : Table E} {key : String} {row : ScheduleRow E}
    (h : (writes.set id row key).isSome) : key = id ∨ (writes key).isSome := by
  rcases eq_or_ne key id with heq | hne
  · exact .inl heq
  · rw [Table.set_of_ne writes row hne] at h
    exact .inr h

/-! Changes that keep a transaction sound -/

theorem Active.lock (h : Active table transaction) (ids : List String) :
    Active table { transaction with locks := ids ++ transaction.locks } where
  locked := fun id hid => List.mem_append_right _ (h.locked id hid)
  replaceable := h.replaceable
  known := h.known
  events := h.events
  once := h.once
  idle := h.idle
  cancelled := h.cancelled
  cancelling := fun id hid =>
    ⟨List.mem_append_right _ (h.cancelling id hid).1, (h.cancelling id hid).2⟩
  rows := fun row hrow => ⟨List.mem_append_right _ (h.rows row hrow).1, (h.rows row hrow).2⟩
  distinct := h.distinct
  fresh := h.fresh

theorem Active.arm (h : Active table transaction) (id : String) :
    Active table { transaction with armed := id::transaction.armed } where
  locked := h.locked
  replaceable := h.replaceable
  known := fun key hkey => (h.known key hkey).imp_right fun harmed => List.mem_cons_of_mem _ harmed
  events := h.events
  once := h.once
  idle := h.idle
  cancelled := h.cancelled
  cancelling := h.cancelling
  rows := h.rows
  distinct := h.distinct
  fresh := h.fresh

theorem Active.answer (h : Active table transaction) {result : CancelResult}
    (hresult : result = .cancelled → transaction.writes.status id = some .cancelled) :
    Active table (transaction.answer id result) where
  locked := h.locked
  replaceable := h.replaceable
  known := h.known
  events := h.events
  once := h.once
  idle := h.idle
  cancelled := by
    intro key hkey
    rcases List.mem_append.mp hkey with hold | hnew
    · exact h.cancelled key hold
    · cases List.mem_singleton.mp hnew
      exact hresult rfl
  cancelling := h.cancelling
  rows := h.rows
  distinct := h.distinct
  fresh := h.fresh

/-- The calls in flight of a task change. -/
theorem Active.task (h : Active table transaction) {before : List String}
    (hprogress : transaction.progress = .task before) (calls : List String)
    (hcalls : ∀ id ∈ calls, id ∈ transaction.locks ∧ Replaceable table id ∧
      (transaction.writes.over table id).isSome) :
    Active table { transaction with progress := .task calls } where
  locked := h.locked
  replaceable := h.replaceable
  known := h.known
  events := by
    intro key
    rw [h.events key, Transaction.halfway, hprogress, Transaction.halfway]
  once := h.once
  idle := fun _ _ => h.idle before hprogress
  cancelled := h.cancelled
  cancelling := hcalls
  rows := by
    intro row hrow
    cases hrow
  distinct := List.nodup_nil
  fresh := by
    intro batchSize hno
    cases hno

/-- A task writes a row it has locked. -/
theorem Active.write (h : Active table transaction) {calls : List String}
    (hprogress : transaction.progress = .task calls) (row : ScheduleRow E)
    (hlock : id ∈ transaction.locks) (hrep : Replaceable table id)
    (hknown : (table id).isSome ∨ id ∈ transaction.armed) (hstatus : row.status ≠ .appended)
    (hcancelled : row.status = .cancelled ∨ transaction.writes id = none) :
    Active table { transaction with writes := transaction.writes.set id row } where
  locked := by
    intro key hkey
    rcases isSome_set hkey with rfl | hold
    · exact hlock
    · exact h.locked key hold
  replaceable := by
    intro key hkey
    rcases isSome_set hkey with rfl | hold
    · exact hrep
    · exact h.replaceable key hold
  known := by
    intro key hkey
    rcases isSome_set hkey with rfl | hold
    · exact hknown
    · exact h.known key hold
  events := by
    intro key
    have hempty := h.idle calls hprogress
    have hold := h.events key
    rw [hempty] at hold
    change key ∈ fired transaction.events ↔ (transaction.writes.set id row).status key = _ ∨
      key ∈ transaction.halfway
    rw [hempty]
    constructor
    · intro hkey
      cases hkey
    · rintro (hwritten | hhalf)
      · rcases eq_or_ne key id with rfl | hne
        · rw [Table.status_set_self] at hwritten
          exact absurd (Option.some.inj hwritten) hstatus
        · rw [Table.status_set_of_ne _ _ hne] at hwritten
          exact hold.mpr (.inl hwritten)
      · exact hold.mpr (.inr hhalf)
  once := h.once
  idle := h.idle
  cancelled := by
    intro key hkey
    have hold := h.cancelled key hkey
    rcases eq_or_ne key id with rfl | hne
    · rw [Table.status_set_self]
      rcases hcancelled with hnew | hnone
      · rw [hnew]
      · rw [Table.status_of_none hnone] at hold
        cases hold
    · rw [Table.status_set_of_ne _ _ hne]
      exact hold
  cancelling := by
    intro key hkey
    obtain ⟨hkeylock, hkeyrep, hseen⟩ := h.cancelling key hkey
    refine ⟨hkeylock, hkeyrep, ?_⟩
    rcases eq_or_ne key id with rfl | hne
    · rw [Table.over_of_some _ (Table.set_self _ _ _)]
      rfl
    · change ((transaction.writes.set id row key).or (table key)).isSome
      rw [Table.set_of_ne _ _ hne]
      exact hseen
  rows := by
    intro row hrow
    rw [Transaction.rows, hprogress] at hrow
    cases hrow
  distinct := h.distinct
  fresh := by
    intro batchSize hno
    rw [show transaction.progress = _ from hno] at hprogress
    cases hprogress

/-! The statements -/

/-- A new row: nobody sees it yet, and nobody else is inserting it. -/
theorem Active.insertSchedule {fireAt : ℤ} {event : E} (hA : Active world.scheduled transaction)
    (hactive : transaction.ending = .active)
    (h : transaction.insertSchedule world i id fireAt event = some next) :
    Ran world i transaction next := by
  unfold Transaction.insertSchedule at h
  split at h
  case h_2 => cases h
  case h_1 calls hprogress =>
    split_ifs at h with hseen hlocked
    · cases h
      exact Ran.rollback world i transaction
    · cases h
      have hview : transaction.writes.over world.scheduled id = none := by
        simpa [World.view] using hseen
      have hwrites : transaction.writes id = none := by
        cases hw : transaction.writes id with
        | none => rfl
        | some row =>
            rw [Table.over_of_some _ hw] at hview
            cases hview
      have htable : world.scheduled id = none := by
        rw [← hview, Table.over_of_none _ hwrites]
      refine ⟨by simp [hactive], ?_, fun key hkey => .inl hkey, fun _ => ?_⟩
      · intro key hkey
        rcases List.mem_cons.mp hkey with rfl | hold
        · exact .inr (by simpa using hlocked)
        · exact .inl hold
      · have hrep : Replaceable world.scheduled id := by
          intro status hstatus
          rw [Table.status_of_none htable] at hstatus
          cases hstatus
        exact ((hA.lock [id]).arm id).write hprogress _ List.mem_cons_self hrep
          (.inr List.mem_cons_self) (by simp) (.inr hwrites)

/-- A task inserts no events, so the rows it has written are not appended ones. -/
theorem Active.writes_not_appended (h : Active table transaction) {calls : List String}
    (hprogress : transaction.progress = .task calls) (id : String) :
    transaction.writes.status id ≠ some .appended := by
  intro hstatus
  have hfired := (h.events id).mpr (.inl hstatus)
  rw [h.idle calls hprogress] at hfired
  cases hfired

/-- A row seen as pending was committed as pending, or not at all. -/
theorem Active.replaceable_of_view (h : Active table transaction) {row : ScheduleRow E}
    (hview : transaction.writes.over table id = some row) (hstatus : row.status = .pending) :
    Replaceable table id := by
  rcases Table.over_eq_some hview with hown | ⟨-, htable⟩
  · exact h.replaceable id (by rw [hown]; rfl)
  · intro status heq
    rw [Table.status_of_some htable, hstatus] at heq
    exact (Option.some.inj heq).symm

theorem mem_locks_cons {ids : List String} (hfree : world.lockedByOther i id = false) :
    ∀ key ∈ id::ids, key ∈ ids ∨ world.lockedByOther i key = false := by
  intro key hkey
  rcases List.mem_cons.mp hkey with rfl | hold
  · exact .inr hfree
  · exact .inl hold

theorem answers_concat {answers : List (String × CancelResult)} {result : CancelResult}
    (hresult : result = .alreadyAppended → world.scheduled.status id = some .appended) :
    ∀ key, (key, .alreadyAppended) ∈ answers ++ [(id, result)] →
      (key, .alreadyAppended) ∈ answers ∨ world.scheduled.status key = some .appended := by
  intro key hkey
  rcases List.mem_append.mp hkey with hold | hnew
  · exact .inl hold
  · cases List.mem_singleton.mp hnew
    exact .inr (hresult rfl)

theorem Active.selectForUpdate (hA : Active world.scheduled transaction)
    (hactive : transaction.ending = .active)
    (h : transaction.selectForUpdate world i id = some next) : Ran world i transaction next := by
  unfold Transaction.selectForUpdate at h
  split at h
  case h_2 => cases h
  case h_1 calls hprogress =>
    split at h
    case h_1 hview =>
      cases h
      exact ⟨by simp [Transaction.answer, hactive], fun key hkey => .inl hkey,
        answers_concat (by intro hno; cases hno), fun _ => hA.answer (by intro hno; cases hno)⟩
    case h_2 row hview =>
      split_ifs at h with hlocked
      have hfree : world.lockedByOther i id = false := by simpa using hlocked
      have hA' := hA.lock [id]
      split at h
      case h_1 hstatus =>
        cases h
        have happended : world.scheduled.status id = some .appended := by
          rcases Table.over_eq_some hview with hown | ⟨-, htable⟩
          · have hno := hA.writes_not_appended hprogress id
            rw [Table.status_of_some hown, hstatus] at hno
            exact absurd rfl hno
          · rw [Table.status_of_some htable, hstatus]
        exact ⟨by simp [Transaction.answer, hactive], mem_locks_cons hfree,
          answers_concat fun _ => happended, fun _ => hA'.answer (by intro hno; cases hno)⟩
      case h_2 hstatus =>
        cases h
        exact ⟨by simp [Transaction.answer, hactive], mem_locks_cons hfree,
          answers_concat (by intro hno; cases hno), fun _ => hA'.answer (by intro hno; cases hno)⟩
      case h_3 hstatus =>
        cases h
        refine ⟨by simp [hactive], mem_locks_cons hfree, fun key hkey => .inl hkey,
          fun _ => hA'.task hprogress _ ?_⟩
        intro key hkey
        rcases List.mem_cons.mp hkey with rfl | hold
        · exact ⟨List.mem_cons_self, hA.replaceable_of_view hview hstatus,
            by rw [show transaction.writes.over world.scheduled key = some row from hview]; rfl⟩
        · have hcall := hA'.cancelling key
          rw [Transaction.cancelling, hprogress] at hcall
          exact hcall hold

theorem setStatus_of_view {row : ScheduleRow E} {status : Status}
    (hview : transaction.writes.over world.scheduled id = some row) :
    transaction.setStatus world id status =
      { transaction with writes := transaction.writes.set id { row with status := status } } := by
  unfold Transaction.setStatus World.view
  rw [hview]

theorem Active.updateCancelled (hA : Active world.scheduled transaction)
    (hactive : transaction.ending = .active)
    (h : transaction.updateCancelled world id = some next) : Ran world i transaction next := by
  unfold Transaction.updateCancelled at h
  split at h
  case h_2 => cases h
  case h_1 calls hprogress =>
    split_ifs at h with hcall
    have hcalls : ∀ key ∈ calls, key ∈ transaction.locks ∧ Replaceable world.scheduled key ∧
        (transaction.writes.over world.scheduled key).isSome := by
      intro key hkey
      apply hA.cancelling key
      rw [Transaction.cancelling, hprogress]
      exact hkey
    obtain ⟨hlock, hrep, hseen⟩ := hcalls id hcall
    obtain ⟨row, hview⟩ := Option.isSome_iff_exists.mp hseen
    rw [setStatus_of_view hview] at h
    cases h
    have hknown : (world.scheduled id).isSome ∨ id ∈ transaction.armed := by
      rcases Table.over_eq_some hview with hown | ⟨-, htable⟩
      · exact hA.known id (by rw [hown]; rfl)
      · exact .inl (by rw [htable]; rfl)
    have hwritten := hA.write hprogress { row with status := .cancelled } hlock hrep hknown
      (by simp) (.inl rfl)
    refine ⟨by simp [Transaction.answer, hactive], fun key hkey => .inl hkey,
      answers_concat (by intro hno; cases hno), fun _ => ?_⟩
    have htask := hwritten.task hprogress (calls.erase id) ?_
    · exact htask.answer fun _ => Table.status_set_self _ _ _
    · intro key hkey
      have hold := hwritten.cancelling key
      rw [Transaction.cancelling,
        show (_ : Transaction E).progress = .task calls from hprogress] at hold
      exact hold (List.mem_of_mem_erase hkey)

theorem halfway_of_not_appended {rows : List (String × ScheduleRow E)}
    (h : transaction.progress = .firing rows false) : transaction.halfway = [] := by
  rw [Transaction.halfway, h]
  cases rows with
  | nil => rfl
  | cons row rows => rfl

theorem map_fst_filterMap (table : Table E) (ids : List String) :
    (ids.filterMap fun id => (table id).map fun row => (id, row)).map Prod.fst =
      ids.filter fun id => (table id).isSome := by
  induction ids with
  | nil => rfl
  | cons id ids ih =>
      cases hrow : table id with
      | none => simp [hrow, ih]
      | some row => simp [hrow, ih]

theorem Active.selectSkipLocked {ids : List String} {now : ℤ}
    (hA : Active world.scheduled transaction) (hactive : transaction.ending = .active)
    (h : transaction.selectSkipLocked world i ids now = some next) :
    Ran world i transaction next := by
  unfold Transaction.selectSkipLocked at h
  split at h
  case h_2 => cases h
  case h_1 batchSize hprogress =>
    simp only at h
    split_ifs at h with hguard
    obtain ⟨hnodup, -, hdue, -⟩ := hguard
    cases h
    have hpicked : ∀ key ∈ ids, world.lockedByOther i key = false ∧
        world.scheduled.status key = some .pending := by
      intro key hkey
      have hkeydue := List.all_eq_true.mp hdue key hkey
      unfold Transaction.due World.view at hkeydue
      rw [Table.over_of_none _ (hA.fresh batchSize hprogress key)] at hkeydue
      cases htable : world.scheduled key with
      | none => rw [htable] at hkeydue; cases hkeydue
      | some row =>
          rw [htable] at hkeydue
          simp only [Bool.and_eq_true, beq_iff_eq, Bool.not_eq_true'] at hkeydue
          refine ⟨hkeydue.2, ?_⟩
          rw [Table.status_of_some htable, hkeydue.1.1]
    refine ⟨by simp [hactive], ?_, fun key hkey => .inl hkey, fun _ => ?_⟩
    · intro key hkey
      rcases List.mem_append.mp hkey with hnew | hold
      · exact .inr (hpicked key hnew).1
      · exact .inl hold
    · have hA' := hA.lock ids
      exact {
        locked := hA'.locked
        replaceable := hA'.replaceable
        known := hA'.known
        events := by
          intro key
          have hold := hA.events key
          rw [Transaction.halfway, hprogress] at hold
          rw [halfway_of_not_appended rfl]
          exact hold
        once := hA'.once
        idle := by
          intro calls hno
          cases hno
        cancelled := hA'.cancelled
        cancelling := by
          intro key hkey
          cases hkey
        rows := by
          intro row hrow
          obtain ⟨key, hkey, hview⟩ := List.mem_filterMap.mp hrow
          obtain ⟨seen, -, rfl⟩ := Option.map_eq_some_iff.mp hview
          exact ⟨List.mem_append_left _ hkey, (hpicked key hkey).2,
            hA.fresh batchSize hprogress key⟩
        distinct := by
          change List.Nodup (List.map Prod.fst (List.filterMap _ ids))
          rw [map_fst_filterMap]
          exact hnodup.filter _
        fresh := by
          intro n hno
          cases hno }

theorem Active.insertEvent (hA : Active world.scheduled transaction)
    (hactive : transaction.ending = .active)
    (h : transaction.insertEvent world i = some next) : Ran world i transaction next := by
  unfold Transaction.insertEvent at h
  split at h
  case h_2 => cases h
  case h_1 id row rows hprogress =>
    split_ifs at h with hdup hother
    · cases h
      exact Ran.rollback world i transaction
    · cases h
      refine ⟨by simp [hactive], fun key hkey => .inl hkey, fun key hkey => .inl hkey, fun _ => ?_⟩
      have hrows : transaction.rows = (id, row)::rows := by
        rw [Transaction.rows, hprogress]
      exact {
        locked := hA.locked
        replaceable := hA.replaceable
        known := hA.known
        events := by
          intro key
          have hold := hA.events key
          rw [halfway_of_not_appended hprogress] at hold
          simp only [fired, List.map_append, List.mem_append, List.map_cons, List.map_nil,
            Transaction.halfway]
          change key ∈ fired transaction.events ∨ _ ↔ _
          rw [hold]
          simp
        once := by
          simp only [fired, List.map_append]
          refine List.nodup_append.mpr ⟨hA.once, by simp, ?_⟩
          intro a ha b hb hab
          rw [List.map_singleton, List.mem_singleton] at hb
          rw [hab, hb] at ha
          exact hdup (.inr ha)
        idle := by
          intro calls hno
          cases hno
        cancelled := hA.cancelled
        cancelling := by
          intro key hkey
          cases hkey
        rows := by
          intro r hr
          exact hA.rows r (hrows ▸ hr)
        distinct := hrows ▸ hA.distinct
        fresh := by
          intro n hno
          cases hno }

theorem Active.updateAppended (hA : Active world.scheduled transaction)
    (hactive : transaction.ending = .active)
    (h : transaction.updateAppended world = some next) : Ran world i transaction next := by
  unfold Transaction.updateAppended at h
  split at h
  case h_2 => cases h
  case h_1 id seen rows hprogress =>
    have hrows : transaction.rows = (id, seen)::rows := by
      rw [Transaction.rows, hprogress]
    obtain ⟨hlock, hpending, hnone⟩ := hA.rows (id, seen) (by rw [hrows]; exact List.mem_cons_self)
    obtain ⟨row, htable, -⟩ := Option.map_eq_some_iff.mp hpending
    have hview : transaction.writes.over world.scheduled id = some row := by
      rw [Table.over_of_none _ hnone, htable]
    rw [setStatus_of_view hview] at h
    cases h
    have hdistinct := hA.distinct
    rw [hrows, List.map_cons, List.nodup_cons] at hdistinct
    refine ⟨by simp [hactive], fun key hkey => .inl hkey, fun key hkey => .inl hkey, fun _ => ?_⟩
    exact {
      locked := by
        intro key hkey
        rcases isSome_set hkey with rfl | hold
        · exact hlock
        · exact hA.locked key hold
      replaceable := by
        intro key hkey
        rcases isSome_set hkey with rfl | hold
        · intro status hstatus
          rw [hpending] at hstatus
          exact (Option.some.inj hstatus).symm
        · exact hA.replaceable key hold
      known := by
        intro key hkey
        rcases isSome_set hkey with rfl | hold
        · exact .inl (by rw [htable]; rfl)
        · exact hA.known key hold
      events := by
        intro key
        have hold := hA.events key
        rw [Transaction.halfway, hprogress, List.mem_singleton] at hold
        rw [halfway_of_not_appended rfl]
        rcases eq_or_ne key id with rfl | hne
        · simp [Table.status_set_self, hold]
        · simp [Table.status_set_of_ne _ _ hne, hold, hne]
      once := hA.once
      idle := by
        intro calls hno
        cases hno
      cancelled := by
        intro key hkey
        have hold := hA.cancelled key hkey
        rcases eq_or_ne key id with rfl | hne
        · rw [Table.status_of_none hnone] at hold
          cases hold
        · rw [Table.status_set_of_ne _ _ hne]
          exact hold
      cancelling := by
        intro key hkey
        cases hkey
      rows := by
        intro r hr
        obtain ⟨hrlock, hrpending, hrnone⟩ :=
          hA.rows r (by rw [hrows]; exact List.mem_cons_of_mem _ hr)
        refine ⟨hrlock, hrpending, ?_⟩
        have hmem : r ∈ rows := hr
        have hne : r.1 ≠ id := by
          intro heq
          apply hdistinct.1
          rw [← show r.1 = id from heq]
          exact List.mem_map.mpr ⟨r, hmem, rfl⟩
        change transaction.writes.set id _ r.1 = none
        rw [Table.set_of_ne _ _ hne, hrnone]
      distinct := hdistinct.2
      fresh := by
        intro n hno
        cases hno }

theorem Active.run {statement : Statement E} (hA : Active world.scheduled transaction)
    (hactive : transaction.ending = .active)
    (h : transaction.run world i statement = some next) : Ran world i transaction next := by
  cases statement with
  | insertSchedule id fireAt event => exact hA.insertSchedule hactive h
  | selectForUpdate id => exact hA.selectForUpdate hactive h
  | updateCancelled id => exact hA.updateCancelled hactive h
  | selectSkipLocked ids now => exact hA.selectSkipLocked hactive h
  | insertEvent => exact hA.insertEvent hactive h
  | updateAppended => exact hA.updateAppended hactive h

theorem Active.begun {progress : Progress E} (hrows : (Transaction.begun progress).rows = [])
    (hcalls : (Transaction.begun progress).cancelling = [])
    (hhalf : (Transaction.begun progress).halfway = []) :
    Active table (Transaction.begun progress) where
  locked := by
    intro id hid
    cases hid
  replaceable := by
    intro id hid
    cases hid
  known := by
    intro id hid
    cases hid
  events := by
    intro id
    rw [hhalf]
    constructor
    · intro hid
      cases hid
    · rintro (hid | hid)
      · cases hid
      · cases hid
  once := List.nodup_nil
  idle := fun _ _ => rfl
  cancelled := by
    intro id hid
    cases hid
  cancelling := by
    intro id hid
    rw [hcalls] at hid
    cases hid
  rows := by
    intro row hrow
    rw [hrows] at hrow
    cases hrow
  distinct := by
    rw [hrows]
    exact List.nodup_nil
  fresh := fun _ _ _ => rfl

/-! ## The whole system -/

structure Inv (world : World E) : Prop where
  exclusive : ∀ (i j : ℕ) (t u : Transaction E), world.transactions[i]? = some t →
    world.transactions[j]? = some u → i ≠ j → t.ending = .active → u.ending = .active →
    ∀ id ∈ t.locks, id ∉ u.locks
  active : ∀ (i : ℕ) (t : Transaction E), world.transactions[i]? = some t → t.ending = .active →
    Active world.scheduled t
  cancelled : ∀ (i : ℕ) (t : Transaction E), world.transactions[i]? = some t →
    t.ending = .committed → ∀ id, (id, .cancelled) ∈ t.answers →
    world.scheduled.status id = some .cancelled
  answered : ∀ (i : ℕ) (t : Transaction E), world.transactions[i]? = some t →
    ∀ id, (id, .alreadyAppended) ∈ t.answers → id ∈ fired world.log
  appended : ∀ id, world.scheduled.status id = some .appended ↔ id ∈ fired world.log
  once : (fired world.log).Nodup
  armed : ∀ id, (world.scheduled id).isSome →
    ∃ (i : ℕ) (t : Transaction E), world.transactions[i]? = some t ∧ t.ending = .committed ∧
      id ∈ t.armed

theorem Inv.initial : Inv (World.initial : World E) where
  exclusive := by
    intro i j t u ht
    cases ht
  active := by
    intro i t ht
    cases ht
  cancelled := by
    intro i t ht
    cases ht
  answered := by
    intro i t ht
    cases ht
  appended := by
    intro id
    constructor
    · intro hid
      cases hid
    · intro hid
      cases hid
  once := List.nodup_nil
  armed := by
    intro id hid
    cases hid

theorem active_eq_some (h : world.active i = some transaction) :
    world.transactions[i]? = some transaction ∧ transaction.ending = .active := by
  unfold World.active at h
  rw [Option.filter_eq_some_iff] at h
  exact ⟨h.1, by simpa using h.2⟩

theorem Inv.opened (hI : Inv world) {progress : Progress E}
    (hbegun : Active world.scheduled (Transaction.begun progress)) :
    Inv (world.opened progress) where
  exclusive := by
    intro i j t u ht hu hne hta hua id hid hid'
    rcases getElem?_concat_cases ht with ⟨-, rfl⟩ | ht
    · cases hid
    · rcases getElem?_concat_cases hu with ⟨-, rfl⟩ | hu
      · cases hid'
      · exact hI.exclusive i j t u ht hu hne hta hua id hid hid'
  active := by
    intro i t ht hta
    rcases getElem?_concat_cases ht with ⟨-, rfl⟩ | ht
    · exact hbegun
    · exact hI.active i t ht hta
  cancelled := by
    intro i t ht htc id hid
    rcases getElem?_concat_cases ht with ⟨-, rfl⟩ | ht
    · cases htc
    · exact hI.cancelled i t ht htc id hid
  answered := by
    intro i t ht id hid
    rcases getElem?_concat_cases ht with ⟨-, rfl⟩ | ht
    · cases hid
    · exact hI.answered i t ht id hid
  appended := hI.appended
  once := hI.once
  armed := by
    intro id hid
    obtain ⟨i, t, ht, htc, harmed⟩ := hI.armed id hid
    exact ⟨i, t, getElem?_append_of_some ht, htc, harmed⟩

/-- A lock no other transaction holds can be taken. -/
theorem free_of_lockedByOther (h : world.lockedByOther i id = false) {j : ℕ} {u : Transaction E}
    (hu : world.transactions[j]? = some u) (hne : j ≠ i) (hua : u.ending = .active) :
    id ∉ u.locks := by
  have hnot := anyOther_eq_false h hu hne
  simpa [hua] using hnot

/-- One transaction has taken a statement, or has been rolled back. -/
theorem Inv.ran (hI : Inv world) (ht : world.transactions[i]? = some transaction)
    (hactive : transaction.ending = .active) (hran : Ran world i transaction next) :
    Inv (world.set i next) where
  exclusive := by
    have hfree : ∀ (j : ℕ) (u : Transaction E), world.transactions[j]? = some u → j ≠ i →
        u.ending = .active → ∀ id ∈ next.locks, id ∉ u.locks := by
      intro j u hu hne hua id hid
      rcases hran.locks id hid with hold | hfree
      · exact hI.exclusive i j transaction u ht hu hne.symm hactive hua id hold
      · exact free_of_lockedByOther hfree hu hne hua
    intro j k t u ht' hu' hjk hta hua id hid hid'
    rcases getElem?_set_cases ht' with ⟨rfl, rfl⟩ | ⟨hji, htold⟩
    · rcases getElem?_set_cases hu' with ⟨rfl, -⟩ | ⟨hki, huold⟩
      · exact hjk rfl
      · exact hfree k u huold hki hua id hid hid'
    · rcases getElem?_set_cases hu' with ⟨rfl, rfl⟩ | ⟨-, huold⟩
      · exact hfree j t htold hji hta id hid' hid
      · exact hI.exclusive j k t u htold huold hjk hta hua id hid hid'
  active := by
    intro j t ht' hta
    rcases getElem?_set_cases ht' with ⟨rfl, rfl⟩ | ⟨-, ht'⟩
    · exact hran.active hta
    · exact hI.active j t ht' hta
  cancelled := by
    intro j t ht' htc id hid
    rcases getElem?_set_cases ht' with ⟨rfl, rfl⟩ | ⟨-, ht'⟩
    · exact absurd htc hran.ending
    · exact hI.cancelled j t ht' htc id hid
  answered := by
    intro j t ht' id hid
    rcases getElem?_set_cases ht' with ⟨rfl, rfl⟩ | ⟨-, ht'⟩
    · rcases hran.answers id hid with hold | happended
      · exact hI.answered j transaction ht id hold
      · exact (hI.appended id).mp happended
    · exact hI.answered j t ht' id hid
  appended := hI.appended
  once := hI.once
  armed := by
    intro id hid
    obtain ⟨j, t, ht', htc, harmed⟩ := hI.armed id hid
    have hji : j ≠ i := by
      rintro rfl
      rw [ht] at ht'
      cases ht'
      rw [hactive] at htc
      cases htc
    exact ⟨j, t, getElem?_set_of_ne hji ht', htc, harmed⟩

theorem halfway_of_done (h : transaction.done = true) : transaction.halfway = [] := by
  unfold Transaction.done at h
  unfold Transaction.halfway
  split
  case h_1 id seen rows hprogress =>
    rw [hprogress] at h
    cases h
  case h_2 => rfl

/-- A tick that has come to its end has marked what it has inserted. -/
theorem Active.events_of_done (hA : Active table transaction) (h : transaction.done = true) :
    id ∈ fired transaction.events ↔ transaction.writes.status id = some .appended := by
  rw [hA.events id, halfway_of_done h]
  simp

theorem status_over_of_none {writes : Table E} (h : writes id = none) :
    (writes.over table).status id = table.status id := by
  rw [Table.status, Table.over_of_none table h, Table.status]

theorem status_over_of_isSome {writes : Table E} (h : (writes id).isSome) :
    (writes.over table).status id = writes.status id := by
  obtain ⟨row, hrow⟩ := Option.isSome_iff_exists.mp h
  rw [Table.status, Table.over_of_some table hrow, Table.status, hrow]

theorem isSome_of_status {status : Status} (h : table.status id = some status) :
    (table id).isSome := by
  obtain ⟨row, hrow, -⟩ := Option.map_eq_some_iff.mp h
  rw [hrow]
  rfl

/-- A commit writes over pending rows only; others keep the status they had. -/
theorem Active.status_kept (hA : Active table transaction) {status : Status}
    (h : table.status id = some status) (hne : status ≠ .pending) :
    transaction.writes id = none := by
  cases hw : transaction.writes id with
  | none => rfl
  | some row => exact absurd (hA.replaceable id (by rw [hw]; rfl) status h) hne

theorem Inv.commit (hI : Inv world) (ht : world.transactions[i]? = some transaction)
    (hactive : transaction.ending = .active) (hdone : transaction.done = true) :
    Inv (world.commit i transaction) := by
  have hA := hI.active i transaction ht hactive
  have hfired : ∀ id, id ∈ fired (world.commit i transaction).log ↔
      id ∈ fired world.log ∨ id ∈ fired transaction.events := by
    intro id
    simp [World.commit, fired]
  constructor
  case exclusive =>
    intro j k t u ht' hu' hjk hta hua
    rcases getElem?_set_cases ht' with ⟨-, rfl⟩ | ⟨-, htold⟩
    · cases hta
    · rcases getElem?_set_cases hu' with ⟨-, rfl⟩ | ⟨-, huold⟩
      · cases hua
      · exact hI.exclusive j k t u htold huold hjk hta hua
  case active =>
    intro j t ht' hta
    rcases getElem?_set_cases ht' with ⟨-, rfl⟩ | ⟨hji, htold⟩
    · cases hta
    · apply (hI.active j t htold hta).frame
      intro id hid
      apply Table.over_of_none
      cases hw : transaction.writes id with
      | none => rfl
      | some row =>
          have hmine := hA.locked id (by rw [hw]; rfl)
          exact absurd hid
            (hI.exclusive i j transaction t ht htold hji.symm hactive hta id hmine)
  case cancelled =>
    intro j t ht' htc id hid
    rcases getElem?_set_cases ht' with ⟨-, rfl⟩ | ⟨-, htold⟩
    · have hstatus := hA.cancelled id hid
      exact (status_over_of_isSome (isSome_of_status hstatus)).trans hstatus
    · have hstatus := hI.cancelled j t htold htc id hid
      exact (status_over_of_none (hA.status_kept hstatus (by decide))).trans hstatus
  case answered =>
    intro j t ht' id hid
    rw [hfired]
    rcases getElem?_set_cases ht' with ⟨-, rfl⟩ | ⟨-, htold⟩
    · exact .inl (hI.answered i transaction ht id hid)
    · exact .inl (hI.answered j t htold id hid)
  case appended =>
    intro id
    rw [hfired, hA.events_of_done hdone, ← hI.appended id]
    change (transaction.writes.over world.scheduled).status id = _ ↔ _
    constructor
    · intro hstatus
      cases hw : transaction.writes id with
      | none =>
          rw [status_over_of_none hw] at hstatus
          exact .inl hstatus
      | some row =>
          rw [status_over_of_isSome (by rw [hw]; rfl)] at hstatus
          exact .inr hstatus
    · rintro (hstatus | hstatus)
      · exact (status_over_of_none (hA.status_kept hstatus (by decide))).trans hstatus
      · exact (status_over_of_isSome (isSome_of_status hstatus)).trans hstatus
  case once =>
    change (List.map Prod.fst (world.log ++ transaction.events)).Nodup
    rw [List.map_append]
    refine List.nodup_append.mpr ⟨hI.once, hA.once, ?_⟩
    intro a ha b hb hab
    have hmarked := (hA.events_of_done hdone).mp (hab ▸ hb)
    have hkept := hA.status_kept ((hI.appended a).mpr ha) (by decide)
    rw [Table.status_of_none hkept] at hmarked
    cases hmarked
  case armed =>
    intro id hid
    have hcommitted : (world.commit i transaction).transactions[i]? =
        some { transaction with ending := .committed } := getElem?_set_of_some ht
    have hold : (world.scheduled id).isSome → ∃ (j : ℕ) (t : Transaction E),
        (world.commit i transaction).transactions[j]? = some t ∧ t.ending = .committed ∧
          id ∈ t.armed := by
      intro hsome
      obtain ⟨j, t, ht', htc, harmed⟩ := hI.armed id hsome
      have hji : j ≠ i := by
        rintro rfl
        rw [ht] at ht'
        cases ht'
        rw [hactive] at htc
        cases htc
      exact ⟨j, t, getElem?_set_of_ne hji ht', htc, harmed⟩
    cases hw : transaction.writes id with
    | none =>
        change (transaction.writes.over world.scheduled id).isSome at hid
        rw [Table.over_of_none _ hw] at hid
        exact hold hid
    | some row =>
        rcases hA.known id (by rw [hw]; rfl) with htable | harmed
        · exact hold htable
        · exact ⟨i, _, hcommitted, rfl, harmed⟩

theorem Inv.step {action : Action E} (hI : Inv world) (hstep : step world action = some after) :
    Inv after := by
  cases action with
  | arm =>
      cases hstep
      exact hI.opened (Active.begun rfl rfl rfl)
  | tick batchSize =>
      cases hstep
      exact hI.opened (Active.begun rfl rfl rfl)
  | statement i statement =>
      obtain ⟨transaction, ht, hstep⟩ := Option.bind_eq_some_iff.mp hstep
      obtain ⟨next, hrun, hstep⟩ := Option.bind_eq_some_iff.mp hstep
      cases hstep
      obtain ⟨ht, hactive⟩ := active_eq_some ht
      exact hI.ran ht hactive ((hI.active i transaction ht hactive).run hactive hrun)
  | commit i =>
      obtain ⟨transaction, ht, hstep⟩ := Option.bind_eq_some_iff.mp hstep
      split_ifs at hstep with hdone
      cases hstep
      obtain ⟨ht, hactive⟩ := active_eq_some ht
      exact hI.commit ht hactive hdone
  | rollback i =>
      obtain ⟨transaction, ht, hstep⟩ := Option.bind_eq_some_iff.mp hstep
      cases hstep
      obtain ⟨ht, hactive⟩ := active_eq_some ht
      exact hI.ran ht hactive (Ran.rollback world i transaction)

theorem inv_of_reach (h : Reach step always World.initial world) : Inv world :=
  h.invariant (I := Inv) Inv.initial fun _ _ _ _ hI _ hstep => hI.step hstep

/-- A transaction that has ended stays as it ended. -/
theorem step_keeps_ended {action : Action E} {j : ℕ}
    (ht : world.transactions[j]? = some transaction) (hended : transaction.ending ≠ .active)
    (hstep : step world action = some after) :
    after.transactions[j]? = some transaction := by
  have hne : ∀ {i : ℕ} {t : Transaction E}, world.active i = some t → j ≠ i := by
    rintro i t hi rfl
    obtain ⟨ht', hactive⟩ := active_eq_some hi
    rw [ht] at ht'
    cases ht'
    exact hended hactive
  cases action with
  | arm =>
      cases hstep
      exact getElem?_append_of_some ht
  | tick batchSize =>
      cases hstep
      exact getElem?_append_of_some ht
  | statement i statement =>
      obtain ⟨t, hi, hstep⟩ := Option.bind_eq_some_iff.mp hstep
      obtain ⟨next, -, hstep⟩ := Option.bind_eq_some_iff.mp hstep
      cases hstep
      exact getElem?_set_of_ne (hne hi) ht
  | commit i =>
      obtain ⟨t, hi, hstep⟩ := Option.bind_eq_some_iff.mp hstep
      split_ifs at hstep
      cases hstep
      exact getElem?_set_of_ne (hne hi) ht
  | rollback i =>
      obtain ⟨t, hi, hstep⟩ := Option.bind_eq_some_iff.mp hstep
      cases hstep
      exact getElem?_set_of_ne (hne hi) ht

theorem reach_keeps_ended {j : ℕ} (ht : world.transactions[j]? = some transaction)
    (hended : transaction.ending ≠ .active) (h : Reach step always world after) :
    after.transactions[j]? = some transaction :=
  h.invariant (I := fun later => later.transactions[j]? = some transaction) ht
    fun _ _ _ _ hold _ hstep => step_keeps_ended hold hended hstep

/-- In every run the event of a schedule is in the log at most once; it is never
there once a cancellation was answered and committed, it is there when a
cancellation came too late, and only a committed task can have armed it. -/
theorem schedule_fires_at_most_once (h : Reach step always World.initial world) (id : String) :
    (fired world.log).count id ≤ 1 ∧
    (∀ (j : ℕ) (t : Transaction E), world.transactions[j]? = some t → t.ending = .committed →
      (id, .cancelled) ∈ t.answers → ∀ later, Reach step always world later →
        id ∉ fired later.log) ∧
    (∀ (j : ℕ) (t : Transaction E), world.transactions[j]? = some t →
      (id, .alreadyAppended) ∈ t.answers → id ∈ fired world.log) ∧
    ((∀ (j : ℕ) (t : Transaction E), world.transactions[j]? = some t → id ∈ t.armed →
      t.ending ≠ .committed) → id ∉ fired world.log) := by
  have hI := inv_of_reach h
  refine ⟨List.nodup_iff_count_le_one.mp hI.once id, ?_, ?_, ?_⟩
  · intro j t ht htc hanswer later hlater hfired
    have hJ := inv_of_reach (h.trans hlater)
    have htlater := reach_keeps_ended ht (by rw [htc]; decide) hlater
    have hcancelled := hJ.cancelled j t htlater htc id hanswer
    rw [(hJ.appended id).mpr hfired] at hcancelled
    cases hcancelled
  · exact fun j t ht hanswer => hI.answered j t ht id hanswer
  · intro hnone hfired
    have hrow := isSome_of_status ((hI.appended id).mpr hfired)
    obtain ⟨j, t, ht, htc, harmed⟩ := hI.armed id hrow
    exact hnone j t ht harmed htc

/-- A worker fires one of two schedules after a rollback; a canceller is too late
for it and in time for the other. -/
def cancelledAndFired : List (Action ℕ) :=
  [.arm, .statement 0 (.insertSchedule "a" 1 7), .statement 0 (.insertSchedule "b" 9 8), .commit 0,
    .tick 50, .statement 1 (.selectSkipLocked ["a"] 2), .statement 1 .insertEvent, .rollback 1,
    .tick 50, .statement 2 (.selectSkipLocked ["a"] 2), .arm, .statement 3 (.selectForUpdate "b"),
    .statement 2 .insertEvent, .statement 2 .updateAppended, .commit 2,
    .statement 3 (.selectForUpdate "a"), .statement 3 (.updateCancelled "b"), .commit 3]

theorem schedule_cancelled_and_fired :
    ∃ (world : World ℕ) (t : Transaction ℕ), Reach step always World.initial world ∧
      world.transactions[3]? = some t ∧ t.ending = .committed ∧
      t.answers = [("a", .alreadyAppended), ("b", .cancelled)] ∧
      "b" ∉ fired world.log ∧ "a" ∈ fired world.log ∧ (fired world.log).count "a" ≤ 1 := by
  obtain ⟨world, hreach, hanswers⟩ := reach_exec_any
    (show ((exec step World.initial cancelledAndFired).any fun world => decide
      ((world.transactions[3]?.map fun t => (t.ending, t.answers)) =
        some (.committed, [("a", .alreadyAppended), ("b", .cancelled)]))) = true by decide +kernel)
  obtain ⟨t, ht, hvalue⟩ := Option.map_eq_some_iff.mp hanswers
  obtain ⟨hending, hlist⟩ := Prod.mk.inj hvalue
  obtain ⟨hcount, -, hfired, -⟩ := schedule_fires_at_most_once hreach "a"
  obtain ⟨-, hcancelled, -, -⟩ := schedule_fires_at_most_once hreach "b"
  refine ⟨world, t, hreach, ht, hending, hlist, ?_, ?_, hcount⟩
  · exact hcancelled 3 t ht hending (by rw [hlist]; simp) world .start
  · exact hfired 3 t ht (by rw [hlist]; simp)

end Kronos.Postgres.Scheduling
