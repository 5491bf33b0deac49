import Mathlib.Data.List.Nodup
import Kronos.EventScheduling.InMemory

/-!
# A schedule in memory fires once

A record that is pending is named by no error handler that would take a
cancellation back, and by no cancellation that stands; so the callback of a
timer, which appends only for a pending record, runs at most once and never
against a cancellation. A timer exists only for a schedule whose unit of work
has come to AFTER_COMMIT.
-/
namespace Kronos.EventScheduling.InMemory
open Kronos.Lib Kronos.Lib.Transition
open Kronos.UnitOfWork (Phase Failure)

variable {I E T : Type} [DecidableEq I] [DecidableEq T] {s t : State I E T} {id k : I} {w : T}
  {u v : UnitOfWork I} {record : ScheduleRecord E}

/-! ## What happened -/

namespace State

def given (s : State I E T) (id : I) : Option (Schedule E T) := OrderedMap.get id s.scheduled

def status (s : State I E T) (id : I) : Option RecordStatus :=
  (s.record id).map ScheduleRecord.status

/-- The unit of work a call was given has failed. -/
def Failed (s : State I E T) (uow : Option T) : Prop :=
  ∃ w u, uow = some w ∧ s.uow w = some u ∧ u.status = .error

/-- The unit of work of a schedule has come to AFTER_COMMIT. -/
def Committed (s : State I E T) (id : I) : Prop :=
  ∃ schedule u, s.given id = some schedule ∧ s.uow schedule.uow = some u ∧
    u.phase = some .afterCommit

/-- How often a unit of work that has not completed would take a cancellation back. -/
def reverts (s : State I E T) (w : T) (id : I) : ℕ :=
  match s.uow w with
  | none => 0
  | some u => if u.status = .completed then 0 else u.errorHandlers.count (.revertCancel id)

/-- A cancellation answered in no unit of work or in one that has not failed. -/
def Stands (s : State I E T) (id : I) (uow : Option T) : Prop :=
  (id, uow, .cancelled) ∈ s.answers ∧ ¬s.Failed uow

/-- Every event appended is that of its schedule, for once, after the commit, and against no
cancellation. -/
structure FiresOnce (s : State I E T) : Prop where
  once : (s.log.map Appended.id).Nodup
  own : ∀ entry ∈ s.log, ∃ schedule, s.given entry.id = some schedule ∧ entry.event = schedule.event
  notRolledBack : ∀ entry ∈ s.log, ∀ schedule, s.given entry.id = some schedule →
    ∀ u, s.uow schedule.uow = some u → ¬u.RolledBack
  notCancelled : ∀ entry ∈ s.log, ∀ uow, (entry.id, uow, .cancelled) ∈ s.answers → s.Failed uow

/-! ## Invariant -/

/-- What a record's status may be beside the log, the error handlers and the answers. -/
structure Allows (s : State I E T) (id : I) (status : Option RecordStatus) : Prop where
  logged : id ∈ s.log.map Appended.id → status = none ∨ status = some .appended
  reverted : ∀ w, 0 < s.reverts w id → status = none ∨ status = some .cancelled
  stands : ∀ uow, s.Stands id uow → status = none ∨ status = some .cancelled

structure Good (s : State I E T) : Prop where
  staged : ∀ id record, s.record id = some record →
    ∃ schedule, s.given id = some schedule ∧ record.event = schedule.event ∧
      record.fireAt = schedule.fireAt
  registered : ∀ w u, s.uow w = some u → ∀ id ∈ u.afterCommit,
    ∃ schedule, s.given id = some schedule ∧ schedule.uow = w
  handles : ∀ timer ∈ s.timers, timer.1 < s.nextTimer
  armed : ∀ timer ∈ s.timers, s.Committed timer.2.id
  logged : ∀ entry ∈ s.log, s.Committed entry.id
  own : ∀ entry ∈ s.log, ∃ schedule, s.given entry.id = some schedule ∧ entry.event = schedule.event
  once : (s.log.map Appended.id).Nodup
  answered : ∀ id uow, (id, uow, .cancelled) ∈ s.answers → s.given id ≠ none
  handled : ∀ w id, 0 < s.reverts w id → s.given id ≠ none
  allows : ∀ id, s.Allows id (s.status id)
  oneRevert : ∀ w id, s.reverts w id ≤ 1
  oneReverts : ∀ w w' id, 0 < s.reverts w id → 0 < s.reverts w' id → w = w'
  unlogged : ∀ id uow, s.Stands id uow → id ∉ s.log.map Appended.id
  ownRevert : ∀ id uow w, s.Stands id uow → 0 < s.reverts w id → uow = some w

/-! ## Lookups -/

omit [DecidableEq T] in
theorem record_setRecord : (s.setRecord id record).record k = if k = id then some record
    else s.record k := by
  by_cases hk : k = id
  · rw [if_pos hk, hk]
    exact OrderedMap.get_set_self id record s.records
  · rw [if_neg hk]
    exact OrderedMap.get_set_of_ne hk record s.records

omit [DecidableEq T] in
theorem status_setRecord :
    (s.setRecord id record).status k = if k = id then some record.status else s.status k := by
  unfold status
  rw [record_setRecord]
  split <;> rfl

omit [DecidableEq T] in
theorem record_deleteRecord : (s.deleteRecord id).record k = if k = id then none
    else s.record k := by
  by_cases hk : k = id
  · rw [if_pos hk, hk]
    exact OrderedMap.get_delete_self id s.records
  · rw [if_neg hk]
    exact OrderedMap.get_delete_of_ne hk s.records

omit [DecidableEq T] in
theorem status_deleteRecord : (s.deleteRecord id).status k = if k = id then none
    else s.status k := by
  unfold status
  rw [record_deleteRecord]
  split <;> rfl

omit [DecidableEq T] in
theorem status_of_record (h : s.record id = some record) : s.status id = some record.status := by
  rw [status, h]
  rfl

omit [DecidableEq I] in
theorem uow_setUow {w' : T} : (s.setUow w u).uow w' = if w' = w then some u else s.uow w' := by
  by_cases hw : w' = w
  · rw [if_pos hw, hw]
    exact OrderedMap.get_set_self w u s.uows
  · rw [if_neg hw]
    exact OrderedMap.get_set_of_ne hw u s.uows

theorem reverts_setUow_of_ne {w' : T} (h : w' ≠ w) :
    (s.setUow w u).reverts w' id = s.reverts w' id := by
  unfold reverts
  rw [uow_setUow, if_neg h]

theorem reverts_setUow_self :
    (s.setUow w u).reverts w id =
      if u.status = .completed then 0 else u.errorHandlers.count (.revertCancel id) := by
  unfold reverts
  rw [uow_setUow, if_pos rfl]

theorem Allows.mono {status : Option RecordStatus} (h : s.Allows id status)
    (hlogged : id ∈ t.log.map Appended.id → id ∈ s.log.map Appended.id)
    (hreverts : ∀ w, 0 < t.reverts w id → 0 < s.reverts w id)
    (hstands : ∀ uow, t.Stands id uow → s.Stands id uow) : t.Allows id status where
  logged := fun hid => h.logged (hlogged hid)
  reverted := fun w hw => h.reverted w (hreverts w hw)
  stands := fun uow huow => h.stands uow (hstands uow huow)

/-- What a pending record is not in: the log, an error handler, a cancellation that stands. -/
theorem Good.pending (h : Good s) (hrecord : s.record id = some record)
    (hpending : record.status = .pending) :
    id ∉ s.log.map Appended.id ∧ (∀ w, s.reverts w id = 0) ∧ ∀ uow, ¬s.Stands id uow := by
  have hallows := h.allows id
  rw [status_of_record hrecord, hpending] at hallows
  refine ⟨?_, ?_, ?_⟩
  · intro hid
    simpa using hallows.logged hid
  · intro w
    by_contra hne
    simpa using hallows.reverted w (Nat.pos_of_ne_zero hne)
  · intro uow hstands
    simpa using hallows.stands uow hstands

/-- So its status may become any. -/
theorem Good.allows_of_pending (h : Good s) (hrecord : s.record id = some record)
    (hpending : record.status = .pending) (status : Option RecordStatus) : s.Allows id status := by
  obtain ⟨hlogged, hreverts, hstands⟩ := h.pending hrecord hpending
  refine ⟨fun hid => absurd hid hlogged, fun w hw => ?_, fun uow huow => absurd huow (hstands uow)⟩
  rw [hreverts w] at hw
  exact absurd hw (Nat.lt_irrefl 0)

/-! ## Single changes -/

theorem Good.withRecords {records : List (I × ScheduleRecord E)} (h : Good s)
    (hstaged : ∀ k record, OrderedMap.get k records = some record →
      ∃ schedule, s.given k = some schedule ∧ record.event = schedule.event ∧
        record.fireAt = schedule.fireAt)
    (hallows : ∀ k, s.Allows k ((OrderedMap.get k records).map ScheduleRecord.status)) :
    Good { s with records := records } where
  staged := hstaged
  registered := h.registered
  handles := h.handles
  armed := h.armed
  logged := h.logged
  own := h.own
  once := h.once
  answered := h.answered
  handled := h.handled
  allows := fun k => (hallows k).mono (fun hid => hid) (fun _ hw => hw) (fun _ huow => huow)
  oneRevert := h.oneRevert
  oneReverts := h.oneReverts
  unlogged := h.unlogged
  ownRevert := h.ownRevert

theorem Good.setRecord (h : Good s)
    (hstaged : ∃ schedule, s.given id = some schedule ∧ record.event = schedule.event ∧
      record.fireAt = schedule.fireAt)
    (hallows : s.Allows id (some record.status)) : Good (s.setRecord id record) := by
  refine h.withRecords ?_ ?_
  · intro k other hother
    rcases OrderedMap.get_set_cases hother with ⟨rfl, rfl⟩ | ⟨_, hget⟩
    · exact hstaged
    · exact h.staged k other hget
  · intro k
    show s.Allows k ((s.setRecord id record).status k)
    rw [status_setRecord]
    split_ifs with hk
    · exact hk ▸ hallows
    · exact h.allows k

theorem Good.deleteRecord (h : Good s) (id : I) : Good (s.deleteRecord id) := by
  refine h.withRecords ?_ ?_
  · intro k other hother
    exact h.staged k other (OrderedMap.get_delete_cases hother).2
  · intro k
    show s.Allows k ((s.deleteRecord id).status k)
    rw [status_deleteRecord]
    split_ifs with hk
    · exact ⟨fun _ => .inl rfl, fun _ _ => .inl rfl, fun _ _ => .inl rfl⟩
    · exact h.allows k

/-- A unit of work may go on, forget handlers, and take on one for a cancelled record that
has none. -/
theorem Good.setUow (h : Good s)
    (hafter : ∀ id ∈ u.afterCommit, ∃ schedule, s.given id = some schedule ∧ schedule.uow = w)
    (hphase : ∀ v, s.uow w = some v → v.phase = some .afterCommit → u.phase = some .afterCommit)
    (herror : ∀ v, s.uow w = some v → v.status = .error → u.status = .error)
    (hreverts : ∀ id, (s.setUow w u).reverts w id ≤ s.reverts w id ∨
      (s.setUow w u).reverts w id ≤ 1 ∧ (∀ w, s.reverts w id = 0) ∧ s.status id = some .cancelled ∧
        (∀ uow, ¬s.Stands id uow) ∧ s.given id ≠ none) :
    Good (s.setUow w u) := by
  have hcommitted : ∀ id, s.Committed id → (s.setUow w u).Committed id := by
    rintro id ⟨schedule, v, hgiven, hv, hp⟩
    by_cases hw : schedule.uow = w
    · refine ⟨schedule, u, hgiven, ?_, hphase v (hw ▸ hv) hp⟩
      rw [uow_setUow, if_pos hw]
    · refine ⟨schedule, v, hgiven, ?_, hp⟩
      rw [uow_setUow, if_neg hw, hv]
  have hstands : ∀ id uow, (s.setUow w u).Stands id uow → s.Stands id uow := by
    rintro id uow ⟨hmem, hfailed⟩
    refine ⟨hmem, ?_⟩
    rintro ⟨w', v, huow, hv, he⟩
    refine hfailed ?_
    by_cases hw : w' = w
    · refine ⟨w', u, huow, ?_, herror v (hw ▸ hv) he⟩
      rw [uow_setUow, if_pos hw]
    · refine ⟨w', v, huow, ?_, he⟩
      rw [uow_setUow, if_neg hw, hv]
  -- a handler that is there was there, or it is the only one
  have hcases : ∀ id w', 0 < (s.setUow w u).reverts w' id → 0 < s.reverts w' id ∨
      w' = w ∧ (∀ w, s.reverts w id = 0) ∧ s.status id = some .cancelled ∧
        (∀ uow, ¬s.Stands id uow) ∧ s.given id ≠ none := by
    intro id w' hpos
    by_cases hw : w' = w
    · subst hw
      rcases hreverts id with hle | ⟨_, hrest⟩
      · exact .inl (Nat.lt_of_lt_of_le hpos hle)
      · exact .inr ⟨rfl, hrest⟩
    · rw [reverts_setUow_of_ne hw] at hpos
      exact .inl hpos
  constructor
  case staged => exact h.staged
  case registered =>
    intro w' v hv id hid
    rw [uow_setUow] at hv
    split_ifs at hv with hw
    · cases hv
      rw [hw]
      exact hafter id hid
    · exact h.registered w' v hv id hid
  case handles => exact h.handles
  case armed => exact fun timer htimer => hcommitted _ (h.armed timer htimer)
  case logged => exact fun entry hentry => hcommitted _ (h.logged entry hentry)
  case own => exact h.own
  case once => exact h.once
  case answered => exact h.answered
  case handled =>
    intro w' id hpos
    rcases hcases id w' hpos with hold | ⟨_, _, _, _, hgiven⟩
    · exact h.handled w' id hold
    · exact hgiven
  case allows =>
    intro id
    refine ⟨(h.allows id).logged, ?_,
      fun uow huow => (h.allows id).stands uow (hstands id uow huow)⟩
    intro w' hpos
    rcases hcases id w' hpos with hold | ⟨_, _, hstatus, _⟩
    · exact (h.allows id).reverted w' hold
    · exact .inr hstatus
  case oneRevert =>
    intro w' id
    by_cases hw : w' = w
    · subst hw
      rcases hreverts id with hle | ⟨hle, _⟩
      · exact Nat.le_trans hle (h.oneRevert w' id)
      · exact hle
    · rw [reverts_setUow_of_ne hw]
      exact h.oneRevert w' id
  case oneReverts =>
    intro w₁ w₂ id h₁ h₂
    rcases hcases id w₁ h₁ with hold₁ | ⟨hw₁, hzero, _⟩
    · rcases hcases id w₂ h₂ with hold₂ | ⟨_, hzero, _⟩
      · exact h.oneReverts w₁ w₂ id hold₁ hold₂
      · exact absurd (hzero w₁) hold₁.ne'
    · rcases hcases id w₂ h₂ with hold₂ | ⟨hw₂, _⟩
      · exact absurd (hzero w₂) hold₂.ne'
      · rw [hw₁, hw₂]
  case unlogged => exact fun id uow huow => h.unlogged id uow (hstands id uow huow)
  case ownRevert =>
    intro id uow w' huow hpos
    rcases hcases id w' hpos with hold | ⟨_, _, _, hnone, _⟩
    · exact h.ownRevert id uow w' (hstands id uow huow) hold
    · exact absurd (hstands id uow huow) (hnone uow)

/-- What a unit of work becomes as it goes on. -/
structure Later (u v : UnitOfWork I) : Prop where
  afterCommit : ∀ id ∈ v.afterCommit, id ∈ u.afterCommit
  errorHandlers : v.errorHandlers.Sublist u.errorHandlers
  phase : u.phase = some .afterCommit → v.phase = some .afterCommit
  error : u.status = .error → v.status = .error
  completed : u.status = .completed → v.status = .completed

theorem reverts_later (hu : s.uow w = some u) (hlater : Later u v) :
    (s.setUow w v).reverts w id ≤ s.reverts w id := by
  rw [reverts_setUow_self, reverts, hu]
  by_cases hv : v.status = .completed
  · rw [if_pos hv]
    exact Nat.zero_le _
  · rw [if_neg hv]
    show _ ≤ if u.status = .completed then 0 else _
    rw [if_neg (mt hlater.completed hv)]
    exact hlater.errorHandlers.count_le _

theorem Good.later (h : Good s) (hu : s.uow w = some u) (hlater : Later u v) :
    Good (s.setUow w v) := by
  refine h.setUow ?_ ?_ ?_ fun id => .inl (reverts_later hu hlater)
  · intro id hid
    exact h.registered w u hu id (hlater.afterCommit id hid)
  · intro v' hv'
    rw [hu] at hv'
    cases hv'
    exact hlater.phase
  · intro v' hv'
    rw [hu] at hv'
    cases hv'
    exact hlater.error

theorem Good.setClock (h : Good s) (reading : ℚ) : Good { s with clock := reading } :=
  { h with
    allows := fun id => (h.allows id).mono (fun hid => hid) (fun _ hw => hw) (fun _ huow => huow) }

theorem Good.withTimers {timers : List (ℕ × Timer I)} {nextTimer : ℕ} (h : Good s)
    (hhandles : ∀ timer ∈ timers, timer.1 < nextTimer)
    (harmed : ∀ timer ∈ timers, s.Committed timer.2.id) :
    Good { s with timers := timers, nextTimer := nextTimer } :=
  { h with
    handles := hhandles
    armed := harmed
    allows := fun id => (h.allows id).mono (fun hid => hid) (fun _ hw => hw) (fun _ huow => huow) }

theorem Good.setTimeout (h : Good s) (hid : s.Committed id) (delay : Option ℚ) :
    Good (s.setTimeout id delay) := by
  refine h.withTimers ?_ ?_
  · intro timer htimer
    rcases List.mem_append.mp htimer with hold | hnew
    · exact Nat.lt_succ_of_lt (h.handles timer hold)
    · rw [List.mem_singleton.mp hnew]
      exact Nat.lt_succ_self _
  · intro timer htimer
    rcases List.mem_append.mp htimer with hold | hnew
    · exact h.armed timer hold
    · rw [List.mem_singleton.mp hnew]
      exact hid

theorem Good.clearTimeout (h : Good s) (handle : ℕ) : Good (s.clearTimeout handle) := by
  refine h.withTimers ?_ ?_
  · intro timer htimer
    exact h.handles timer (List.mem_of_mem_filter htimer)
  · intro timer htimer
    exact h.armed timer (List.mem_of_mem_filter htimer)

/-- An answer that does not say `cancelled`, or says it of a cancelled record. -/
theorem Good.answer (h : Good s) (uow : Option T) (result : CancelResult)
    (hresult : result = .cancelled → s.status id = some .cancelled ∧ s.given id ≠ none ∧
      id ∉ s.log.map Appended.id ∧ ∀ w, 0 < s.reverts w id → uow = some w) :
    Good { s with answers := s.answers ++ [(id, uow, result)] } := by
  have hcases : ∀ k uow',
      State.Stands { s with answers := s.answers ++ [(id, uow, result)] } k uow' →
      s.Stands k uow' ∨ k = id ∧ uow' = uow ∧ result = .cancelled := by
    rintro k uow' ⟨hmem, hfailed⟩
    rcases List.mem_append.mp hmem with hold | hnew
    · exact .inl ⟨hold, hfailed⟩
    · simp only [List.mem_singleton, Prod.mk.injEq] at hnew
      exact .inr ⟨hnew.1, hnew.2.1, hnew.2.2.symm⟩
  constructor
  case staged => exact h.staged
  case registered => exact h.registered
  case handles => exact h.handles
  case armed => exact h.armed
  case logged => exact h.logged
  case own => exact h.own
  case once => exact h.once
  case answered =>
    intro k uow' hmem
    rcases List.mem_append.mp hmem with hold | hnew
    · exact h.answered k uow' hold
    · simp only [List.mem_singleton, Prod.mk.injEq] at hnew
      obtain ⟨rfl, _, hcancelled⟩ := hnew
      exact (hresult hcancelled.symm).2.1
  case handled => exact h.handled
  case allows =>
    intro k
    refine ⟨(h.allows k).logged, (h.allows k).reverted, ?_⟩
    intro uow' huow
    rcases hcases k uow' huow with hold | ⟨rfl, _, hcancelled⟩
    · exact (h.allows k).stands uow' hold
    · exact .inr (hresult hcancelled).1
  case oneRevert => exact h.oneRevert
  case oneReverts => exact h.oneReverts
  case unlogged =>
    intro k uow' huow
    rcases hcases k uow' huow with hold | ⟨rfl, _, hcancelled⟩
    · exact h.unlogged k uow' hold
    · exact (hresult hcancelled).2.2.1
  case ownRevert =>
    intro k uow' w huow hpos
    rcases hcases k uow' huow with hold | ⟨rfl, rfl, hcancelled⟩
    · exact h.ownRevert k uow' w hold hpos
    · exact (hresult hcancelled).2.2.2 w hpos

/-- The callback of a timer of a schedule whose unit of work has committed. -/
theorem Good.onTimer (h : Good s) (hcommitted : s.Committed id) : Good (s.onTimer id) := by
  unfold State.onTimer
  cases hrecord : s.record id with
  | none => exact h
  | some record =>
      show Good (if record.status ≠ .pending then s else _)
      split_ifs with hpending
      · exact h
      obtain ⟨hlogged, hreverts, hstands⟩ := h.pending hrecord (not_not.mp hpending)
      have hstaged := h.staged id record hrecord
      have hset : Good (s.setRecord id { record with status := .appended, timer := none }) :=
        h.setRecord hstaged (h.allows_of_pending hrecord (not_not.mp hpending) _)
      have hstatus : (s.setRecord id { record with status := .appended, timer := none }).status id =
        some .appended := by
        rw [status_setRecord, if_pos rfl]
      constructor
      case staged => exact hset.staged
      case registered => exact hset.registered
      case handles => exact hset.handles
      case armed => exact hset.armed
      case logged =>
        intro entry hentry
        rcases List.mem_append.mp hentry with hold | hnew
        · exact h.logged entry hold
        · rw [List.mem_singleton.mp hnew]
          exact hcommitted
      case own =>
        intro entry hentry
        rcases List.mem_append.mp hentry with hold | hnew
        · exact h.own entry hold
        · obtain ⟨schedule, hgiven, hevent, _⟩ := hstaged
          rw [List.mem_singleton.mp hnew]
          exact ⟨schedule, hgiven, hevent⟩
      case once =>
        rw [List.map_append]
        refine List.nodup_append.mpr ⟨h.once, List.nodup_singleton _, ?_⟩
        rintro a ha b hb rfl
        rw [List.mem_singleton.mp hb] at ha
        exact hlogged ha
      case answered => exact hset.answered
      case handled => exact hset.handled
      case allows =>
        intro k
        by_cases hk : k = id
        · subst hk
          refine ⟨fun _ => .inr hstatus, fun w hw => ?_, fun uow huow => absurd huow (hstands uow)⟩
          exact absurd (hreverts w) hw.ne'
        · refine ⟨fun hid => ?_, (hset.allows k).reverted, (hset.allows k).stands⟩
          rw [List.map_append, List.mem_append] at hid
          rcases hid with hold | hnew
          · exact (hset.allows k).logged hold
          · exact absurd (List.mem_singleton.mp hnew) hk
      case oneRevert => exact hset.oneRevert
      case oneReverts => exact hset.oneReverts
      case unlogged =>
        intro k uow huow hid
        rw [List.map_append, List.mem_append] at hid
        rcases hid with hold | hnew
        · exact h.unlogged k uow huow hold
        · rw [List.mem_singleton.mp hnew] at huow
          exact hstands uow huow
      case ownRevert => exact hset.ownRevert

/-! ## The calls and what they register -/

theorem Good.arm (h : Good s) (hcommitted : s.Committed id) : Good (s.arm id) := by
  unfold State.arm
  cases hrecord : s.record id with
  | none => exact h
  | some record =>
      show Good (if record.status ≠ .pending then s else _)
      split_ifs with hpending
      · exact h
      · have htimer := h.setTimeout hcommitted (delayOf record.fireAt s.clock)
        refine htimer.setRecord (h.staged id record hrecord) ?_
        exact htimer.allows_of_pending hrecord (not_not.mp hpending) _

theorem Good.dropStaged (h : Good s) (id : I) : Good (s.onError (.dropStaged id)) := by
  simp only [State.onError]
  cases s.record id with
  | none => exact h
  | some record =>
      show Good (if record.status = .pending then s.deleteRecord id else s)
      split_ifs
      · exact h.deleteRecord id
      · exact h

/-- The handler of the only cancellation of its record, taken from a unit of work that has
failed. -/
theorem Good.revertCancel (h : Good s) (hreverts : ∀ w, s.reverts w id = 0)
    (hstands : ∀ uow, ¬s.Stands id uow) :
    Good (s.onError (.revertCancel id)) := by
  simp only [State.onError]
  cases hrecord : s.record id with
  | none => exact h
  | some record =>
      show Good
        (if record.status = .cancelled then s.setRecord id { record with status := .pending }
        else s)
      split_ifs with hcancelled
      · refine h.setRecord (h.staged id record hrecord) ⟨?_, fun w hw => ?_, fun uow huow => ?_⟩
        · intro hid
          have hlogged := (h.allows id).logged hid
          rw [status_of_record hrecord, hcancelled] at hlogged
          simp at hlogged
        · exact absurd (hreverts w) hw.ne'
        · exact absurd huow (hstands uow)
      · exact h

omit [DecidableEq T] in
theorem given_schedule {schedule : Schedule E T} :
    State.given { s with scheduled := OrderedMap.set id schedule s.scheduled } k =
      if k = id then some schedule else s.given k := by
  by_cases hk : k = id
  · rw [if_pos hk, hk]
    exact OrderedMap.get_set_self id schedule s.scheduled
  · rw [if_neg hk]
    exact OrderedMap.get_set_of_ne hk schedule s.scheduled

/-- A schedule that is new is named nowhere. -/
theorem Good.withSchedule (h : Good s) (hfresh : s.given id = none) (schedule : Schedule E T) :
    Good { s with scheduled := OrderedMap.set id schedule s.scheduled } := by
  have hkeeps : ∀ k other, s.given k = some other →
      State.given { s with scheduled := OrderedMap.set id schedule s.scheduled } k =
        some other := by
    intro k other hgiven
    rw [given_schedule, if_neg, hgiven]
    rintro rfl
    rw [hgiven] at hfresh
    cases hfresh
  have hcommitted : ∀ k, s.Committed k →
      State.Committed { s with scheduled := OrderedMap.set id schedule s.scheduled } k := by
    rintro k ⟨other, u, hgiven, hrest⟩
    exact ⟨other, u, hkeeps k other hgiven, hrest⟩
  have hknown : ∀ k, s.given k ≠ none →
      State.given { s with scheduled := OrderedMap.set id schedule s.scheduled } k ≠ none := by
    intro k hgiven
    obtain ⟨other, hother⟩ := Option.ne_none_iff_exists'.mp hgiven
    rw [hkeeps k other hother]
    exact Option.some_ne_none other
  constructor
  case staged =>
    intro k record hrecord
    obtain ⟨other, hgiven, hrest⟩ := h.staged k record hrecord
    exact ⟨other, hkeeps k other hgiven, hrest⟩
  case registered =>
    intro w u hu k hk
    obtain ⟨other, hgiven, hrest⟩ := h.registered w u hu k hk
    exact ⟨other, hkeeps k other hgiven, hrest⟩
  case handles => exact h.handles
  case armed => exact fun timer htimer => hcommitted _ (h.armed timer htimer)
  case logged => exact fun entry hentry => hcommitted _ (h.logged entry hentry)
  case own =>
    intro entry hentry
    obtain ⟨other, hgiven, hrest⟩ := h.own entry hentry
    exact ⟨other, hkeeps _ other hgiven, hrest⟩
  case once => exact h.once
  case answered => exact fun k uow hmem => hknown k (h.answered k uow hmem)
  case handled => exact fun w k hpos => hknown k (h.handled w k hpos)
  case allows =>
    exact fun k => (h.allows k).mono (fun hid => hid) (fun _ hw => hw) (fun _ huow => huow)
  case oneRevert => exact h.oneRevert
  case oneReverts => exact h.oneReverts
  case unlogged => exact h.unlogged
  case ownRevert => exact h.ownRevert

/-- A call of `schedule` that is not refused. -/
theorem schedule_ok {event : E} {fireAt : Option ℤ} {uow : Option T}
    (hcall : s.schedule id event fireAt uow = .ok t) :
    ∃ w u, uow = some w ∧ s.uow w = some u ∧ u.requireInvocation = .ok () ∧
      t = (State.setRecord { s with
        scheduled := OrderedMap.set id ⟨event, fireAt, w⟩ s.scheduled } id
        ⟨.pending, event, fireAt, none⟩).setUow w
          ((u.onAfterCommit id).onError (.dropStaged id)) := by
  unfold State.schedule at hcall
  cases uow with
  | none => cases hcall
  | some w =>
      cases hu : s.uow w with
      | none => simp [hu] at hcall
      | some u =>
          simp only [hu] at hcall
          cases hphase : u.requireInvocation with
          | error failure =>
              rw [hphase] at hcall
              cases hcall
          | ok _ =>
              rw [hphase] at hcall
              cases hcall
              exact ⟨w, u, rfl, hu, hphase, rfl⟩

theorem Good.schedule {event : E} {fireAt : Option ℤ} {uow : Option T} (h : Good s)
    (hfresh : s.given id = none) (hcall : s.schedule id event fireAt uow = .ok t) : Good t := by
  obtain ⟨w, u, rfl, hu, _, rfl⟩ := schedule_ok hcall
  have hgiven := h.withSchedule hfresh ⟨event, fireAt, w⟩
  have hnew :
      State.given { s with scheduled := OrderedMap.set id ⟨event, fireAt, w⟩ s.scheduled } id =
      some ⟨event, fireAt, w⟩ := by
    rw [given_schedule, if_pos rfl]
  have hrecord :
      Good (State.setRecord { s with
      scheduled := OrderedMap.set id ⟨event, fireAt, w⟩ s.scheduled } id
      ⟨.pending, event, fireAt, none⟩) := by
    refine hgiven.setRecord ⟨_, hnew, rfl, rfl⟩ ⟨fun hid => ?_, fun w hw => ?_, fun uow huow => ?_⟩
    · obtain ⟨entry, hentry, rfl⟩ := List.mem_map.mp hid
      obtain ⟨other, _, hother, _⟩ := h.logged entry hentry
      rw [hother] at hfresh
      cases hfresh
    · exact absurd hfresh (h.handled w id hw)
    · exact absurd hfresh (h.answered id uow huow.1)
  refine hrecord.setUow ?_ ?_ ?_ fun k => .inl ?_
  · intro k hk
    rcases List.mem_append.mp hk with hold | hlast
    · exact hrecord.registered w u hu k hold
    · rw [List.mem_singleton.mp hlast]
      exact ⟨_, hnew, rfl⟩
  · intro v hv hphase
    rw [show s.uow w = some v from hv] at hu
    cases hu
    exact hphase
  · intro v hv hstatus
    rw [show s.uow w = some v from hv] at hu
    cases hu
    exact hstatus
  · rw [reverts_setUow_self]
    show _ ≤ s.reverts w k
    simp [State.reverts, hu, UnitOfWork.onError, UnitOfWork.onAfterCommit]

/-- What `cancelRecord` does: it cancels a pending record or changes nothing. -/
theorem cancelRecord_cases (s : State I E T) (id : I) (uow : Option T) :
    ((s.cancelRecord id uow).1 = s ∧ (s.cancelRecord id uow).2 ≠ .cancelled) ∨
      ∃ record, s.record id = some record ∧ record.status = .pending ∧
        s.cancelRecord id uow =
          ((record.timer.elim (s.setRecord id { record with status := .cancelled, timer := none })
            (s.setRecord id { record with
              status := .cancelled, timer := none }).clearTimeout).revertOnError id uow,
            .cancelled) := by
  unfold cancelRecord
  cases hrecord : s.record id with
  | none => exact .inl ⟨rfl, by simp⟩
  | some record =>
      simp only
      cases hstatus : record.status with
      | pending => exact .inr ⟨record, rfl, hstatus, rfl⟩
      | appended => exact .inl ⟨rfl, by simp⟩
      | cancelled => exact .inl ⟨rfl, by simp⟩

omit [DecidableEq I] in
theorem revertOnError_eq (s : State I E T) (id : I) (uow : Option T) :
    ∃ uows, s.revertOnError id uow = { s with uows := uows } := by
  unfold revertOnError
  cases uow with
  | none => exact ⟨s.uows, rfl⟩
  | some w =>
      cases hu : s.uow w with
      | none =>
          simp only [hu]
          exact ⟨s.uows, rfl⟩
      | some u =>
          simp only [hu]
          split_ifs
          · exact ⟨s.uows, rfl⟩
          · exact ⟨_, rfl⟩

/-- The handler that is registered is the only one of its record. -/
theorem Good.revertOnError (h : Good s) (uow : Option T) (hstatus : s.status id = some .cancelled)
    (hgiven : s.given id ≠ none) (hreverts : ∀ w, s.reverts w id = 0)
    (hstands : ∀ uow, ¬s.Stands id uow) :
    Good (s.revertOnError id uow) ∧ ∀ w, 0 < (s.revertOnError id uow).reverts w id →
      uow = some w := by
  have hsame : Good s ∧ ∀ w, 0 < s.reverts w id → uow = some w :=
    ⟨h, fun w hw => absurd (hreverts w) hw.ne'⟩
  unfold State.revertOnError
  cases uow with
  | none => exact hsame
  | some w =>
      cases hu : s.uow w with
      | none =>
          simp only [hu]
          exact hsame
      | some u =>
          simp only [hu]
          split_ifs with hclosed
          · exact hsame
          have hopen : u.status ≠ .completed := by
            intro hstatus
            simp [UnitOfWork.closed, hstatus] at hclosed
          have hcount : ∀ k, s.reverts w k = u.errorHandlers.count (.revertCancel k) := by
            intro k
            rw [State.reverts, hu]
            exact if_neg hopen
          constructor
          · refine h.setUow (h.registered w u hu) ?_ ?_ ?_
            · intro v hv
              rw [hu] at hv
              cases hv
              exact fun hphase => hphase
            · intro v hv
              rw [hu] at hv
              cases hv
              exact fun herror => herror
            · intro k
              rw [reverts_setUow_self, if_neg (show (u.onError _).status ≠ .completed from hopen)]
              show List.count _ (u.errorHandlers ++ [.revertCancel id]) ≤ _ ∨ _
              rw [List.count_append, ← hcount k]
              by_cases hk : k = id
              · subst hk
                refine .inr ⟨?_, hreverts, hstatus, hstands, hgiven⟩
                show List.count _ (u.errorHandlers ++ [.revertCancel k]) ≤ 1
                rw [List.count_append, ← hcount k, hreverts w]
                simp
              · refine .inl ?_
                rw [List.count_eq_zero_of_not_mem (by simpa using hk)]
                exact Nat.le_refl _
          · intro w' hpos
            by_cases hw : w' = w
            · rw [hw]
            · rw [reverts_setUow_of_ne hw, hreverts w'] at hpos
              exact absurd hpos (Nat.lt_irrefl 0)

/-- A cancellation that is answered so, once its record says it. -/
theorem Good.cancelled (h : Good s) (uow : Option T) (hstatus : s.status id = some .cancelled)
    (hgiven : s.given id ≠ none) (hlogged : id ∉ s.log.map Appended.id)
    (hreverts : ∀ w, s.reverts w id = 0) (hstands : ∀ uow, ¬s.Stands id uow) :
    Good { s.revertOnError id uow with
      answers := (s.revertOnError id uow).answers ++ [(id, uow, .cancelled)] } := by
  obtain ⟨uows, heq⟩ := revertOnError_eq s id uow
  obtain ⟨hgood, hown⟩ := h.revertOnError uow hstatus hgiven hreverts hstands
  refine hgood.answer uow .cancelled fun _ => ⟨?_, ?_, ?_, hown⟩
  · rw [heq]
    exact hstatus
  · rw [heq]
    exact hgiven
  · rw [heq]
    exact hlogged

theorem Good.cancelSchedule (h : Good s) (id : I) (uow : Option T) :
    Good (s.cancelSchedule id uow) := by
  unfold State.cancelSchedule
  rcases cancelRecord_cases s id uow with ⟨hsame, hresult⟩ | ⟨record, hrecord, hpending, heq⟩
  · have hgood : Good (s.cancelRecord id uow).1 := hsame.symm ▸ h
    exact hgood.answer uow _ fun hcancelled => absurd hcancelled hresult
  · obtain ⟨hlogged, hreverts, hstands⟩ := h.pending hrecord hpending
    obtain ⟨schedule, hgiven, hstaged⟩ := h.staged id record hrecord
    have hset : Good (s.setRecord id { record with status := .cancelled, timer := none }) :=
      h.setRecord ⟨schedule, hgiven, hstaged⟩ (h.allows_of_pending hrecord hpending _)
    have hstatus : (s.setRecord id { record with status := .cancelled, timer := none }).status id =
        some .cancelled := by
      rw [status_setRecord, if_pos rfl]
    have hknown : s.given id ≠ none := by
      rw [hgiven]
      exact Option.some_ne_none schedule
    rw [heq]
    cases record.timer with
    | none => exact hset.cancelled uow hstatus hknown hlogged hreverts hstands
    | some handle =>
        exact (hset.clearTimeout handle).cancelled uow hstatus hknown hlogged hreverts hstands

theorem Good.stopScheduling (h : Good s) : Good s.stopScheduling := by
  have htimers : Good { s with timers := s.stopScheduling.timers } := by
    refine h.withTimers ?_ ?_
    · exact fun timer htimer => h.handles timer (List.mem_of_mem_filter htimer)
    · exact fun timer htimer => h.armed timer (List.mem_of_mem_filter htimer)
  refine htimers.withRecords ?_ ?_
  · intro k record hrecord
    cases hrecord
  · intro k
    exact ⟨fun _ => .inl rfl, fun _ _ => .inl rfl, fun _ _ => .inl rfl⟩

/-! ## Units of work -/

omit [DecidableEq I] in
theorem later_of_advance (h : u.advance = some v) : Later u v := by
  unfold UnitOfWork.advance at h
  split at h
  case h_6 hstatus hphase =>
    split_ifs at h
    cases h
    exact ⟨fun _ hid => hid, List.Sublist.refl _,
      fun _ => hphase, by simp [hstatus], by simp [hstatus]⟩
  case h_7 => cases h
  all_goals
    rename_i hstatus hphase
    cases h
    exact ⟨fun _ hid => hid,
      List.Sublist.refl _, by simp [hphase], by simp [hstatus], by simp [hstatus]⟩

theorem Good.unitOfWork (h : Good s) (hu : s.uow w = none) : Good (s.setUow w (.fresh I)) := by
  refine h.setUow ?_ ?_ ?_ fun id => .inl ?_
  · intro id hid
    cases hid
  · intro v hv
    rw [hu] at hv
    cases hv
  · intro v hv
    rw [hu] at hv
    cases hv
  · rw [reverts_setUow_self]
    simp [UnitOfWork.fresh]

omit [DecidableEq I] in
theorem later_fail (h : u.status = .started) : Later u { u with status := .error } :=
  ⟨fun _ hid => hid, List.Sublist.refl _, fun hphase => hphase, fun _ => rfl, by simp [h]⟩

theorem Good.shiftAfterCommit {rest : List I} (h : Good s) (hu : s.uow w = some u)
    (hnext : u.afterCommit = id::rest) :
    Good (s.setUow w { u with afterCommit := rest }) := by
  refine h.later hu ⟨fun k hk => ?_, List.Sublist.refl _, fun hp => hp, fun he => he, fun hc => hc⟩
  rw [hnext]
  exact List.mem_cons_of_mem _ hk

/-- The next action of AFTER_COMMIT arms a schedule of the unit of work that runs it. -/
theorem Good.runAfterCommit {rest : List I} (h : Good s) (hu : s.uow w = some u)
    (hphase : u.phase = some .afterCommit) (hnext : u.afterCommit = id::rest) :
    Good ((s.setUow w { u with afterCommit := rest }).arm id) := by
  obtain ⟨schedule, hgiven, hw⟩ := h.registered w u hu id (hnext ▸ List.mem_cons_self)
  refine (h.shiftAfterCommit hu hnext).arm ⟨schedule, { u with afterCommit := rest }, hgiven,
    ?_, hphase⟩
  rw [hw, uow_setUow, if_pos rfl]

/-- The next error handler of a unit of work that has failed. -/
theorem Good.runErrorHandler {handler : ErrorHandler I} {rest : List (ErrorHandler I)} (h : Good s)
    (hu : s.uow w = some u) (herror : u.status = .error) (hnext : u.errorHandlers = handler::rest) :
    Good ((s.setUow w { u with errorHandlers := rest }).onError handler) := by
  have hlater : Later u { u with errorHandlers := rest } := by
    refine ⟨fun _ hid => hid, ?_, fun hp => hp, fun he => he, fun hc => hc⟩
    rw [hnext]
    exact List.sublist_cons_self handler rest
  have hgood := h.later hu hlater
  cases handler with
  | dropStaged id => exact hgood.dropStaged id
  | revertCancel id =>
      have hcount : s.reverts w id = rest.count (.revertCancel id) + 1 := by
        rw [State.reverts, hu]
        show (if u.status = .completed then 0 else _) = _
        rw [if_neg (by rw [herror]; simp), hnext, List.count_cons_self]
      have hone := h.oneRevert w id
      refine hgood.revertCancel ?_ ?_
      · intro w'
        by_cases hw : w' = w
        · rw [hw, reverts_setUow_self, if_neg (show u.status ≠ .completed by rw [herror]; simp)]
          show rest.count _ = 0
          omega
        · rw [reverts_setUow_of_ne hw]
          by_contra hne
          exact hw (h.oneReverts w' w id (Nat.pos_of_ne_zero hne) (by omega))
      · rintro uow ⟨hanswer, hfailed⟩
        have hlogged : ¬s.Failed uow := by
          rintro ⟨w', v, huow, hv, he⟩
          refine hfailed ?_
          by_cases hw : w' = w
          · subst hw
            refine ⟨w', { u with errorHandlers := rest }, huow, ?_, herror⟩
            rw [uow_setUow, if_pos rfl]
          · refine ⟨w', v, huow, ?_, he⟩
            rw [uow_setUow, if_neg hw, hv]
        have howner := h.ownRevert id uow w ⟨hanswer, hlogged⟩ (by omega)
        exact hlogged ⟨w, u, howner, hu, herror⟩

theorem Good.expire {handle : ℕ} {timer : Timer I} (h : Good s)
    (htimer : OrderedMap.get handle s.timers = some timer) :
    Good ((s.clearTimeout handle).onTimer timer.id) :=
  (h.clearTimeout handle).onTimer (h.armed _ (OrderedMap.mem_of_get htimer))

theorem good_initial (clock : ℚ) : Good (initial I E T clock) where
  staged := nofun
  registered := nofun
  handles := nofun
  armed := nofun
  logged := nofun
  own := nofun
  once := List.nodup_nil
  answered := nofun
  handled := nofun
  allows := fun _ => ⟨nofun, nofun, fun _ huow => nomatch huow.1⟩
  oneRevert := fun _ _ => Nat.zero_le _
  oneReverts := nofun
  unlogged := fun _ _ huow => nomatch huow.1
  ownRevert := fun _ _ _ huow => nomatch huow.1

end State

/-! ## Runs -/

open State

theorem good_step {action : Action I E T} (h : Good s) (hstep : step s action = some t) :
    Good t := by
  cases action with
  | setClock reading =>
      cases hstep
      exact h.setClock reading
  | unitOfWork w =>
      simp only [step] at hstep
      split_ifs at hstep with hu
      cases hstep
      exact h.unitOfWork hu
  | advance w =>
      obtain ⟨u, hu, hnext⟩ := Option.bind_eq_some_iff.mp hstep
      obtain ⟨v, hv, rfl⟩ := Option.map_eq_some_iff.mp hnext
      exact h.later hu (later_of_advance hv)
  | fail w =>
      obtain ⟨u, hu, hnext⟩ := Option.bind_eq_some_iff.mp hstep
      split_ifs at hnext with hstatus
      cases hnext
      exact h.later hu (later_fail hstatus)
  | runAfterCommit w =>
      obtain ⟨u, hu, hnext⟩ := Option.bind_eq_some_iff.mp hstep
      split at hnext
      case h_1 id rest hstatus hphase hafter =>
        cases hnext
        exact h.runAfterCommit hu hphase hafter
      case h_2 => cases hnext
  | runErrorHandler w =>
      obtain ⟨u, hu, hnext⟩ := Option.bind_eq_some_iff.mp hstep
      split at hnext
      case h_1 handler rest hstatus hhandlers =>
        cases hnext
        exact h.runErrorHandler hu hstatus hhandlers
      case h_2 => cases hnext
  | schedule id event fireAt uow =>
      simp only [step] at hstep
      split_ifs at hstep with hfresh
      split at hstep
      case h_1 t' hcall =>
        cases hstep
        exact h.schedule hfresh hcall
      case h_2 =>
        cases hstep
        exact h
  | cancelSchedule id uow =>
      simp only [step] at hstep
      split_ifs at hstep
      cases hstep
      exact h.cancelSchedule id uow
  | expire handle =>
      obtain ⟨timer, htimer, hnext⟩ := Option.bind_eq_some_iff.mp hstep
      split_ifs at hnext
      cases hnext
      exact h.expire htimer
  | stopScheduling =>
      cases hstep
      exact h.stopScheduling

theorem good_of_reach {ok : State I E T → Action I E T → Prop} {clock : ℚ}
    (h : Reach step ok (initial I E T clock) s) : Good s :=
  h.invariant (good_initial clock) fun _ _ _ _ hgood _ hstep => good_step hgood hstep

theorem State.Good.firesOnce (h : Good s) : FiresOnce s where
  once := h.once
  own := h.own
  notRolledBack := by
    intro entry hentry schedule hgiven u hu hrolled
    obtain ⟨other, v, hother, hv, hphase⟩ := h.logged entry hentry
    rw [hgiven] at hother
    cases hother
    rw [hu] at hv
    cases hv
    exact hrolled.2 hphase
  notCancelled := by
    intro entry hentry uow hmem
    by_contra hfailed
    exact h.unlogged entry.id uow ⟨hmem, hfailed⟩ (List.mem_map_of_mem hentry)

end Kronos.EventScheduling.InMemory
