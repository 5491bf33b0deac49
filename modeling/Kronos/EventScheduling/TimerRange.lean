import Mathlib.Tactic.Linarith
import Mathlib.Tactic.NormNum
import Kronos.EventScheduling.FiresOnce

/-!
# A schedule in memory fires early beyond the range of a timer

A timer waits for the whole delay when this is a whole number of milliseconds
and at most 2^31-1, or nothing at all; a longer one is cut to a millisecond and
a fraction is cut off. `armTimer` hands every delay to `setTimeout` as it is,
where `withMessagingTimeout` refuses one beyond the range.
-/
namespace Kronos.EventScheduling.InMemory
open Kronos.Lib Kronos.Lib.Transition State

variable {I E T : Type} [DecidableEq I] [DecidableEq T] {s t : State I E T} {id : I} {w : T}

/-- No event was appended while the clock was before its fire time. -/
def NeverEarly (s : State I E T) : Prop :=
  ∀ entry ∈ s.log, ∀ schedule, s.given entry.id = some schedule →
    ∀ time : ℤ, schedule.fireAt = some time → ¬entry.clock < time

/-- What is less than a millisecond away, or at most the range of a timer and in whole
milliseconds. -/
def inRange (fireAt : Option ℤ) (now : ℚ) : Bool :=
  fireAt.all fun (time : ℤ) => (time : ℚ) - now < 1 ∨ now.den = 1 ∧ (time : ℚ) - now ≤ 2147483647

/-- The record that the next action of AFTER_COMMIT arms. -/
def nextArmed (s : State I E T) (w : T) : Option (ScheduleRecord E) :=
  ((s.uow w).bind fun u => u.afterCommit.head?.bind s.record).filter fun record =>
    record.status = .pending

/-- A timer is armed only for a fire time in its range. -/
def armsInRange (s : State I E T) : Action I E T → Bool
  | .runAfterCommit w => (nextArmed s w).all fun record => inRange record.fireAt s.clock
  | _ => true

/-! ## One timer -/

/-- A timer waits for the fire time exactly when this is in its range. -/
theorem inRange_iff {time : ℤ} {now : ℚ} :
    inRange (some time) now = true ↔ (time : ℚ) ≤ now + timerDelay (delayOf (some time) now) := by
  simp only [inRange, Option.all_some, decide_eq_true_eq, delayOf, Option.map_some, timerDelay]
  by_cases hsmall : (time : ℚ) - now < 1
  · have hmax : max 0 ((time : ℚ) - now) < 1 := max_lt (by norm_num) hsmall
    rw [if_pos (.inr hmax)]
    exact iff_of_true (.inl hsmall) (by push_cast; linarith)
  have hmax : max 0 ((time : ℚ) - now) = time - now := max_eq_right (by linarith)
  rw [hmax]
  by_cases hlarge : 2147483647 < (time : ℚ) - now
  · rw [if_pos (.inl hlarge)]
    refine iff_of_false ?_ ?_
    · rintro (h | h)
      · exact hsmall h
      · linarith [h.2]
    · push_cast
      intro h
      linarith
  rw [if_neg (by simp [hsmall, hlarge])]
  have hfloor := Rat.floor_le ((time : ℚ) - now)
  constructor
  · rintro (h | ⟨hden, _⟩)
    · exact absurd h hsmall
    · have hnow : ((now.num : ℤ) : ℚ) = now := Rat.coe_int_num_of_den_eq_one hden
      have hdiff : (time : ℚ) - now = ((time - now.num : ℤ) : ℚ) := by
        push_cast
        rw [hnow]
      rw [hdiff, Rat.floor_intCast]
      push_cast
      rw [hnow]
      linarith
  · intro h
    refine .inr ⟨?_, le_of_not_gt hlarge⟩
    have hnow : now = ((time - ((time : ℚ) - now).floor : ℤ) : ℚ) := by
      push_cast
      linarith
    rw [hnow]
    exact Rat.den_intCast _

/-! ## Every timer -/

/-- No timer expires, and no event was appended, before the fire time. -/
structure Timed (s : State I E T) : Prop where
  timers : ∀ timer ∈ s.timers, ∀ schedule, s.given timer.2.id = some schedule →
    ∀ time : ℤ, schedule.fireAt = some time → (time : ℚ) ≤ timer.2.armedAt + timer.2.delay
  log : NeverEarly s

omit [DecidableEq T] in
theorem Timed.frame (h : Timed s) (htimers : ∀ timer ∈ t.timers, timer ∈ s.timers)
    (hlog : t.log = s.log) (hscheduled : t.scheduled = s.scheduled) : Timed t where
  timers := by
    intro timer htimer schedule hgiven
    rw [given, hscheduled] at hgiven
    exact h.timers timer (htimers timer htimer) schedule hgiven
  log := by
    intro entry hentry schedule hgiven
    rw [hlog] at hentry
    rw [given, hscheduled] at hgiven
    exact h.log entry hentry schedule hgiven

omit [DecidableEq T] in
theorem Timed.onError (h : Timed s) (handler : ErrorHandler I) : Timed (s.onError handler) := by
  cases handler with
  | dropStaged id =>
      simp only [State.onError]
      split
      · exact h
      · split_ifs
        · exact h.frame (fun _ htimer => htimer) rfl rfl
        · exact h
  | revertCancel id =>
      simp only [State.onError]
      split
      · exact h
      · split_ifs
        · exact h.frame (fun _ htimer => htimer) rfl rfl
        · exact h

theorem Timed.cancelSchedule (h : Timed s) (id : I) (uow : Option T) :
    Timed (s.cancelSchedule id uow) := by
  unfold State.cancelSchedule
  rcases cancelRecord_cases s id uow with ⟨hsame, _⟩ | ⟨record, _, _, heq⟩
  · have htimed : Timed (s.cancelRecord id uow).1 := hsame.symm ▸ h
    exact htimed.frame (fun _ htimer => htimer) rfl rfl
  · rw [heq]
    cases record.timer with
    | none =>
        obtain ⟨uows, heq⟩ :=
          revertOnError_eq
          (s.setRecord id { record with status := .cancelled, timer := none }) id uow
        simp only [Option.elim, heq]
        exact h.frame (fun _ htimer => htimer) rfl rfl
    | some handle =>
        obtain ⟨uows, heq⟩ := revertOnError_eq
          ((s.setRecord id { record with status := .cancelled, timer := none }).clearTimeout handle)
            id uow
        simp only [Option.elim, heq]
        exact h.frame (fun _ htimer => List.mem_of_mem_filter htimer) rfl rfl

omit [DecidableEq T] in
/-- A timer that has come to its end finds the clock at its fire time or after it. -/
theorem Timed.expire {handle : ℕ} {timer : Timer I} (h : Timed s)
    (htimer : OrderedMap.get handle s.timers = some timer)
    (hclock : timer.armedAt + timer.delay ≤ s.clock) :
    Timed ((s.clearTimeout handle).onTimer timer.id) := by
  have hclear : Timed (s.clearTimeout handle) :=
    h.frame (fun _ hmem => List.mem_of_mem_filter hmem) rfl rfl
  unfold State.onTimer
  split
  · exact hclear
  · split_ifs
    · exact hclear
    · refine ⟨hclear.timers, ?_⟩
      intro entry hentry schedule hgiven time hfireAt
      rcases List.mem_append.mp hentry with hold | hnew
      · exact h.log entry hold schedule hgiven time hfireAt
      · rw [List.mem_singleton.mp hnew] at hgiven ⊢
        have hreached := h.timers _ (OrderedMap.mem_of_get htimer) schedule hgiven time hfireAt
        exact not_lt.mpr (le_trans hreached hclock)

theorem Timed.schedule {event : E} {fireAt : Option ℤ} {uow : Option T} (h : Timed s)
    (hgood : Good s) (hfresh : s.given id = none) (hcall : s.schedule id event fireAt uow = .ok t) :
    Timed t := by
  obtain ⟨w, u, rfl, _, _, rfl⟩ := schedule_ok hcall
  have hold : ∀ k schedule, s.given k ≠ none →
      State.given { s with scheduled := OrderedMap.set id ⟨event, fireAt, w⟩ s.scheduled } k =
        some schedule →
      s.given k = some schedule := by
    intro k schedule hknown hgiven
    rw [given_schedule, if_neg] at hgiven
    · exact hgiven
    · rintro rfl
      exact hknown hfresh
  constructor
  case timers =>
    intro timer htimer schedule hgiven
    obtain ⟨other, _, hother, _⟩ := hgood.armed timer htimer
    exact h.timers timer htimer schedule (hold _ schedule (by rw [hother]; simp) hgiven)
  case log =>
    intro entry hentry schedule hgiven
    obtain ⟨other, _, hother, _⟩ := hgood.logged entry hentry
    exact h.log entry hentry schedule (hold _ schedule (by rw [hother]; simp) hgiven)

/-- Arming a record whose fire time is in range. -/
theorem Timed.arm (h : Timed s) (hgood : Good s)
    (hrange : ∀ record,
      s.record id = some record → record.status = .pending → inRange record.fireAt s.clock = true) :
    Timed (s.arm id) := by
  unfold State.arm
  cases hrecord : s.record id with
  | none => exact h
  | some record =>
      show Timed (if record.status ≠ .pending then s else _)
      split_ifs with hpending
      · exact h
      refine ⟨?_, h.log⟩
      intro timer htimer schedule hgiven time hfireAt
      rcases List.mem_append.mp htimer with hold | hnew
      · exact h.timers timer hold schedule hgiven time hfireAt
      · rw [List.mem_singleton.mp hnew] at hgiven ⊢
        obtain ⟨other, hother, _, hsame⟩ := hgood.staged id record hrecord
        have heq : other = schedule := Option.some.inj (hother.symm.trans hgiven)
        have hreaches := hrange record hrecord (not_not.mp hpending)
        rw [hsame, heq, hfireAt] at hreaches
        show (time : ℚ) ≤ s.clock + timerDelay (delayOf record.fireAt s.clock)
        rw [hsame, heq, hfireAt]
        exact inRange_iff.mp hreaches

theorem timed_step {action : Action I E T} (h : Timed s) (hgood : Good s)
    (hrange : armsInRange s action = true) (hstep : step s action = some t) : Timed t := by
  cases action with
  | setClock reading =>
      cases hstep
      exact h.frame (fun _ htimer => htimer) rfl rfl
  | unitOfWork w =>
      simp only [step] at hstep
      split_ifs at hstep
      cases hstep
      exact h.frame (fun _ htimer => htimer) rfl rfl
  | advance w =>
      obtain ⟨u, _, hnext⟩ := Option.bind_eq_some_iff.mp hstep
      obtain ⟨v, _, rfl⟩ := Option.map_eq_some_iff.mp hnext
      exact h.frame (fun _ htimer => htimer) rfl rfl
  | fail w =>
      obtain ⟨u, _, hnext⟩ := Option.bind_eq_some_iff.mp hstep
      split_ifs at hnext
      cases hnext
      exact h.frame (fun _ htimer => htimer) rfl rfl
  | runAfterCommit w =>
      obtain ⟨u, hu, hnext⟩ := Option.bind_eq_some_iff.mp hstep
      split at hnext
      case h_1 id rest hstatus hphase hafter =>
        cases hnext
        have htimed : Timed (s.setUow w { u with afterCommit := rest }) :=
          h.frame (fun _ htimer => htimer) rfl rfl
        refine htimed.arm (hgood.shiftAfterCommit hu hafter) fun record hrecord hpending => ?_
        have hnextArmed : nextArmed s w = some record := by
          unfold nextArmed
          rw [hu, Option.bind_some, hafter, List.head?_cons, Option.bind_some,
            show s.record id = some record from hrecord]
          simp [hpending]
        simp only [armsInRange, hnextArmed] at hrange
        exact hrange
      case h_2 => cases hnext
  | runErrorHandler w =>
      obtain ⟨u, _, hnext⟩ := Option.bind_eq_some_iff.mp hstep
      split at hnext
      case h_1 handler rest _ _ =>
        cases hnext
        have htimed : Timed (s.setUow w { u with errorHandlers := rest }) :=
          h.frame (fun _ htimer => htimer) rfl rfl
        exact htimed.onError handler
      case h_2 => cases hnext
  | schedule id event fireAt uow =>
      simp only [step] at hstep
      split_ifs at hstep with hfresh
      split at hstep
      case h_1 t' hcall =>
        cases hstep
        exact h.schedule hgood hfresh hcall
      case h_2 =>
        cases hstep
        exact h
  | cancelSchedule id uow =>
      simp only [step] at hstep
      split_ifs at hstep
      cases hstep
      exact h.cancelSchedule id uow
  | expire handle =>
      obtain ⟨timer, htimer, hnext⟩ := Option.bind_eq_some_iff.mp hstep
      split_ifs at hnext with hclock
      cases hnext
      exact h.expire htimer hclock
  | stopScheduling =>
      cases hstep
      exact h.frame (fun _ htimer => List.mem_of_mem_filter htimer) rfl rfl

omit [DecidableEq T] in
theorem timed_initial (clock : ℚ) : Timed (initial I E T clock) where
  timers := fun _ htimer => nomatch htimer
  log := fun _ hentry => nomatch hentry

theorem timed_of_reach {clock : ℚ}
    (h : Reach step (fun s a => armsInRange s a = true) (initial I E T clock) s) :
    Timed s := by
  refine h.invariant (timed_initial clock) fun s action t hreach htimed hrange hstep => ?_
  exact timed_step htimed (good_of_reach hreach) hrange hstep

/-- In every run an event is appended once, and never before its fire time if every timer is
in range. -/
theorem fires_once_and_in_range_not_early (clock : ℚ) (s : State I E T) :
    (Reach step always (initial I E T clock) s → FiresOnce s) ∧
      (Reach step (fun s a => armsInRange s a = true) (initial I E T clock) s → FiresOnce s ∧
        NeverEarly s) := by
  constructor
  · intro h
    exact (good_of_reach h).firesOnce
  · intro h
    exact ⟨(good_of_reach h).firesOnce, (timed_of_reach h).log⟩

/-- The first fires on the last millisecond in range, the second is rolled back, the third is
cancelled. -/
theorem three_schedules_in_range :
    ∃ s : State ℕ Char ℕ, Reach step (fun s a => armsInRange s a = true) (initial ℕ Char ℕ 0) s ∧
      s.log = [⟨1, 'a', 2147483647⟩] ∧ s.given 1 = some ⟨'a', some 2147483647, 10⟩ ∧ FiresOnce s ∧
        NeverEarly s := by
  obtain ⟨s, hreach, hlog, hgiven⟩ := reach_guarded_any (s := initial ℕ Char ℕ 0)
    (P := fun s => s.log = [⟨1, 'a', 2147483647⟩] ∧ s.given 1 = some ⟨'a', some 2147483647, 10⟩)
    (show ((exec (guarded step fun s a => armsInRange s a = true) (initial ℕ Char ℕ 0)
      [.unitOfWork 10, .unitOfWork 20, .advance 10, .advance 20, .advance 10, .advance 20,
        .schedule 1 'a' (some 2147483647) (some 10), .schedule 2 'b' (some 5) (some 20),
        .schedule 3 'c' (some 7) (some 10), .advance 10, .advance 10, .advance 10,
          .runAfterCommit 10,
        .fail 20, .runErrorHandler 20, .runAfterCommit 10, .advance 10, .cancelSchedule 3 none,
        .setClock 2147483647, .expire 0]).any fun s => decide _) = true by decide +kernel)
  exact ⟨s, hreach, hlog, hgiven, (fires_once_and_in_range_not_early 0 s).2 hreach⟩

/-- A fire time one millisecond beyond the range is appended after one millisecond. -/
theorem fires_2147483647_ms_early :
    ∃ s : State ℕ Char ℕ, Reach step always (initial ℕ Char ℕ 0) s ∧
      s.log = [⟨1, 'a', 1⟩] ∧ s.given 1 = some ⟨'a', some 2147483648, 10⟩ ∧ ¬NeverEarly s := by
  obtain ⟨s, hreach, hlog, hgiven⟩ := reach_exec_any (s := initial ℕ Char ℕ 0)
    (P := fun s => s.log = [⟨1, 'a', 1⟩] ∧ s.given 1 = some ⟨'a', some 2147483648, 10⟩)
    (show ((exec step (initial ℕ Char ℕ 0)
      [.unitOfWork 10, .advance 10, .advance 10, .schedule 1 'a' (some 2147483648) (some 10),
        .advance 10, .advance 10, .advance 10, .runAfterCommit 10, .advance 10, .setClock 1,
        .expire 0]).any fun s => decide _) = true by decide +kernel)
  refine ⟨s, hreach, hlog, hgiven, fun hearly => ?_⟩
  refine hearly ⟨1, 'a', 1⟩ (by rw [hlog]; exact List.mem_singleton_self _) _ hgiven _ rfl ?_
  norm_num

omit [DecidableEq I] [DecidableEq T] in
/-- The timer that was armed last is found under its handle. -/
theorem get_setTimeout {timers : List (ℕ × Timer I)} {handle : ℕ} (timer : Timer I)
    (h : ∀ entry ∈ timers, entry.1 < handle) :
    OrderedMap.get handle (timers ++ [(handle, timer)]) = some timer := by
  have hfresh : handle ∉ timers.map Prod.fst := by
    intro hmem
    obtain ⟨entry, hentry, heq⟩ := List.mem_map.mp hmem
    have hlt := h entry hentry
    omega
  rw [← OrderedMap.set_of_not_mem hfresh timer]
  exact OrderedMap.get_set_self handle timer timers

/-- A timer may expire as soon as its delay is over, and then appends what is pending. -/
theorem appends_at_delay {record : ScheduleRecord E} (h : Good s) (id : I)
    (hpending : record.status = .pending) :
    ∃ t, Reach step always (s.armTimer id record) t ∧ t.scheduled = s.scheduled ∧
      ⟨id, record.event, s.clock + timerDelay (delayOf record.fireAt s.clock)⟩ ∈ t.log := by
  let timer : Timer I := ⟨id, s.clock, timerDelay (delayOf record.fireAt s.clock)⟩
  let due : State I E T := { s.armTimer id record with clock := timer.armedAt + timer.delay }
  have hget : OrderedMap.get s.nextTimer due.timers = some timer := get_setTimeout timer h.handles
  have hexpire :
      step due (.expire s.nextTimer) = some ((due.clearTimeout s.nextTimer).onTimer id) := by
    refine Option.bind_eq_some_iff.mpr ⟨timer, hget, ?_⟩
    exact if_pos (le_refl (timer.armedAt + timer.delay))
  have hdue :
      (due.clearTimeout s.nextTimer).record id =
      some { record with timer := some s.nextTimer } := by
    show (s.setRecord id { record with timer := some s.nextTimer }).record id = _
    rw [record_setRecord, if_pos rfl]
  have hclock : Reach step always (s.armTimer id record) due :=
    .next (a := .setClock (timer.armedAt + timer.delay)) .start trivial rfl
  refine ⟨_, .next hclock trivial hexpire, ?_, ?_⟩
  · unfold State.onTimer
    rw [hdue]
    simp only [hpending]
    rfl
  · unfold State.onTimer
    rw [hdue]
    simp only [hpending]
    exact List.mem_append_right _ (List.mem_singleton_self _)

/-- Wherever a timer is armed out of range, its event can be appended before the fire time. -/
theorem early_out_of_range {clock : ℚ} (h : Reach step always (initial I E T clock) s)
    (hstep : step s (.runAfterCommit w) = some t)
    (hrange : armsInRange s (.runAfterCommit w) = false) :
    ∃ t', Reach step always t t' ∧ ¬NeverEarly t' := by
  have hgood := good_of_reach h
  obtain ⟨u, hu, hnext⟩ := Option.bind_eq_some_iff.mp hstep
  split at hnext
  case h_1 id rest hstatus hphase hafter =>
    cases hnext
    obtain ⟨record, hnextArmed, hout⟩ : ∃ record, nextArmed s w = some record ∧
        inRange record.fireAt s.clock = false := by
      cases hnextArmed : nextArmed s w with
      | none => simp [armsInRange, hnextArmed] at hrange
      | some record => exact ⟨record, rfl, by simpa [armsInRange, hnextArmed] using hrange⟩
    unfold nextArmed at hnextArmed
    rw [hu, Option.bind_some, hafter, List.head?_cons, Option.bind_some, Option.filter_eq_some_iff,
      decide_eq_true_eq] at hnextArmed
    obtain ⟨hrecord, hpending⟩ := hnextArmed
    obtain ⟨t', hreach, hscheduled, hmem⟩ :=
      appends_at_delay (hgood.shiftAfterCommit hu hafter) id hpending
    have harm : (s.setUow w { u with afterCommit := rest }).arm id =
        (s.setUow w { u with afterCommit := rest }).armTimer id record := by
      unfold State.arm
      rw [show (s.setUow w { u with afterCommit := rest }).record id = some record from hrecord]
      simp [hpending]
    rw [harm]
    refine ⟨t', hreach, fun hearly => ?_⟩
    obtain ⟨schedule, hgiven, _, hsame⟩ := hgood.staged id record hrecord
    cases htime : record.fireAt with
    | none =>
        rw [htime] at hout
        cases hout
    | some time =>
        have hlate :=
          hearly _ hmem schedule (by rw [given, hscheduled]; exact hgiven) time (hsame ▸ htime)
        rw [htime] at hout hlate
        have hfalse := mt inRange_iff.mpr (by rw [hout]; exact Bool.false_ne_true)
        exact hfalse (not_lt.mp hlate)
  case h_2 => cases hnext

end Kronos.EventScheduling.InMemory
