import Kronos.Processing.Worker

/-!
# One event at a time after a failure

How many events a worker takes after a batch has failed. Here the stream is
whatever it likes: a poll is handed any events, up to the number it asks for,
and any call on the stream or the store may fail. So the model holds for every
engine, also for one whose streams are not in the order of the positions.

Of the worker it keeps what decides the size of a batch: the token, `caughtUp`,
`cautiousUntil` and `attemptEnd`. `pending` and `attempts` are read by no step:
the last events of failed batches that the token has not been past since, and
the batches that were attempted, each with whether something was pending.
-/
namespace Kronos.Processing.CautiousRetry
open Kronos.Lib.Transition TrackingToken SegmentWorker

variable {K E : Type}

/-- Where `pollOnce` is. -/
inductive Phase (K E : Type) where
  | idle
  /-- Waiting for a renewal to land. -/
  | waiting
  /-- The unit of work of a batch runs. -/
  | batch (events : List (SequencedEvent K E))
  /-- The write of a quiet stretch is in flight. -/
  | writing

structure Attempt (K E : Type) where
  events : List (SequencedEvent K E)
  /-- A failed batch was not passed yet. -/
  owed : Bool

structure State (K E : Type) where
  active : Bool
  token : TrackingToken K
  phase : Phase K E
  caughtUp : Bool
  cautiousUntil : ℕ
  attemptEnd : ℕ
  pending : List (SequencedEvent K E)
  attempts : List (Attempt K E)

/-- `startWorker`, which polls at once. -/
def startWorker (stored : Option (TrackingToken K)) : State K E :=
  ⟨true, stored.getD (globalSequence 0), .waiting, false, 0, 0, [], []⟩

inductive Action (K E : Type) where
  | poll
  /-- Opening the stream throws. -/
  | openFails
  /-- The stream had an error and was opened anew, or the worker is not active any more. -/
  | giveUp
  /-- Reading the stream throws. -/
  | readFails
  /-- The stream hands out a batch; after an empty one it has looked up to `looked`. -/
  | take (backlogEnd : Option ℕ) (events : List (SequencedEvent K E))
      (looked : Option (TrackingToken K))
  /-- The batch commits and the poll goes on: more events are ready, or it has looked up to
  `looked`. -/
  | succeed (more : Bool) (looked : Option (TrackingToken K))
  /-- The batch commits and the stream throws when it is asked for more. -/
  | succeedThrows
  /-- The batch fails, in a handler or in its token write. -/
  | fail (lost : Bool)
  | quietLands
  | quietFails (lost : Bool)
  | stop

namespace State
variable (cfg : Config E) (s : State K E)

/-- `token = next`; what the token is past is not pending any more. -/
def set (next : TrackingToken K) : State K E :=
  { s with token := next, pending := s.pending.filter fun e => !next.covers e.past }

/-- The events a poll takes at most. -/
def target (backlogEnd : Option ℕ) : ℕ :=
  if s.token.position < s.cautiousUntil then 1
  else if s.token.isReplayToken || backlogEnd.any (fun n => decide (s.token.position < n)) ||
      !s.caughtUp then cfg.replayBatchSize
  else cfg.batchSize

/-- `moveThroughQuietStretch`, up to its write. -/
def moveThroughQuietStretch (looked : Option (TrackingToken K)) : State K E :=
  match looked with
  | none => { s with phase := .idle }
  | some looked =>
      if s.token.position < looked.position then
        { s.set (advanceTokenTo s.token looked) with
          phase := if cfg.deferQuiet then .idle else .writing }
      else { s with phase := .idle }

/-- The `catch` of `pollOnce`: another node has the claim, or the poll is retried. -/
def caught (lost : Bool) : State K E :=
  if lost then { s with active := false, phase := .idle }
  else { s with cautiousUntil := s.attemptEnd, phase := .idle }

/-- The batch failed: its last event is pending unless the token is past it. -/
def failed (events : List (SequencedEvent K E)) : State K E :=
  { s with pending := s.pending ++ events.getLast?.toList.filter fun e => !s.token.covers e.past }

end State

def step (cfg : Config E) (s : State K E) : Action K E → Option (State K E)
  | .poll =>
      match s.active, s.phase with
      | true, .idle => some { s with phase := .waiting }
      | _, _ => none
  | .openFails =>
      match s.active, s.phase with
      | true, .waiting => some (s.caught false)
      | _, _ => none
  | .giveUp =>
      match s.phase with
      | .waiting => some { s with phase := .idle }
      | _ => none
  | .readFails =>
      match s.active, s.phase with
      | true, .waiting => some ({ s with attemptEnd := 0 }.caught false)
      | _, _ => none
  | .take backlogEnd events looked =>
      match s.active, s.phase with
      | true, .waiting =>
          if events.length ≤ s.target cfg backlogEnd then
            match events.getLast? with
            | none =>
                some ({ s with
                  attemptEnd := 0, caughtUp := true }.moveThroughQuietStretch cfg looked)
            | some last =>
                some { s with
                  caughtUp := false
                  attemptEnd := last.sequence + 1
                  phase := .batch events
                  attempts := s.attempts ++ [⟨events, !s.pending.isEmpty⟩] }
          else none
      | _, _ => none
  | .succeed more looked =>
      match s.phase with
      | .batch events =>
          let done := s.set (prepare cfg.hashOf s.token events).2
          if s.active && !more then
            some ({ done with caughtUp := true }.moveThroughQuietStretch cfg looked)
          else some { done with phase := .idle }
      | _ => none
  | .succeedThrows =>
      match s.active, s.phase with
      | true, .batch events =>
          some ((s.set (prepare cfg.hashOf s.token events).2).caught false)
      | _, _ => none
  | .fail lost =>
      match s.phase with
      | .batch events => some ((s.failed events).caught lost)
      | _ => none
  | .quietLands =>
      match s.phase with
      | .writing => some { s with phase := .idle }
      | _ => none
  | .quietFails lost =>
      match s.phase with
      | .writing => some (s.caught lost)
      | _ => none
  | .stop => if s.active then some { s with active := false } else none

/-- A worker that still has a failure before it. -/
def State.cautious (s : State K E) : Bool := decide (s.token.position < s.cautiousUntil)

/-- Whether a failure keeps the mark: there is none to keep, or the attempt got at least as far. -/
def State.keepsMark (s : State K E) : Bool := !s.cautious || decide (s.cautiousUntil ≤ s.attemptEnd)

/-- A poll fails only where the worker is not cautious or its attempt ended at the
mark or past it, and the token of an event is not beyond the place after it. -/
def steady (s : State K E) : Action K E → Bool
  | .openFails => s.keepsMark
  | .readFails => !s.cautious
  | .take _ events _ => events.all fun e => decide (e.past.position ≤ e.sequence + 1)
  | .succeedThrows => s.keepsMark
  | .fail lost => lost || s.keepsMark
  | .quietFails lost => lost || s.keepsMark
  | _ => true

/-! ## The invariant -/

/-- What is pending lies ahead of the token and below the mark, while the worker is active. -/
def Marked (s : State K E) : Prop :=
  s.active = true → ∀ e ∈ s.pending,
    s.token.position < e.past.position ∧ e.past.position ≤ s.cautiousUntil

structure Inv (s : State K E) : Prop where
  marked : Marked s
  attempt : ∀ events, s.phase = .batch events → ∃ last, events.getLast? = some last ∧
    s.attemptEnd = last.sequence + 1 ∧ last.past.position ≤ last.sequence + 1
  attempts : ∀ a ∈ s.attempts, a.owed = true → a.events.length = 1

theorem Marked.cautious {s : State K E} (h : Marked s) (hactive : s.active = true)
    (hpending : s.pending ≠ []) : s.token.position < s.cautiousUntil := by
  obtain ⟨e, he⟩ := List.exists_mem_of_ne_nil _ hpending
  obtain ⟨hahead, hmark⟩ := h hactive e he
  omega

theorem not_covers_iff {token next : TrackingToken K} :
    (!token.covers next) = true ↔ token.position < next.position := by
  rw [Bool.not_eq_true', Bool.eq_false_iff, ne_eq, covers_iff, Nat.not_le]

theorem Marked.set {s : State K E} (h : Marked s) (next : TrackingToken K) :
    Marked (s.set next) := by
  intro hactive e he
  obtain ⟨hmem, hnot⟩ := List.mem_filter.mp he
  exact ⟨not_covers_iff.mp hnot, (h hactive e hmem).2⟩

/-- What is still pending after a failure, given the mark it leaves. -/
theorem marked_caught {s : State K E} {lost : Bool}
    (h : lost = false → s.active = true → ∀ e ∈ s.pending,
      s.token.position < e.past.position ∧ e.past.position ≤ s.attemptEnd) :
    Marked (s.caught lost) := by
  cases lost with
  | true =>
      intro hactive
      cases hactive
  | false => exact h rfl

/-- Where a failure keeps the mark, what is pending lies below the new one too. -/
theorem Marked.below_attemptEnd {s : State K E} (h : Marked s) (hkeeps : s.keepsMark = true)
    (hactive : s.active = true) : ∀ e ∈ s.pending,
      s.token.position < e.past.position ∧ e.past.position ≤ s.attemptEnd := by
  intro e he
  obtain ⟨hahead, hmark⟩ := h hactive e he
  simp only [State.keepsMark, State.cautious, Bool.or_eq_true, Bool.not_eq_true',
    decide_eq_false_iff_not, decide_eq_true_eq] at hkeeps
  omega

/-- No batch is under way, and the attempts are those there were. -/
theorem Inv.of_marked {s t : State K E} (h : Inv s) (hmarked : Marked t)
    (hphase : ∀ events, t.phase ≠ .batch events) (hattempts : t.attempts = s.attempts) : Inv t := by
  refine ⟨hmarked, ?_, ?_⟩
  · intro events hevents
    exact absurd hevents (hphase events)
  · rw [hattempts]
    exact h.attempts

theorem Inv.moveThroughQuietStretch {s t : State K E} (cfg : Config E) (h : Inv s)
    (hmarked : Marked t) (hattempts : t.attempts = s.attempts) (looked : Option (TrackingToken K)) :
    Inv (t.moveThroughQuietStretch cfg looked) := by
  cases looked with
  | none => exact h.of_marked hmarked (by simp [State.moveThroughQuietStretch]) hattempts
  | some looked =>
      unfold State.moveThroughQuietStretch
      simp only
      split_ifs with hahead hdefer
      · exact h.of_marked (hmarked.set _) (by simp) hattempts
      · exact h.of_marked (hmarked.set _) (by simp) hattempts
      · exact h.of_marked hmarked (by simp) hattempts

theorem Inv.caught {s : State K E} (h : Inv s) {t : State K E} {lost : Bool}
    (hmarked : Marked (t.caught lost)) (hattempts : t.attempts = s.attempts) :
    Inv (t.caught lost) := by
  cases lost with
  | true => exact h.of_marked hmarked (by simp [State.caught]) hattempts
  | false => exact h.of_marked hmarked (by simp [State.caught]) hattempts

/-- A batch that is taken while something is pending holds one event. -/
theorem Inv.take {cfg : Config E} {s : State K E} (h : Inv s) (hactive : s.active = true)
    {backlogEnd : Option ℕ} {events : List (SequencedEvent K E)} {last : SequencedEvent K E}
    (hlast : events.getLast? = some last) (hsize : events.length ≤ s.target cfg backlogEnd)
    (hplace : last.past.position ≤ last.sequence + 1) :
    Inv { s with
      caughtUp := false
      attemptEnd := last.sequence + 1
      phase := .batch events
      attempts := s.attempts ++ [⟨events, !s.pending.isEmpty⟩] } := by
  refine ⟨h.marked, ?_, ?_⟩
  · intro taken htaken
    cases htaken
    exact ⟨last, hlast, rfl, hplace⟩
  · intro a ha howed
    rcases List.mem_append.mp ha with ha | ha
    · exact h.attempts a ha howed
    · rw [List.mem_singleton.mp ha] at howed ⊢
      have hpending : s.pending ≠ [] := by simpa using howed
      rw [State.target, if_pos (h.marked.cautious hactive hpending)] at hsize
      have hne : events.length ≠ 0 := by
        intro hzero
        rw [List.length_eq_zero_iff.mp hzero] at hlast
        cases hlast
      exact Nat.le_antisymm hsize (Nat.one_le_iff_ne_zero.mpr hne)

theorem Inv.fail {s : State K E} (h : Inv s) {events : List (SequencedEvent K E)}
    (hphase : s.phase = .batch events) {lost : Bool} (hkeeps : (lost || s.keepsMark) = true) :
    Inv ((s.failed events).caught lost) := by
  obtain ⟨last, hlast, hend, hplace⟩ := h.attempt events hphase
  refine h.caught (marked_caught ?_) (show (s.failed events).attempts = s.attempts from rfl)
  intro hretry hactive e he
  rw [hretry, Bool.false_or] at hkeeps
  rcases List.mem_append.mp he with he | he
  · exact h.marked.below_attemptEnd hkeeps hactive e he
  · -- the event that failed last is the new mark itself
    obtain ⟨hmem, hnot⟩ := List.mem_filter.mp he
    rw [hlast, Option.toList_some, List.mem_singleton] at hmem
    subst hmem
    change _ ∧ e.past.position ≤ s.attemptEnd
    rw [hend]
    exact ⟨not_covers_iff.mp hnot, hplace⟩

theorem inv_startWorker (stored : Option (TrackingToken K)) :
    Inv (startWorker stored : State K E) := by
  refine ⟨?_, ?_, ?_⟩
  · intro _ e he
    cases he
  · intro events hevents
    cases hevents
  · intro a ha
    cases ha

theorem inv_step {cfg : Config E} {s t : State K E} {a : Action K E} (h : Inv s)
    (hsteady : steady s a = true) (hstep : step cfg s a = some t) : Inv t := by
  cases a with
  | poll =>
      simp only [step] at hstep
      split at hstep
      · cases hstep
        exact h.of_marked h.marked (by simp) rfl
      · cases hstep
  | openFails =>
      simp only [step] at hstep
      split at hstep
      · cases hstep
        exact h.caught (marked_caught fun _ => h.marked.below_attemptEnd hsteady) rfl
      · cases hstep
  | giveUp =>
      simp only [step] at hstep
      split at hstep
      · cases hstep
        exact h.of_marked h.marked (by simp) rfl
      · cases hstep
  | readFails =>
      simp only [step] at hstep
      split at hstep
      · cases hstep
        refine h.caught (marked_caught ?_) (show { s with attemptEnd := 0 }.attempts = _ from rfl)
        intro _ hactive e he
        have hcautious := h.marked.cautious hactive (List.ne_nil_of_mem he)
        simp [steady, State.cautious, hcautious] at hsteady
      · cases hstep
  | take backlogEnd events looked =>
      simp only [step] at hstep
      split at hstep
      case h_1 hactive hphase =>
        split_ifs at hstep with hsize
        cases hlast : events.getLast? with
        | none =>
            rw [hlast] at hstep
            cases hstep
            exact h.moveThroughQuietStretch (t := { s with attemptEnd := 0, caughtUp := true }) cfg
              h.marked rfl looked
        | some last =>
            rw [hlast] at hstep
            cases hstep
            have hplaced := List.all_eq_true.mp hsteady last (List.mem_of_getLast? hlast)
            exact h.take hactive hlast hsize (of_decide_eq_true hplaced)
      case h_2 => cases hstep
  | succeed more looked =>
      simp only [step] at hstep
      split at hstep
      · split_ifs at hstep
        · cases hstep
          refine h.moveThroughQuietStretch cfg ?_ ?_ looked
          · exact h.marked.set _
          · rfl
        · cases hstep
          exact h.of_marked (h.marked.set _) (by simp) rfl
      · cases hstep
  | succeedThrows =>
      simp only [step] at hstep
      split at hstep
      · cases hstep
        refine h.caught (marked_caught ?_) (show (s.set _).attempts = s.attempts from rfl)
        intro _ hactive e he
        obtain ⟨hmem, hnot⟩ := List.mem_filter.mp he
        exact ⟨not_covers_iff.mp hnot, (h.marked.below_attemptEnd hsteady hactive e hmem).2⟩
      · cases hstep
  | fail lost =>
      simp only [step] at hstep
      split at hstep
      case h_1 events hphase =>
        cases hstep
        exact h.fail hphase hsteady
      case h_2 => cases hstep
  | quietLands =>
      simp only [step] at hstep
      split at hstep
      · cases hstep
        exact h.of_marked h.marked (by simp) rfl
      · cases hstep
  | quietFails lost =>
      simp only [step] at hstep
      split at hstep
      · cases hstep
        refine h.caught (marked_caught ?_) rfl
        intro hretry hactive
        rw [steady, hretry, Bool.false_or] at hsteady
        exact h.marked.below_attemptEnd hsteady hactive
      · cases hstep
  | stop =>
      simp only [step] at hstep
      split_ifs at hstep
      cases hstep
      refine ⟨?_, h.attempt, h.attempts⟩
      intro hactive
      cases hactive

/-- In a run whose failures keep the mark, every batch that is attempted between
the failure of a batch and the token getting past it holds one event. -/
theorem one_at_a_time {cfg : Config E} {stored : Option (TrackingToken K)} {s : State K E}
    (hs : Reach (step cfg) (fun s a => steady s a = true) (startWorker stored) s) :
    ∀ a ∈ s.attempts, a.owed = true → a.events.length = 1 := by
  have hinv : Inv s := hs.invariant (inv_startWorker stored) fun _ _ _ _ hinv hsteady hstep =>
    inv_step hinv hsteady hstep
  exact hinv.attempts

/-- The events at places 0, 1 and 2. -/
def eventAt (n : ℕ) : SequencedEvent ℕ ℕ := ⟨n, n, none⟩

def plainConfig : Config ℕ := ⟨whole, fun _ => true, fun _ => 0, none, by simp⟩

/-- The batch of two fails, and the first of them is then taken alone. -/
theorem one_at_a_time_after_failure :
    ∃ s, Reach (step plainConfig) (fun s a => steady s a = true)
        (startWorker (K := ℕ) none) s ∧
      (s.attempts.any fun a => a.owed) = true ∧ ∀ a ∈ s.attempts, a.owed = true →
        a.events.length = 1 := by
  obtain ⟨s, hs, howed⟩ := reach_guarded_any
    (P := fun s : State ℕ ℕ => (s.attempts.any fun a => a.owed) = true)
    (show ((exec (guarded (step plainConfig) fun s a => steady s a = true) (startWorker none)
      [.take none [eventAt 0, eventAt 1] none, .fail false, .poll,
        .take none [eventAt 0] none]).any fun s => decide _) = true by decide +kernel)
  exact ⟨s, hs, howed, one_at_a_time hs⟩

/-- The batch of three fails, then the first event alone; once it has succeeded the
other two are taken together. -/
theorem two_at_a_time :
    ∃ s, Reach (step plainConfig) always (startWorker (K := ℕ) none) s ∧
      ¬ ∀ a ∈ s.attempts, a.owed = true → a.events.length = 1 := by
  obtain ⟨s, hs, htwo⟩ := reach_exec_any
    (P := fun s : State ℕ ℕ => (s.attempts.any fun a => a.owed && a.events.length == 2) = true)
    (show ((exec (step plainConfig) (startWorker none)
      [.take none [eventAt 0, eventAt 1, eventAt 2] none, .fail false, .poll,
        .take none [eventAt 0] none, .fail false, .poll,
        .take none [eventAt 0] none, .succeed true none, .poll,
        .take none [eventAt 1, eventAt 2] none]).any fun s => decide _) = true by decide +kernel)
  refine ⟨s, hs, ?_⟩
  intro hone
  obtain ⟨a, ha, hboth⟩ := List.any_eq_true.mp htwo
  simp only [Bool.and_eq_true, beq_iff_eq] at hboth
  have hlength := hone a ha hboth.1
  omega

end Kronos.Processing.CautiousRetry
