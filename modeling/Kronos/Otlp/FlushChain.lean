import Kronos.Otlp.ExportAccounts

/-!
# The chain of flushes

A flush that is called waits for the one before it. If the posts end, all of
them settle, one way or the other; behind one that was rejected all are.
-/
namespace Kronos.Otlp.Exporter
open Kronos.Lib Kronos.Lib.Transition

variable {B : Type} {options : Options} {s t : State B}

/-- What only the chain itself changes. -/
structure SameChain (s t : State B) : Prop where
  exports : t.exports = s.exports
  running : t.running = s.running
  settled : t.settled = s.settled
  waiting : t.waiting = s.waiting

theorem SameChain.trans {u : State B} (h : SameChain s t) (h' : SameChain t u) : SameChain s u :=
  ⟨h'.exports.trans h.exports, h'.running.trans h.running, h'.settled.trans h.settled,
    h'.waiting.trans h.waiting⟩

theorem addCount_chain (options : Options) (s : State B) (m : Measurement) (throws : Bool) :
    SameChain s (s.addCount options m throws).2 := by
  unfold State.addCount
  split
  · exact ⟨rfl, rfl, rfl, rfl⟩
  split
  · exact ⟨rfl, rfl, rfl, rfl⟩
  · rcases admitSeries_cases options s m.name throws with ⟨_, heq⟩ | ⟨_, _, _, heq⟩
    · simp only [heq, if_true]
      exact ⟨rfl, rfl, rfl, rfl⟩
    · simp only [heq, Bool.false_eq_true, if_false]
      exact ⟨rfl, rfl, rfl, rfl⟩

theorem accountSignal_chain (options : Options) (s : State B) (signal : Signal) :
    SameChain s (s.accountSignal options signal) := by
  unfold State.accountSignal
  split
  · exact ⟨rfl, rfl, rfl, rfl⟩
  · obtain ⟨hexports, hrunning, hsettled, hwaiting⟩ := addCount_chain options s
      (droppedMeasurement signal (s.dropped.of signal)) false
    exact ⟨hexports, hrunning, hsettled, hwaiting⟩

theorem drain_chain (options : Options) (s : State B) : SameChain s (s.drain options).2 := by
  have haccount : SameChain s (s.accountDropped options) :=
    ((accountSignal_chain options s .traces).trans (accountSignal_chain options _ .logs)).trans
      (accountSignal_chain options _ .metrics)
  have hspans : ∀ u : State B, SameChain u u.drainSpans.2 := by
    intro u
    unfold State.drainSpans
    split <;> exact ⟨rfl, rfl, rfl, rfl⟩
  have hlogs : ∀ u : State B, SameChain u u.drainLogs.2 := by
    intro u
    unfold State.drainLogs
    split <;> exact ⟨rfl, rfl, rfl, rfl⟩
  have hmetrics : ∀ u : State B, SameChain u u.drainMetrics.2 := by
    intro u
    unfold State.drainMetrics
    split <;> exact ⟨rfl, rfl, rfl, rfl⟩
  exact ((haccount.trans (hspans _)).trans (hlogs _)).trans (hmetrics _)

/-- Every other action leaves the chain as it is, but for a flush that is called. -/
theorem chain_step {action : Action B} (hstep : step options s action = some t) :
    (t.exports = s.exports ∧ t.running = s.running ∧ t.settled = s.settled) ∨ action = .startFlush ∨
      ∃ outcome throws, action = .postEnds outcome throws := by
  cases action with
  | startSpan sampled =>
      cases hstep
      left
      unfold State.startSpan
      split <;> exact ⟨rfl, rfl, rfl⟩
  | endSpan span body =>
      cases hstep
      left
      unfold State.endSpan
      split
      · exact ⟨rfl, rfl, rfl⟩
      · simp only
        split <;> exact ⟨rfl, rfl, rfl⟩
  | emitLog body encodes =>
      cases hstep
      left
      unfold State.emitLog
      split_ifs <;> exact ⟨rfl, rfl, rfl⟩
  | addCount m throws =>
      cases hstep
      obtain ⟨hexports, hrunning, hsettled, _⟩ := addCount_chain options s m throws
      exact .inl ⟨hexports, hrunning, hsettled⟩
  | recordHistogram m throws =>
      cases hstep
      rcases recordHistogram_cases options s m throws with ⟨_, _, heq⟩ | ⟨_, _, _, heq⟩
      · rw [heq]
        exact .inl ⟨rfl, rfl, rfl⟩
      · rw [heq]
        exact .inl ⟨rfl, rfl, rfl⟩
  | flush =>
      cases hstep
      exact .inl ⟨rfl, rfl, rfl⟩
  | close =>
      cases hstep
      exact .inl ⟨rfl, rfl, rfl⟩
  | startFlush => exact .inr (.inl rfl)
  | postEnds outcome throws => exact .inr (.inr ⟨outcome, throws, rfl⟩)

/-- The turn of the first flush that waits. -/
theorem startFlush_eq {call : Call} {rest : List Call} (hidle : s.running = none)
    (hwaiting : s.waiting = call::rest) :
    s.startFlush options =
      if s.pendingRejected then some (State.settle { s with waiting := rest } call false)
      else some ((State.drain options { s with waiting := rest }).2.postNext call
        (State.drain options { s with waiting := rest }).1) := by
  unfold State.startFlush
  split
  case h_1 call' rest' _ hfirst =>
    rw [hwaiting] at hfirst
    cases hfirst
    rfl
  case h_2 hnone => exact (hnone call rest hidle hwaiting).elim

/-- Behind a rejected promise nothing is posted any more, and every flush is rejected. -/
theorem rejected_for_good (h : Reach (step options) always s t)
    (hrejected : s.pendingRejected = true) (hidle : s.running = none) :
    t.exports = s.exports ∧ t.running = none ∧
      ∃ later, t.settled = s.settled ++ later ∧ ∀ flush ∈ later, flush.resolved = false := by
  refine h.invariant (I := fun t => t.exports = s.exports ∧ t.running = none ∧
    ∃ later, t.settled = s.settled ++ later ∧ ∀ flush ∈ later, flush.resolved = false)
    ⟨rfl, hidle, [], (List.append_nil _).symm, nofun⟩ ?_
  rintro u action v - ⟨hexports, hrunning, later, hsettled, hlater⟩ - hstep
  rcases chain_step hstep with ⟨he, hr, hs⟩ | rfl | ⟨outcome, throws, rfl⟩
  · exact ⟨he.trans hexports, hr.trans hrunning, later, hs.trans hsettled, hlater⟩
  · cases hwaiting : u.waiting with
    | nil => simp [step, State.startFlush, hwaiting] at hstep
    | cons call rest =>
        have hpending : u.pendingRejected = true := by
          rw [State.pendingRejected, hsettled, List.any_append, Bool.or_eq_true]
          exact .inl hrejected
        rw [step, startFlush_eq hrunning hwaiting, if_pos hpending] at hstep
        cases hstep
        refine ⟨hexports, rfl, later ++ [⟨call, false⟩], ?_, ?_⟩
        · show u.settled ++ [_] = _
          rw [hsettled, List.append_assoc]
        · intro flush hflush
          rcases List.mem_append.mp hflush with hold | hnew
          · exact hlater flush hold
          · rw [List.mem_singleton.mp hnew]
  · simp only [step, hrunning] at hstep
    cases hstep

theorem postNext_waiting (s : State B) (call : Call) (batches : List (Batch B)) :
    (s.postNext call batches).waiting = s.waiting := by
  cases batches <;> rfl

/-- A flush that runs settles once its posts have ended. -/
theorem running_settles (options : Options) {call : Call} {batches : List (Batch B)}
    (hrunning : s.running = some (call, batches)) :
    ∃ t, Reach (step options) always s t ∧ t.running = none ∧ t.waiting = s.waiting := by
  induction batches generalizing s with
  | nil =>
      refine ⟨s.settle call true, .next (a := .postEnds .ok (false, false)) .start trivial ?_, rfl,
        rfl⟩
      simp [step, hrunning, postRejects, State.postNext]
  | cons batch rest ih =>
      have hnext :
          step options s (.postEnds .ok (false, false)) = some (s.postNext call (batch::rest)) := by
        simp [step, hrunning, postRejects]
      obtain ⟨t, hreach, hidle, hwaiting⟩ := ih (s := s.postNext call (batch::rest)) rfl
      exact ⟨t, (Reach.next .start trivial hnext).trans hreach, hidle, hwaiting⟩

/-- If every post ends, every flush settles. -/
theorem flushes_settle (options : Options) (s : State B) : ∃ t, Reach (step options) always s t ∧
    t.running = none ∧ t.waiting = [] := by
  -- by the number of flushes that wait, once the running one has settled
  have hidle : ∀ n, ∀ s : State B, s.running = none → s.waiting.length = n →
      ∃ t, Reach (step options) always s t ∧ t.running = none ∧ t.waiting = [] := by
    intro n
    induction n with
    | zero => exact fun s hs hlength => ⟨s, .start, hs, List.length_eq_zero_iff.mp hlength⟩
    | succ n ih =>
        intro s hs hlength
        obtain ⟨call, rest, hwaiting⟩ := List.exists_cons_of_length_eq_add_one hlength
        have hrest : rest.length = n := by
          rw [hwaiting] at hlength
          exact Nat.succ.inj hlength
        have hstart : ∃ u, step options s .startFlush = some u ∧ u.waiting = rest := by
          rw [step, startFlush_eq hs hwaiting]
          split
          · exact ⟨_, rfl, rfl⟩
          · refine ⟨_, rfl, ?_⟩
            rw [postNext_waiting]
            exact (drain_chain options { s with waiting := rest }).waiting
        obtain ⟨u, hu, huwaiting⟩ := hstart
        have hreach : Reach (step options) always s u := .next .start trivial hu
        cases hrunning : u.running with
        | none =>
            obtain ⟨t, ht, hdone⟩ := ih u hrunning (huwaiting ▸ hrest)
            exact ⟨t, hreach.trans ht, hdone⟩
        | some run =>
            obtain ⟨v, hv, hvidle, hvwaiting⟩ := running_settles options hrunning
            obtain ⟨t, ht, hdone⟩ := ih v hvidle (by rw [hvwaiting, huwaiting, hrest])
            exact ⟨t, (hreach.trans hv).trans ht, hdone⟩
  cases hrunning : s.running with
  | none => exact hidle _ s hrunning rfl
  | some run =>
      obtain ⟨t, hreach, ht, _⟩ := running_settles options hrunning
      obtain ⟨u, hu, hdone⟩ := hidle _ t ht rfl
      exact ⟨u, hreach.trans hu, hdone⟩

end Kronos.Otlp.Exporter
