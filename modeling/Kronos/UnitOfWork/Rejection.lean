import Kronos.UnitOfWork.PhaseOrder
import Kronos.Lib.Transition

/-!
# What a rejection says

Whether and where an execution throws can be read off the program: an effect
that is performed in time for a phase leads to a throw in that phase exactly when
its own closure, or one that closure leads to, throws. `throwsBy q` says so for
the phases up to `q`. It decides when the phase machine is lawful, and when a
rejected unit of work is one that did not commit.
-/
namespace Kronos.UnitOfWork
open Kronos.Lib.Transition

mutual
/-- The effect, performed in phase `c`, leads to a throw in a phase up to `q`.
Only buckets of phases from `lo` on are still going to be drained. -/
def Effect.throwsBy (q : Phase) : Phase → ℕ → Effect → Bool
  | _, lo, .register (.on p) es throws =>
      decide (lo ≤ p.index) &&
        ((throws.isSome && decide (p.index ≤ q.index)) || effectsThrowBy q p p.index es)
  | _, _, .register .onError _ _ => false
  | _, _, .register .whenComplete _ _ => false
  | c, _, .emitUpdate throws =>
      if c = .invocation then throws.isSome && decide (Phase.afterCommit.index ≤ q.index)
      else decide (c.index ≤ q.index)

def effectsThrowBy (q : Phase) : Phase → ℕ → List Effect → Bool
  | _, _, [] => false
  | c, lo, e::es => e.throwsBy q c lo || effectsThrowBy q c lo es
end

/-- The closure, called in phase `p`, leads to a throw in a phase up to `q`. -/
def Body.throwsBy (q p : Phase) (b : Body) : Bool :=
  (b.throws.isSome && decide (p.index ≤ q.index)) || effectsThrowBy q p p.index b.effects

/-- The handler is called in INVOCATION, whose bucket is not drained again. -/
def Program.handlerThrowsBy (q : Phase) (P : Program) : Bool :=
  (P.handler.throws.isSome && decide (Phase.invocation.index ≤ q.index)) ||
    effectsThrowBy q .invocation Phase.prepareCommit.index P.handler.effects

/-- Some turn in a phase up to `q` is going to throw. -/
def Program.throwsBy (q : Phase) (P : Program) : Bool :=
  P.before.any (fun r =>
    match r.1 with
    | .on p => r.2.throwsBy q p
    | _ => false) || P.handlerThrowsBy q

/-- All COMMIT actions completed: the COMMIT phase was run to its end. -/
def Outcome.committed (o : Outcome) : Bool := decide (Entry.finished .commit ∈ o.state.log)

def Task.throwsBy (q p : Phase) (tasks : Option (List (Option ℕ))) : Task → Bool
  | .body b => b.throwsBy q p
  | .updates => (tasks.getD []).any Option.isSome && decide (p.index ≤ q.index)

/-- Something that waits for a phase from `lo` on leads to a throw up to `q`. -/
def Hot (q : Phase) (lo : ℕ) (s : State) : Prop :=
  ∃ p, lo ≤ p.index ∧ ∃ a ∈ s.phaseActions p, a.task.throwsBy q p s.updateTasks = true

/-- The deferred update tasks have their one action in the AFTER_COMMIT bucket. -/
structure Deferred (s : State) : Prop where
  only : ∀ p, ∀ a ∈ s.phaseActions p, a.task = .updates → p = .afterCommit
  pending : s.updateTasks.isSome = true → s.phase ≠ some .afterCommit →
    ∃ a ∈ s.phaseActions .afterCommit, a.task = .updates

/-- What the calls of one phase keep. -/
structure Same (s t : State) : Prop where
  phase : t.phase = s.phase
  closed : t.closed = s.closed
  finished : ∀ p, Entry.finished p ∈ t.log ↔ Entry.finished p ∈ s.log
  updateTasks : s.phase ≠ some .invocation → t.updateTasks = s.updateTasks

theorem Same.refl (s : State) : Same s s := ⟨rfl,rfl,fun _ => Iff.rfl,fun _ => rfl⟩

theorem Same.trans {s t u : State} (h : Same s t) (k : Same t u) : Same s u :=
  ⟨k.phase.trans h.phase,k.closed.trans h.closed,fun p => (k.finished p).trans (h.finished p),
    fun hp => (k.updateTasks (h.phase ▸ hp)).trans (h.updateTasks hp)⟩

theorem same_note (s : State) {e : Entry} (he : ∀ p, e ≠ .finished p) : Same s (s.note e) := by
  refine ⟨rfl,rfl,fun p => ?_,fun _ => rfl⟩
  have hp : Entry.finished p ≠ e := fun h => he p h.symm
  simp [State.note,hp]

theorem same_register (s : State) (slot : Slot) (task : Task) : Same s (s.register slot task) := by
  refine ⟨by simp,by simp,fun p => ?_,fun _ => by simp⟩
  simp

section Effects
variable {q c : Phase} {lo : ℕ} {s : State}

theorem mem_register {p : Phase} {slot : Slot} {task : Task} {a : Pending} :
    a ∈ (s.register slot task).phaseActions p ↔
      a ∈ s.phaseActions p ∨ (slot = .on p ∧ a = ⟨s.next,task⟩) := by
  have hat : (s.register slot task).phaseActions p = _ := register_at s slot task (.on p)
  rw [hat]
  by_cases hs : slot = .on p
  · simp [State.at,hs]
  · simp [State.at,hs,Ne.symm hs]

theorem hot_register {slot : Slot} {task : Task} :
    Hot q lo (s.register slot task) ↔ Hot q lo s ∨
      ∃ p, slot = .on p ∧ lo ≤ p.index ∧ task.throwsBy q p s.updateTasks = true := by
  unfold Hot
  simp only [mem_register,register_updateTasks]
  constructor
  · rintro ⟨p,hp,a,ha | ⟨hs,rfl⟩,hthrow⟩
    · exact .inl ⟨p,hp,a,ha,hthrow⟩
    · exact .inr ⟨p,hs,hp,hthrow⟩
  · rintro (⟨p,hp,a,ha,hthrow⟩ | ⟨p,hs,hp,hthrow⟩)
    · exact ⟨p,hp,a,.inl ha,hthrow⟩
    · exact ⟨p,hp,_,.inr ⟨hs,rfl⟩,hthrow⟩

theorem deferred_register (h : Deferred s) (slot : Slot) (task : Task)
    (ht : task = .updates → slot = .on .afterCommit) : Deferred (s.register slot task) := by
  constructor
  · intro p a ha hu
    rcases mem_register.mp ha with ha | ⟨hs,rfl⟩
    · exact h.only p a ha hu
    · have := ht hu
      rw [hs] at this
      exact Slot.on.inj this
  · intro hsome hphase
    rw [register_updateTasks] at hsome
    rw [register_phase] at hphase
    obtain ⟨a,ha,hu⟩ := h.pending hsome hphase
    exact ⟨a,mem_register.mpr (.inl ha),hu⟩

/-- Replacing the update tasks matters only to the one action that runs them. -/
theorem hot_setUpdateTasks (s : State) (tasks : Option (List (Option ℕ))) (extra : Bool)
    (hd : Deferred s) (hpending : ∃ a ∈ s.phaseActions .afterCommit, a.task = .updates)
    (hlo : lo ≤ 4) (hany : (tasks.getD []).any Option.isSome =
      ((s.updateTasks.getD []).any Option.isSome || extra)) :
    Hot q lo {s with updateTasks := tasks} ↔
      Hot q lo s ∨ (extra && decide (Phase.afterCommit.index ≤ q.index)) = true := by
  unfold Hot
  simp only
  constructor
  · rintro ⟨p,hp,a,ha,hthrow⟩
    rcases hat : a.task with b | _
    · rw [hat] at hthrow
      exact .inl ⟨p,hp,a,ha,by rw [hat]; exact hthrow⟩
    · have hafter := hd.only p a ha hat
      subst hafter
      rw [hat] at hthrow
      simp only [Task.throwsBy,hany,Bool.and_eq_true,Bool.or_eq_true] at hthrow
      rcases hthrow with ⟨hthrow | hthrow,hq⟩
      · refine .inl ⟨.afterCommit,hp,a,ha,?_⟩
        rw [hat]
        simp only [Task.throwsBy,Bool.and_eq_true]
        exact ⟨hthrow,hq⟩
      · exact .inr (by rw [hthrow,hq]; rfl)
  · rintro (⟨p,hp,a,ha,hthrow⟩ | hextra)
    · refine ⟨p,hp,a,ha,?_⟩
      rcases hat : a.task with b | _
      · rw [hat] at hthrow
        exact hthrow
      · rw [hat] at hthrow
        simp only [Task.throwsBy,hany,Bool.and_eq_true,Bool.or_eq_true] at hthrow ⊢
        exact ⟨.inl hthrow.1,hthrow.2⟩
    · obtain ⟨a,ha,hu⟩ := hpending
      refine ⟨.afterCommit,hlo,a,ha,?_⟩
      rw [hu]
      simp only [Bool.and_eq_true] at hextra
      simp only [Task.throwsBy,hany,Bool.and_eq_true,Bool.or_eq_true]
      exact ⟨.inr hextra.1,hextra.2⟩

theorem runAfterCommitOrImmediately_hot (task : Option ℕ) (hc : s.closed = false)
    (hp : s.phase = some .invocation) (hd : Deferred s) (hlo : lo ≤ 4) :
    ∃ t, runAfterCommitOrImmediately task s = .done t ∧ Same s t ∧ Deferred t ∧
      ∀ q, Hot q lo t ↔
        Hot q lo s ∨ (task.isSome && decide (Phase.afterCommit.index ≤ q.index)) = true := by
  have hclosed : ¬s.closed = true := by simp [hc]
  unfold runAfterCommitOrImmediately
  rw [if_neg hclosed]
  have hinv : ¬s.phase ≠ some .invocation := fun h => h hp
  cases ht : s.updateTasks with
  | none =>
      have hreg := deferred_register hd (.on .afterCommit) .updates fun _ => rfl
      have hmem : ∃ a ∈ (s.register (.on .afterCommit) .updates).phaseActions .afterCommit,
          a.task = .updates := ⟨_,mem_register.mpr (.inr ⟨rfl,rfl⟩),rfl⟩
      refine ⟨_,rfl,?_,⟨hreg.only,fun _ _ => hmem⟩,fun q => ?_⟩
      · have hs := same_register s (.on .afterCommit) .updates
        exact ⟨hs.phase,hs.closed,hs.finished,fun h => absurd h hinv⟩
      · have hset := hot_setUpdateTasks (q := q) (s.register (.on .afterCommit) .updates)
          (some [task]) task.isSome hreg hmem hlo (by simp [ht])
        have hkeep : Hot q lo (s.register (.on .afterCommit) .updates) ↔ Hot q lo s := by
          rw [hot_register]
          simp [Task.throwsBy,ht]
        exact hset.trans (or_congr_left hkeep)
  | some tasks =>
      have hpend := hd.pending (by rw [ht]; rfl) (by rw [hp]; decide)
      refine ⟨_,rfl,⟨rfl,rfl,fun _ => Iff.rfl,fun h => absurd h hinv⟩,
        ⟨hd.only,fun _ _ => hpend⟩,fun q => ?_⟩
      exact hot_setUpdateTasks s (some (tasks ++ [task])) task.isSome hd hpend hlo (by simp [ht])

/-- A list of effects adds to what is hot exactly what it leads to. -/
theorem perform_hot (es : List Effect) (hc : s.closed = false) (hp : s.phase = some c)
    (hd : Deferred s) (hlo : lo ≤ 4) :
    Same s (perform es s).state ∧
      (perform es s).Ends
        (fun t => Deferred t ∧
          ∀ q, Hot q lo t ↔ Hot q lo s ∨ effectsThrowBy q c lo es = true)
        (fun _ => ∀ q, c.index ≤ q.index → effectsThrowBy q c lo es = true) := by
  induction es generalizing s with
  | nil => exact ⟨Same.refl s,hd,fun q => by simp [effectsThrowBy]⟩
  | cons e es ih =>
      cases e with
      | register slot effects throws =>
          have hreg := same_register s slot (.body ⟨effects,throws⟩)
          obtain ⟨hsame,hends⟩ := ih (hreg.closed.trans hc) (hreg.phase.trans hp)
            (deferred_register hd _ _ fun h => by cases h)
          have hhot (q : Phase) : Hot q lo (s.register slot (.body ⟨effects,throws⟩)) ↔
              Hot q lo s ∨ (Effect.register slot effects throws).throwsBy q c lo = true := by
            rw [hot_register]
            cases slot with
            | on p => simp [Effect.throwsBy,Task.throwsBy,Body.throwsBy]
            | onError => simp [Effect.throwsBy]
            | whenComplete => simp [Effect.throwsBy]
          refine ⟨hreg.trans hsame,?_⟩
          simp only [perform]
          rcases hr : perform es (s.register slot (.body ⟨effects,throws⟩)) with t | ⟨e,t⟩
          · rw [hr] at hends
            refine ⟨hends.1,fun q => ?_⟩
            rw [hends.2 q,hhot q,effectsThrowBy,Bool.or_eq_true,or_assoc]
          · rw [hr] at hends
            intro q hq
            rw [effectsThrowBy,hends q hq,Bool.or_true]
      | emitUpdate task =>
          by_cases hinv : c = .invocation
          · subst hinv
            obtain ⟨t,ht,hsame,hdef,hhot⟩ := runAfterCommitOrImmediately_hot task hc hp hd hlo
            obtain ⟨hsame',hends⟩ := ih (hsame.closed.trans hc) (hsame.phase.trans hp) hdef
            have hstep : perform (.emitUpdate task::es) s = perform es t := by
              simp [perform,requireInvocation,hc,hp,Result.andThen,ht]
            rw [hstep]
            refine ⟨hsame.trans hsame',?_⟩
            rcases hr : perform es t with u | ⟨e,u⟩
            · rw [hr] at hends
              refine ⟨hends.1,fun q => ?_⟩
              rw [hends.2 q,hhot q,effectsThrowBy,Bool.or_eq_true,or_assoc]
              simp [Effect.throwsBy]
            · rw [hr] at hends
              intro q hq
              rw [effectsThrowBy,hends q hq,Bool.or_true]
          · have hne : s.phase ≠ some .invocation := by
              rw [hp]
              exact fun h => hinv (Option.some.inj h)
            have hstep : perform (.emitUpdate task::es) s =
                .threw (.wrongUoWPhase s.phase) s := by
              simp [perform,requireInvocation,hc,hne,Result.andThen]
            rw [hstep]
            refine ⟨Same.refl s,fun q hq => ?_⟩
            simp [effectsThrowBy,Effect.throwsBy,hinv,hq]

theorem body_hot (b : Body) (hc : s.closed = false) (hp : s.phase = some c) (hd : Deferred s)
    (hlo : lo ≤ 4) :
    Same s (b.run s).state ∧
      (b.run s).Ends
        (fun t => Deferred t ∧ b.throws = none ∧
          ∀ q, Hot q lo t ↔ Hot q lo s ∨ effectsThrowBy q c lo b.effects = true)
        (fun _ => ∀ q, c.index ≤ q.index →
          b.throws.isSome = true ∨ effectsThrowBy q c lo b.effects = true) := by
  obtain ⟨hsame,hends⟩ := perform_hot b.effects hc hp hd hlo
  unfold Body.run
  refine ⟨by rw [andThen_throwing_state]; exact hsame,?_⟩
  rcases hr : perform b.effects s with t | ⟨e,t⟩
  · rw [hr] at hends
    cases hb : b.throws with
    | none => exact ⟨hends.1,rfl,hends.2⟩
    | some e => exact fun q _ => .inl rfl
  · rw [hr] at hends
    exact fun q hq => .inr (hends q hq)

theorem runUpdates_throws (tasks : List (Option ℕ)) :
    (runUpdates tasks s).Ends (fun t => t = s ∧ tasks.any Option.isSome = false)
      (fun _ => tasks.any Option.isSome = true) := by
  induction tasks with
  | nil => exact ⟨rfl,rfl⟩
  | cons task tasks ih =>
      cases task with
      | none =>
          change (runUpdates tasks s).Ends _ _
          simpa using ih
      | some e => exact rfl

/-- A closure called in its own phase. -/
theorem run_hot (task : Task) (hc : s.closed = false) (hp : s.phase = some c) (hd : Deferred s) :
    Same s (task.run s).state ∧
      (task.run s).Ends
        (fun t => Deferred t ∧ ∀ q, Hot q c.index t ↔
          Hot q c.index s ∨ task.throwsBy q c s.updateTasks = true)
        (fun _ => ∀ q, c.index ≤ q.index → task.throwsBy q c s.updateTasks = true) := by
  cases task with
  | body b =>
      obtain ⟨hsame,hends⟩ := body_hot b hc hp hd (show c.index ≤ 4 by cases c <;> decide)
      refine ⟨hsame,?_⟩
      change (b.run s).Ends _ _
      rcases hr : b.run s with t | ⟨e,t⟩
      · rw [hr] at hends
        refine ⟨hends.1,fun q => ?_⟩
        rw [hends.2.2 q]
        simp [Task.throwsBy,Body.throwsBy,hends.2.1]
      · rw [hr] at hends
        intro q hq
        rcases hends q hq with h | h
        · simp [Task.throwsBy,Body.throwsBy,h,hq]
        · simp [Task.throwsBy,Body.throwsBy,h]
  | updates =>
      have hrun := runUpdates_throws (s := s) (s.updateTasks.getD [])
      refine ⟨?_,?_⟩
      · change Same s (runUpdates _ s).state
        rw [runUpdates_state]
        exact Same.refl s
      · change (runUpdates _ s).Ends _ _
        rcases hr : runUpdates (s.updateTasks.getD []) s with t | ⟨e,t⟩
        · rw [hr] at hrun
          obtain ⟨rfl,hnone⟩ := hrun
          exact ⟨hd,fun q => by simp [Task.throwsBy,hnone]⟩
        · rw [hr] at hrun
          intro q hq
          simp only [Task.throwsBy,Bool.and_eq_true,decide_eq_true_eq]
          exact ⟨hrun,hq⟩

end Effects

mutual
/-- What is performed in a phase throws in that phase or a later one. -/
theorem Effect.throwsBy_le {q c : Phase} {lo : ℕ} (hlo : c.index ≤ lo) :
    ∀ e : Effect, e.throwsBy q c lo = true → c.index ≤ q.index
  | .register (.on p) es throws, h => by
      simp only [Effect.throwsBy,Bool.and_eq_true,Bool.or_eq_true,decide_eq_true_eq] at h
      obtain ⟨hp,⟨-,hq⟩ | hes⟩ := h
      · omega
      · have := effectsThrowBy_le (Nat.le_refl p.index) es hes
        omega
  | .register .onError _ _, h => by simp [Effect.throwsBy] at h
  | .register .whenComplete _ _, h => by simp [Effect.throwsBy] at h
  | .emitUpdate throws, h => by
      unfold Effect.throwsBy at h
      split_ifs at h with hc
      · subst hc
        simp only [Bool.and_eq_true,decide_eq_true_eq] at h
        exact Nat.le_trans (by decide) h.2
      · exact of_decide_eq_true h

theorem effectsThrowBy_le {q c : Phase} {lo : ℕ} (hlo : c.index ≤ lo) :
    ∀ es : List Effect, effectsThrowBy q c lo es = true → c.index ≤ q.index
  | [], h => by simp [effectsThrowBy] at h
  | e::es, h => by
      simp only [effectsThrowBy,Bool.or_eq_true] at h
      rcases h with h | h
      · exact Effect.throwsBy_le hlo e h
      · exact effectsThrowBy_le hlo es h
end

theorem Task.throwsBy_le {q p : Phase} {tasks : Option (List (Option ℕ))} {task : Task}
    (h : task.throwsBy q p tasks = true) : p.index ≤ q.index := by
  cases task with
  | body b =>
      simp only [Task.throwsBy,Body.throwsBy,Bool.or_eq_true,Bool.and_eq_true,
        decide_eq_true_eq] at h
      rcases h with h | h
      · exact h.2
      · exact effectsThrowBy_le (Nat.le_refl _) _ h
  | updates =>
      simp only [Task.throwsBy,Bool.and_eq_true,decide_eq_true_eq] at h
      exact h.2

theorem Hot.le {q : Phase} {lo : ℕ} {s : State} (h : Hot q lo s) : lo ≤ q.index := by
  obtain ⟨p,hp,a,-,ha⟩ := h
  exact Nat.le_trans hp (Task.throwsBy_le ha)

/-- Inside phase `p`: what `H` foretells about the execution is still to come,
from the batch, from the buckets, or from the handler (`extra`). -/
structure Stage (H extra : Phase → Prop) (p : Phase) (rest : List Pending) (s : State) : Prop where
  live : s.closed = false
  phase : s.phase = some p
  deferred : Deferred s
  batch : ∀ a ∈ rest, a.task = .updates → p = .afterCommit
  foretold : ∀ q, H q ↔ (∃ a ∈ rest, a.task.throwsBy q p s.updateTasks = true) ∨
    Hot q p.index s ∨ extra q
  finished : Entry.finished .commit ∈ s.log ↔ Phase.commit.index < p.index

/-- The execution threw in phase `p`, as foretold. -/
def BrokeAt (H : Phase → Prop) (p : Phase) (s : State) : Prop :=
  (∀ q, H q ↔ p.index ≤ q.index) ∧
    (Entry.finished .commit ∈ s.log ↔ Phase.commit.index < p.index)

def BrokeOff (H : Phase → Prop) (s : State) : Prop := ∃ p, BrokeAt H p s

section Stages
variable {H extra : Phase → Prop} {p : Phase} {rest : List Pending} {s : State}

theorem Stage.brokeOff (h : Stage H extra p rest s) (hextra : ∀ q, extra q → p.index ≤ q.index)
    (hthrow : ∀ q, p.index ≤ q.index → H q) {t : State} (ht : Same s t) :
    BrokeOff H (t.note .threw) := by
  refine ⟨p,fun q => ⟨fun hq => ?_,hthrow q⟩,?_⟩
  · rcases (h.foretold q).mp hq with ⟨a,-,ha⟩ | hhot | hex
    · exact Task.throwsBy_le ha
    · exact hhot.le
    · exact hextra q hex
  · rw [(same_note t (by simp)).finished,ht.finished]
    exact h.finished

theorem call_stage {a : Pending} (h : Stage H extra p (a::rest) s)
    (hextra : ∀ q, extra q → p.index ≤ q.index) :
    (s.call a).Ends (Stage H extra p rest) (BrokeOff H) := by
  have hnote := same_note s (e := .ran a.id s.phase) (by simp)
  have hd : Deferred (s.note (.ran a.id s.phase)) := ⟨h.deferred.only,h.deferred.pending⟩
  obtain ⟨hsame,hends⟩ := run_hot a.task (s := s.note (.ran a.id s.phase)) h.live h.phase hd
  have hboth := hnote.trans hsame
  unfold State.call
  rcases hr : a.task.run (s.note (.ran a.id s.phase)) with t | ⟨e,t⟩
  · rw [hr] at hends hboth
    have hkept (b : Pending) (hb : b ∈ rest) (q : Phase) :
        b.task.throwsBy q p t.updateTasks = b.task.throwsBy q p s.updateTasks := by
      rcases hbt : b.task with body | _
      · rfl
      · have hafter := h.batch b (List.mem_cons_of_mem a hb) hbt
        have htasks : t.updateTasks = s.updateTasks :=
          hboth.updateTasks (by rw [h.phase,hafter]; decide)
        rw [htasks]
    refine ⟨hboth.closed.trans h.live,hboth.phase.trans h.phase,hends.1,
      fun b hb => h.batch b (List.mem_cons_of_mem a hb),fun q => ?_,
      (hboth.finished .commit).trans h.finished⟩
    have hhot : Hot q p.index t ↔ Hot q p.index s ∨ a.task.throwsBy q p s.updateTasks = true :=
      hends.2 q
    rw [h.foretold q,hhot]
    constructor
    · rintro (⟨b,hb,hthrow⟩ | hs | hex)
      · rcases List.mem_cons.mp hb with rfl | hb
        · exact .inr (.inl (.inr hthrow))
        · exact .inl ⟨b,hb,by rw [hkept b hb q]; exact hthrow⟩
      · exact .inr (.inl (.inl hs))
      · exact .inr (.inr hex)
    · rintro (⟨b,hb,hthrow⟩ | (hs | hthrow) | hex)
      · exact .inl ⟨b,List.mem_cons_of_mem a hb,by rw [← hkept b hb q]; exact hthrow⟩
      · exact .inr (.inl hs)
      · exact .inl ⟨a,List.mem_cons_self,hthrow⟩
      · exact .inr (.inr hex)
  · rw [hr] at hends hboth
    refine h.brokeOff hextra (fun q hq => ?_) hboth
    exact (h.foretold q).mpr (.inl ⟨a,List.mem_cons_self,hends q hq⟩)

theorem runBucket_stage {as : List Pending} (h : Stage H extra p as s)
    (hextra : ∀ q, extra q → p.index ≤ q.index) :
    (runBucket as s).Ends (Stage H extra p []) (BrokeOff H) := by
  induction as generalizing s with
  | nil => exact h
  | cons a as ih => exact (call_stage h hextra).andThen fun t ht => ih ht

theorem Stage.takeBucket (h : Stage H extra p [] s) :
    Stage H extra p (s.phaseActions p)
      {s with phaseActions := Function.update s.phaseActions p []} := by
  have hmem {r : Phase} {a : Pending}
      (ha : a ∈ Function.update s.phaseActions p [] r) : r ≠ p ∧ a ∈ s.phaseActions r := by
    by_cases hr : r = p
    · subst hr
      simp at ha
    · exact ⟨hr,by simpa [hr] using ha⟩
  have hstay {r : Phase} {a : Pending} (hr : r ≠ p) (ha : a ∈ s.phaseActions r) :
      a ∈ Function.update s.phaseActions p [] r := by
    rw [Function.update_of_ne hr]
    exact ha
  refine ⟨h.live,h.phase,⟨?_,?_⟩,fun a ha hu => h.deferred.only p a ha hu,fun q => ?_,h.finished⟩
  · intro r a ha hu
    exact h.deferred.only r a (hmem ha).2 hu
  · intro hsome hphase
    have hne : Phase.afterCommit ≠ p := fun hp => hphase (hp ▸ h.phase)
    obtain ⟨a,ha,hu⟩ := h.deferred.pending hsome hphase
    exact ⟨a,hstay hne ha,hu⟩
  · rw [h.foretold q]
    constructor
    · rintro (⟨a,ha,-⟩ | ⟨r,hr,a,ha,hthrow⟩ | hex)
      · simp at ha
      · by_cases hrp : r = p
        · subst hrp
          exact .inl ⟨a,ha,hthrow⟩
        · exact .inr (.inl ⟨r,hr,a,hstay hrp ha,hthrow⟩)
      · exact .inr (.inr hex)
    · rintro (⟨a,ha,hthrow⟩ | ⟨r,hr,a,ha,hthrow⟩ | hex)
      · exact .inr (.inl ⟨p,Nat.le_refl _,a,ha,hthrow⟩)
      · exact .inr (.inl ⟨r,hr,a,(hmem ha).2,hthrow⟩)
      · exact .inr (.inr hex)

theorem drain_stage (n : ℕ) (h : Stage H extra p [] s)
    (hextra : ∀ q, extra q → p.index ≤ q.index) :
    (drain p n s).Ends (Stage H extra p []) (BrokeOff H) := by
  induction n generalizing s with
  | zero => exact h
  | succ n ih =>
      unfold drain
      split_ifs with hb
      · exact h
      · exact (runBucket_stage h.takeBucket hextra).andThen fun t ht => ih ht

/-- Between the phases: the ones from index `lo` on are still to come. -/
structure Before (H extra : Phase → Prop) (lo : ℕ) (s : State) : Prop where
  live : s.closed = false
  early : s.phase ≠ some .afterCommit
  deferred : Deferred s
  foretold : ∀ q, H q ↔ Hot q lo s ∨ extra q
  finished : Entry.finished .commit ∈ s.log ↔ Phase.commit.index < lo

theorem drainPhase_stage (h : Before H extra p.index s)
    (hextra : ∀ q, extra q → p.index ≤ q.index) :
    (drainPhase p s).Ends (fun t => Stage H extra p [] t ∧ t.phaseActions p = [])
      (BrokeOff H) := by
  have henter : Stage H extra p [] {s with phase := some p} := by
    refine ⟨h.live,rfl,⟨h.deferred.only,fun hsome _ => h.deferred.pending hsome h.early⟩,
      by simp,fun q => ?_,h.finished⟩
    rw [h.foretold q]
    simp [Hot]
  exact (drain_stage s.weight henter hextra).and
    (drain_empty {s with phase := some p} (Nat.le_refl _))

theorem Stage.emptied (h : Stage H extra p [] s) (he : s.phaseActions p = []) (q : Phase) :
    H q ↔ Hot q (p.index+1) s ∨ extra q := by
  rw [h.foretold q]
  constructor
  · rintro (⟨a,ha,-⟩ | ⟨r,hr,a,ha,hthrow⟩ | hex)
    · simp at ha
    · have hne : r ≠ p := by
        rintro rfl
        simp [he] at ha
      have hidx : p.index ≠ r.index := fun hi => hne (Phase.index_injective hi.symm)
      exact .inl ⟨r,by omega,a,ha,hthrow⟩
    · exact .inr hex
  · rintro (⟨r,hr,a,ha,hthrow⟩ | hex)
    · exact .inr (.inl ⟨r,by omega,a,ha,hthrow⟩)
    · exact .inr (.inr hex)

theorem runPhase_before (h : Before H extra p.index s) (hp : p ≠ .afterCommit)
    (hextra : ∀ q, extra q → p.index ≤ q.index) :
    (runPhase p s).Ends (Before H extra (p.index+1)) (BrokeOff H) := by
  refine (drainPhase_stage h hextra).andThen fun t ht => ?_
  obtain ⟨hstage,hempty⟩ := ht
  refine ⟨hstage.live,?_,⟨hstage.deferred.only,hstage.deferred.pending⟩,
    hstage.emptied hempty,?_⟩
  · change t.phase ≠ some .afterCommit
    rw [hstage.phase]
    exact fun he => hp (Option.some.inj he)
  · have hfin := hstage.finished
    simp only [State.note,List.mem_append,List.mem_singleton,Entry.finished.injEq,hfin]
    constructor
    · rintro (hlt | hc)
      · omega
      · rw [← hc]
        exact Nat.lt_succ_self _
    · intro hlt
      by_cases hc : Phase.commit = p
      · exact .inr hc
      · have hidx : Phase.commit.index ≠ p.index := fun hi => hc (Phase.index_injective hi)
        exact .inl (by omega)

end Stages

section Execution
variable (P : Program)

theorem handlerThrowsBy_le {q : Phase} (h : P.handlerThrowsBy q = true) :
    Phase.invocation.index ≤ q.index := by
  simp only [Program.handlerThrowsBy,Bool.or_eq_true,Bool.and_eq_true,decide_eq_true_eq] at h
  rcases h with h | h
  · exact h.2
  · exact effectsThrowBy_le (by decide) _ h

theorem callHandler_before {H : Phase → Prop} {s : State}
    (h : Stage H (fun q => P.handlerThrowsBy q = true) .invocation [] s)
    (he : s.phaseActions .invocation = []) :
    (callHandler P.handler s).Ends (Before H (fun _ => False) Phase.prepareCommit.index)
      (BrokeOff H) := by
  have hnote := same_note s (e := .handler) (by simp)
  have hd : Deferred (s.note .handler) := ⟨h.deferred.only,h.deferred.pending⟩
  obtain ⟨hsame,hends⟩ := body_hot P.handler (s := s.note .handler) h.live h.phase hd
    (show Phase.prepareCommit.index ≤ 4 by decide)
  have hboth := hnote.trans hsame
  have hforetold := h.emptied he
  unfold callHandler
  rcases hr : P.handler.run (s.note .handler) with t | ⟨e,t⟩
  · rw [hr] at hends hboth
    obtain ⟨hdef,hthrows,hhot⟩ := hends
    refine ⟨hboth.closed.trans h.live,?_,hdef,fun q => ?_,
      (hboth.finished _).trans (h.finished.trans (by decide))⟩
    · have hphase : t.phase = some .invocation := hboth.phase.trans h.phase
      rw [hphase]
      decide
    · have hq : Hot q Phase.prepareCommit.index t ↔
          Hot q (Phase.invocation.index+1) s ∨ P.handlerThrowsBy q = true := by
        rw [hhot q]
        simp [Program.handlerThrowsBy,hthrows,Hot,State.note,Phase.index]
      rw [hforetold q,hq]
      simp
  · rw [hr] at hends hboth
    refine h.brokeOff (fun q hq => handlerThrowsBy_le P hq) (fun q hq => ?_) hboth
    refine (hforetold q).mpr (.inr ?_)
    simp only [Program.handlerThrowsBy,Bool.or_eq_true,Bool.and_eq_true,decide_eq_true_eq]
    rcases hends q hq with ht | ht
    · exact .inl ⟨ht,hq⟩
    · exact .inr ht

theorem minted_before :
    Before (fun q => P.throwsBy q = true) (fun q => P.handlerThrowsBy q = true)
      Phase.preInvocation.index P.minted := by
  have hfold (rs : List (Slot × Body)) (s : State) (hd : Deferred s) (hp : s.phase = none)
      (hfin : Entry.finished .commit ∉ s.log) (hc : s.closed = false)
      (q : Phase) (t : State) (ht : t = rs.foldl (fun s r => s.register r.1 (.body r.2)) s) :
      Deferred t ∧ t.phase = none ∧ Entry.finished .commit ∉ t.log ∧ t.closed = false ∧
        (Hot q 0 t ↔ Hot q 0 s ∨ rs.any (fun r =>
          match r.1 with
          | .on p => r.2.throwsBy q p
          | _ => false) = true) := by
    induction rs generalizing s with
    | nil =>
        subst ht
        exact ⟨hd,hp,hfin,hc,by simp⟩
    | cons r rs ih =>
        have hreg := same_register s r.1 (.body r.2)
        obtain ⟨h₁,h₂,h₃,h₄,h₅⟩ := ih (s.register r.1 (.body r.2))
          (deferred_register hd _ _ fun h => by cases h) (hreg.phase.trans hp)
          (fun hm => hfin ((hreg.finished _).mp hm)) (hreg.closed.trans hc) ht
        refine ⟨h₁,h₂,h₃,h₄,?_⟩
        rw [h₅,hot_register,List.any_cons,Bool.or_eq_true,or_assoc]
        cases hslot : r.1 with
        | on p => simp [Task.throwsBy]
        | onError => simp
        | whenComplete => simp
  have hnone (q : Phase) : ¬Hot q 0 unitOfWork := by
    rintro ⟨p,-,a,ha,-⟩
    simp [unitOfWork] at ha
  have hempty : Deferred unitOfWork := by
    constructor
    · intro p a ha
      simp [unitOfWork] at ha
    · intro hsome
      simp [unitOfWork] at hsome
  have hmint (q : Phase) := hfold P.before unitOfWork hempty rfl (by simp [unitOfWork]) rfl q
    P.minted rfl
  obtain ⟨hd,hp,hfin,hc,-⟩ := hmint .commit
  refine ⟨hc,by rw [hp]; decide,hd,fun q => ?_,?_⟩
  · have hq := (hmint q).2.2.2.2
    change P.throwsBy q = true ↔ Hot q 0 P.minted ∨ _
    rw [hq]
    simp only [hnone q,false_or,Program.throwsBy,Bool.or_eq_true]
  · exact iff_of_false hfin (by decide)

/-- What the program's tree says is what the execution does. -/
theorem drivePhases_foretold :
    (drivePhases P.handler P.minted).Ends
      (fun t => (∀ q, P.throwsBy q = false) ∧ Entry.finished .commit ∈ t.log)
      (BrokeOff fun q => P.throwsBy q = true) := by
  refine (runPhase_before (minted_before P) (by decide)
    fun q _ => Nat.zero_le _).andThen fun s hs => ?_
  refine (drainPhase_stage (p := .invocation) hs
    fun q hq => handlerThrowsBy_le P hq).andThen fun t ht => ?_
  refine (callHandler_before P ht.1 ht.2).andThen fun u hu => ?_
  refine (runPhase_before hu (by decide) fun q hq => hq.elim).andThen fun v hv => ?_
  refine (runPhase_before (p := .commit) hv (by decide) fun q hq => hq.elim).andThen
    fun w hw => ?_
  refine (drainPhase_stage (p := .afterCommit) hw fun q hq => hq.elim).andThen fun x hx => ?_
  refine ⟨fun q => ?_,?_⟩
  · rw [← Bool.not_eq_true]
    intro hq
    rcases (hx.1.emptied hx.2 q).mp hq with hhot | hno
    · have := hhot.le
      cases q <;> simp [Phase.index] at this
    · exact hno
  · have hfin := hx.1.finished.mpr (by decide)
    simp [State.note,hfin]

/-- The handlers notified at the end note no phase as finished. -/
theorem settle_finished {p : Phase} {r : Result} {lost : Phase → List ℕ} {rest : List ℕ}
    (h : r.Ends (Running lost rest) Broken) :
    Entry.finished p ∈ (settle r).state.log ↔ Entry.finished p ∈ r.state.log := by
  have htail {entry : ℕ → Entry} {u t : State} (hc : Closing entry u t)
      (hentry : ∀ id, entry id ≠ .finished p) :
      Entry.finished p ∈ t.log ↔ Entry.finished p ∈ u.log := by
    obtain ⟨l,hl,hle⟩ := hc.tail
    rw [hl,List.mem_append]
    refine or_iff_left fun hm => ?_
    rcases hle _ hm with hf | ⟨id,hid⟩
    · exact hf
    · exact hentry id hid.symm
  cases r with
  | done s =>
      have hc := (runCompleteHandlers_spec h.toLedger (calm_completed h.calm)).1
      exact htail hc (by simp)
  | threw e s =>
      obtain ⟨lost,rest,v,hrun,rfl⟩ := h
      have hc := (runErrorHandlers_spec e (hrun.toLedger.note (e := .threw) rfl) (by
        simpa [State.note,Entry.errorHandled?] using calm_errorHandled hrun.calm)).1
      exact htail hc (by simp)

/-- The phase machine is lawful exactly when some turn throws or the handler
registers nothing for the phase it runs in. -/
theorem phases_lawful_iff :
    Lawful P.execute.state.log ↔
      (P.throwsBy .afterCommit = true ∨ P.handler.registersAt .invocation = false) := by
  have hfore := drivePhases_foretold P
  have hsettled := drivePhases_settled P.handler (minted_running P).1 (minted_running P).2
  unfold Program.execute
  rcases hr : drivePhases P.handler P.minted with t | ⟨e,t⟩
  · rw [hr] at hfore hsettled
    obtain ⟨left,hleft,hiff⟩ := hsettled
    rw [settle_done_lawful hleft,hiff,hfore.1 .afterCommit]
    simp
  · rw [hr] at hfore hsettled
    obtain ⟨p,hp,-⟩ := hfore
    have hthrow := (hp .afterCommit).mpr (by cases p <;> decide)
    exact iff_of_true (settle_threw_lawful e hsettled) (.inl hthrow)

/-- An action that the handler registers for INVOCATION never runs. -/
theorem handler_invocation_action_dropped :
    ¬Lawful (Program.execute ⟨[],⟨[.register (.on .invocation) [] none],none⟩⟩).state.log := by
  intro h
  exact absurd (h.allRan (by decide +kernel) .invocation) (by decide +kernel)

/-- Nothing whose turn comes in AFTER_COMMIT throws, or an earlier turn does. -/
def Program.quietAfterCommit : Prop :=
  P.throwsBy .commit = true ∨ P.throwsBy .afterCommit = false

instance : Decidable P.quietAfterCommit := inferInstanceAs (Decidable (_ ∨ _))

theorem execute_cases :
    (P.execute.rejected = none ∧ P.execute.committed = true ∧ ∀ q, P.throwsBy q = false) ∨
      ∃ p : Phase, P.execute.rejected ≠ none ∧ (∀ q, P.throwsBy q = true ↔ p.index ≤ q.index) ∧
        (P.execute.committed = true ↔ Phase.commit.index < p.index) := by
  have hfore := drivePhases_foretold P
  have hrun : ∃ lost rest, (drivePhases P.handler P.minted).Ends (Running lost rest) Broken := by
    have hsettled := drivePhases_settled P.handler (minted_running P).1 (minted_running P).2
    rcases hr : drivePhases P.handler P.minted with t | ⟨e,t⟩
    · rw [hr] at hsettled
      obtain ⟨left,⟨lost,hin,-⟩,-⟩ := hsettled
      exact ⟨lost,[],hin.1⟩
    · rw [hr] at hsettled
      exact ⟨fun _ => [],[],hsettled⟩
  obtain ⟨lost,rest,hrun⟩ := hrun
  have hfin := settle_finished (p := .commit) hrun
  have hcom : P.execute.committed = true ↔
      Entry.finished .commit ∈ (drivePhases P.handler P.minted).state.log := by
    rw [← hfin]
    exact decide_eq_true_iff
  rw [hcom]
  unfold Program.execute
  rcases hr : drivePhases P.handler P.minted with t | ⟨e,t⟩
  · rw [hr] at hfore
    exact .inl ⟨rfl,hfore.2,hfore.1⟩
  · rw [hr] at hfore
    obtain ⟨p,hp,hc⟩ := hfore
    exact .inr ⟨p,by simp [settle],hp,hc⟩

theorem rejected_uncommitted_iff :
    (P.execute.rejected ≠ none → P.execute.committed = false) ↔ P.quietAfterCommit := by
  unfold Program.quietAfterCommit
  rcases execute_cases P with ⟨hres,-,hno⟩ | ⟨p,hrej,hby,hcom⟩
  · exact iff_of_true (fun h => absurd hres h) (.inr (hno _))
  · have hafter : P.throwsBy .afterCommit = true := (hby .afterCommit).mpr (by cases p <;> decide)
    rw [hafter,hby .commit,← Bool.not_eq_true,hcom]
    constructor
    · intro h
      have := h hrej
      exact .inl (by omega)
    · rintro (hle | hno) -
      · omega
      · simp at hno

theorem committed_of_resolved (h : P.execute.rejected = none) : P.execute.committed = true := by
  rcases execute_cases P with ⟨-,hc,-⟩ | ⟨p,hrej,-⟩
  · exact hc
  · exact absurd h hrej

end Execution

/-- One batch of a segment: its size, what the adapter registers when the unit of
work is minted, what the deliveries do, and what the token write does. -/
structure Batch where
  size : ℕ
  before : List (Slot × Body)
  deliveries : Body
  write : Body

/-- The unit of work of `processBatch`: the deliveries, and after them the token
write, registered for PREPARE_COMMIT. -/
def Batch.program (b : Batch) : Program where
  before := b.before
  handler :=
    match b.deliveries.throws with
    | some e => ⟨b.deliveries.effects,some e⟩
    | none =>
        ⟨b.deliveries.effects ++
          [.register (.on .prepareCommit) b.write.effects b.write.throws],none⟩

/-- A segment: the token it polls from, the token in the store, and the positions
whose deliveries were committed, in order. -/
structure Processor where
  token : ℕ
  stored : ℕ
  delivered : List ℕ
  deriving DecidableEq

/-- `pollOnce` with one batch. A rejection leaves the token where it is, and the
stream is reopened there. -/
def pollOnce (s : Processor) (b : Batch) : Option Processor :=
  let outcome := b.program.execute
  let written :=
    if outcome.committed then
      {s with
        stored := s.token+b.size
        delivered := s.delivered ++ List.range' s.token b.size}
    else s
  if outcome.rejected = none then some {written with token := s.token+b.size} else some written

/-- Every committed delivery lies before the token, and was committed once. -/
structure Processor.Once (s : Processor) : Prop where
  agree : s.token = s.stored
  nodup : s.delivered.Nodup
  past : ∀ i ∈ s.delivered, i < s.token

theorem pollOnce_once {s t : Processor} {b : Batch} (h : s.Once)
    (hq : b.program.quietAfterCommit) (hst : pollOnce s b = some t) : t.Once := by
  have hun := (rejected_uncommitted_iff b.program).mpr hq
  unfold pollOnce at hst
  by_cases hr : b.program.execute.rejected = none
  · have hc := committed_of_resolved b.program hr
    simp only [hc,hr,if_true,Option.some.injEq] at hst
    subst hst
    refine ⟨rfl,?_,?_⟩
    · rw [List.nodup_append]
      refine ⟨h.nodup,List.nodup_range' ..,?_⟩
      rintro i hi j hj rfl
      have hlt := h.past i hi
      have hge := (List.mem_range'_1.mp hj).1
      omega
    · intro i hi
      change i < s.token+b.size
      rcases List.mem_append.mp hi with hi | hi
      · have := h.past i hi
        omega
      · exact (List.mem_range'_1.mp hi).2
  · have hc := hun hr
    simp only [hc,hr,if_false,Bool.false_eq_true,Option.some.injEq] at hst
    subst hst
    exact h

/-- A rejected unit of work did not commit exactly when nothing throws after the
commit, and a processor all of whose batches are so never redelivers a committed
one. -/
theorem rejected_did_not_commit (P : Program) (k : ℕ) (s : Processor) :
    ((P.execute.rejected ≠ none → P.execute.committed = false) ↔ P.quietAfterCommit) ∧
    (Reach pollOnce (fun _ b => b.program.quietAfterCommit) ⟨k,k,[]⟩ s → s.Once) := by
  refine ⟨rejected_uncommitted_iff P,fun h => ?_⟩
  refine Reach.invariant (I := Processor.Once) ⟨rfl,List.nodup_nil,by simp⟩ ?_ h
  intro s b t _ hs hok hst
  exact pollOnce_once hs hok hst

/-- The first batch fails in a delivery and is delivered again, the second one
commits and notifies. -/
theorem rejected_did_not_commit_retried :
    ∃ s, Reach pollOnce (fun _ b => b.program.quietAfterCommit) ⟨3,3,[]⟩ s ∧
      s = ⟨5,5,[3,4]⟩ ∧ s.Once := by
  have hs := reach_guarded_get
    (show (exec (guarded pollOnce fun _ b => b.program.quietAfterCommit) ⟨3,3,[]⟩
      [⟨2,[(.on .commit,⟨[],none⟩)],⟨[.emitUpdate none],some 7⟩,⟨[],none⟩⟩,
        ⟨2,[(.on .commit,⟨[],none⟩)],⟨[.emitUpdate none],none⟩,⟨[],none⟩⟩]).isSome = true by
      decide +kernel)
  exact ⟨_,hs,by decide +kernel,(rejected_did_not_commit ⟨[],⟨[],none⟩⟩ 3 _).2 hs⟩

/-- An update that throws after the commit: the unit of work rejects, and the
processor delivers the committed batch once more. -/
theorem afterCommit_throw_redelivers :
    (Program.execute ⟨[(.on .commit,⟨[],none⟩)],⟨[.emitUpdate (some 7)],none⟩⟩).rejected ≠ none ∧
    (Program.execute ⟨[(.on .commit,⟨[],none⟩)],⟨[.emitUpdate (some 7)],none⟩⟩).committed = true ∧
    exec pollOnce ⟨3,3,[]⟩
      [⟨2,[(.on .commit,⟨[],none⟩)],⟨[.emitUpdate (some 7)],none⟩,⟨[],none⟩⟩,
        ⟨2,[(.on .commit,⟨[],none⟩)],⟨[.emitUpdate none],none⟩,⟨[],none⟩⟩] =
      some ⟨5,5,[3,4,3,4]⟩ := by
  decide +kernel

end Kronos.UnitOfWork
