import Kronos.UnitOfWork.Phases
import Mathlib.Tactic.SplitIfs
import Mathlib.Data.List.Pairwise

/-!
# The phase machine runs everything once, in order

`Lawful` reads the law off the log of an execution: the closures that ran in a
phase against the ones registered for it while it was current or still to come,
both in order of their serial numbers. The proof carries one equation through
the drain loops, `Running.due`: what was registered in time for a phase is what
has run in it followed by what waits in its bucket. The INVOCATION bucket is the
one place where the equation leaves something behind, because the handler runs
after the bucket has been drained for the last time.
-/
namespace Kronos.UnitOfWork

theorem Phase.index_injective : Function.Injective Phase.index := by
  intro p q h
  cases p <;> cases q <;> first | rfl | exact absurd h (by decide)

@[simp] theorem phaseIndex_some (p : Phase) : phaseIndex (some p) = p.index := rfl

def Entry.serial? : Entry → Option ℕ
  | .registered id _ _ _ => some id
  | _ => none

/-- Registered in a slot, at any time. -/
def Entry.registeredAt? (slot : Slot) : Entry → Option ℕ
  | .registered id slot' _ _ => if slot' = slot then some id else none
  | _ => none

/-- Registered for a phase while that phase was current or still to come. Once
the unit of work has closed no phase is. -/
def Entry.due? (p : Phase) : Entry → Option ℕ
  | .registered id slot phase closed =>
      if slot = .on p ∧ phaseIndex phase ≤ p.index ∧ closed = false then some id else none
  | _ => none

def Entry.ran? (p : Phase) : Entry → Option ℕ
  | .ran id phase => if phase = some p then some id else none
  | _ => none

/-- The phase in which an action or the handler gets its turn. -/
def Entry.turn? : Entry → Option ℕ
  | .ran _ phase => some (phaseIndex phase)
  | .handler => some Phase.invocation.index
  | _ => none

def Entry.errorHandled? : Entry → Option ℕ
  | .errorHandled id _ _ => some id
  | _ => none

def Entry.completed? : Entry → Option ℕ
  | .completed id => some id
  | _ => none

/-- The law of the phase machine, read off the log of one execution. -/
structure Lawful (log : List Entry) : Prop where
  /-- Serial numbers name registrations, in registration order. -/
  serials : (log.filterMap Entry.serial?).Pairwise (· < ·)
  /-- The turns follow the order of the phases. -/
  turns : (log.filterMap Entry.turn?).Pairwise (· ≤ ·)
  /-- Within a phase, only what is due there runs, in registration order. -/
  ranInOrder : ∀ p, log.filterMap (Entry.ran? p) <+: log.filterMap (Entry.due? p)
  /-- On success everything due in a phase has run. -/
  allRan : Entry.threw ∉ log → ∀ p, log.filterMap (Entry.ran? p) = log.filterMap (Entry.due? p)
  /-- Nothing gets a turn after the first throw. -/
  stops : ∀ l r, log = l ++ .threw::r → r.filterMap Entry.turn? = []
  /-- After a throw each error handler runs exactly once. -/
  errorHandlers : Entry.threw ∈ log →
    log.filterMap Entry.errorHandled? = log.filterMap (Entry.registeredAt? .onError)
  /-- The completion handlers run, once each, exactly when nothing threw. -/
  completeHandlers : log.filterMap Entry.completed? =
    if Entry.threw ∈ log then [] else log.filterMap (Entry.registeredAt? .whenComplete)

def Effect.registersAt (p : Phase) : Effect → Bool
  | .register slot _ _ => slot = .on p
  | .emitUpdate _ => false

def Body.registersAt (p : Phase) (b : Body) : Bool := b.effects.any (Effect.registersAt p)

def ids (as : List Pending) : List ℕ := as.map Pending.id

@[simp] theorem ids_nil : ids [] = [] := rfl
@[simp] theorem ids_cons (a : Pending) (as : List Pending) : ids (a::as) = a.id::ids as := rfl
@[simp] theorem ids_append (as bs : List Pending) : ids (as ++ bs) = ids as ++ ids bs :=
  List.map_append

@[simp] theorem ids_eq_nil {as : List Pending} : ids as = [] ↔ as = [] := List.map_eq_nil_iff

/-- The array a slot pushes to. -/
def State.at (s : State) : Slot → List Pending
  | .on p => s.phaseActions p
  | .onError => s.errorHandlers
  | .whenComplete => s.completeHandlers

section Register
variable (s : State) (slot : Slot) (task : Task)

@[simp] theorem register_phase : (s.register slot task).phase = s.phase := by
  cases slot <;> rfl

@[simp] theorem register_closed : (s.register slot task).closed = s.closed := by
  cases slot <;> rfl

@[simp] theorem register_next : (s.register slot task).next = s.next+1 := by
  cases slot <;> rfl

@[simp] theorem register_updateTasks : (s.register slot task).updateTasks = s.updateTasks := by
  cases slot <;> rfl

@[simp] theorem register_log :
    (s.register slot task).log = s.log ++ [.registered s.next slot s.phase s.closed] := by
  cases slot <;> rfl

theorem register_at (slot' : Slot) :
    (s.register slot task).at slot' =
      s.at slot' ++ if slot' = slot then [⟨s.next,task⟩] else [] := by
  cases slot with
  | on p =>
      cases slot' with
      | on q =>
          by_cases hq : q = p
          · subst hq
            simp [State.at,State.register]
          · simp [State.at,State.register,hq]
      | onError => simp [State.at,State.register]
      | whenComplete => simp [State.at,State.register]
  | onError => cases slot' <;> simp [State.at,State.register]
  | whenComplete => cases slot' <;> simp [State.at,State.register]

end Register

/-- What holds of the log and the handler arrays at all times. -/
structure Ledger (s : State) : Prop where
  serials : (s.log.filterMap Entry.serial?).Pairwise (· < ·)
  fresh : ∀ i ∈ s.log.filterMap Entry.serial?, i < s.next
  errors : s.log.filterMap (Entry.registeredAt? .onError) = ids s.errorHandlers
  completes : s.log.filterMap (Entry.registeredAt? .whenComplete) = ids s.completeHandlers

theorem Ledger.register {s : State} (h : Ledger s) (slot : Slot) (task : Task) :
    Ledger (s.register slot task) := by
  have hat (slot' : Slot) (he : s.log.filterMap (Entry.registeredAt? slot') = ids (s.at slot')) :
      (s.register slot task).log.filterMap (Entry.registeredAt? slot') =
        ids ((s.register slot task).at slot') := by
    rw [register_log,register_at,List.filterMap_append,he,ids_append]
    by_cases hs : slot = slot'
    · simp [Entry.registeredAt?,hs]
    · simp [Entry.registeredAt?,hs,Ne.symm hs]
  refine ⟨?_,?_,hat .onError h.errors,hat .whenComplete h.completes⟩
  · rw [register_log,List.filterMap_append,List.pairwise_append]
    refine ⟨h.serials,List.pairwise_singleton _ _,?_⟩
    intro i hi j hj
    have hj' : j = s.next := by simpa [Entry.serial?] using hj
    rw [hj']
    exact h.fresh i hi
  · intro i hi
    rw [register_log,List.filterMap_append,List.mem_append] at hi
    rw [register_next]
    rcases hi with hi | hi
    · have := h.fresh i hi
      omega
    · have hi' : i = s.next := by simpa [Entry.serial?] using hi
      omega

/-- Entries that name no registration leave the ledger alone. -/
theorem Ledger.note {s : State} (h : Ledger s) {e : Entry} (he : e.serial? = none) :
    Ledger (s.note e) := by
  have hs (slot : Slot) : e.registeredAt? slot = none := by
    cases e <;> simp_all [Entry.serial?,Entry.registeredAt?]
  constructor
  · simpa [State.note,he] using h.serials
  · simpa [State.note,he] using h.fresh
  · simpa [State.note,hs] using h.errors
  · simpa [State.note,hs] using h.completes

/-- What is due in a phase and has not run: `lost` for a phase already past, the
rest of the batch being run and the bucket for the others. -/
def State.owed (s : State) (lost : Phase → List ℕ) (rest : List ℕ) (p : Phase) : List ℕ :=
  if p.index < s.current then lost p
  else (if p.index = s.current then rest else []) ++ ids (s.phaseActions p)

theorem owed_past {s : State} {p : Phase} (lost : Phase → List ℕ) (rest : List ℕ)
    (h : p.index < s.current) : s.owed lost rest p = lost p := if_pos h

theorem owed_ahead {s : State} {p : Phase} (lost : Phase → List ℕ)
    (h : s.current ≤ p.index) : s.owed lost [] p = ids (s.phaseActions p) := by
  unfold State.owed
  rw [if_neg (by omega),ite_self,List.nil_append]

/-- No throw so far and no handler notified. -/
def Entry.calm : Entry → Prop
  | .threw => False
  | .errorHandled _ _ _ => False
  | .completed _ => False
  | _ => True

/-- The unit of work while its phases run. -/
structure Running (lost : Phase → List ℕ) (rest : List ℕ) (s : State) : Prop extends Ledger s where
  live : s.closed = false
  due : ∀ p, s.log.filterMap (Entry.due? p) =
    s.log.filterMap (Entry.ran? p) ++ s.owed lost rest p
  turns : (s.log.filterMap Entry.turn?).Pairwise (· ≤ ·)
  reached : ∀ i ∈ s.log.filterMap Entry.turn?, i ≤ s.current
  calm : ∀ e ∈ s.log, e.calm

section Running
variable {lost : Phase → List ℕ} {rest : List ℕ} {s : State}

theorem Running.register (h : Running lost rest s) (slot : Slot) (task : Task) :
    Running lost rest (s.register slot task) := by
  have hat (q : Phase) : (s.register slot task).phaseActions q =
      s.phaseActions q ++ if Slot.on q = slot then [⟨s.next,task⟩] else [] :=
    register_at s slot task (.on q)
  refine ⟨h.toLedger.register slot task,?_,?_,?_,?_,?_⟩
  · simpa using h.live
  · intro p
    rw [register_log,List.filterMap_append,List.filterMap_append,h.due p]
    unfold State.owed State.current
    rw [register_phase,hat p,h.live]
    by_cases hp : p.index < phaseIndex s.phase
    · have hle : ¬phaseIndex s.phase ≤ p.index := by omega
      simp [Entry.due?,Entry.ran?,hp,hle]
    · have hle : phaseIndex s.phase ≤ p.index := by omega
      by_cases hs : slot = .on p
      · simp [Entry.due?,Entry.ran?,hp,hle,hs]
      · simp [Entry.due?,Entry.ran?,hp,hs,Ne.symm hs]
  · simpa [Entry.turn?,List.filterMap_cons] using h.turns
  · simpa [Entry.turn?,List.filterMap_cons,State.current] using h.reached
  · intro e he
    rw [register_log,List.mem_append] at he
    rcases he with he | he
    · exact h.calm e he
    · rw [List.mem_singleton.mp he]
      trivial

theorem Running.setUpdateTasks (h : Running lost rest s) (tasks : Option (List (Option ℕ))) :
    Running lost rest {s with updateTasks := tasks} :=
  ⟨⟨h.serials,h.fresh,h.errors,h.completes⟩,h.live,h.due,h.turns,h.reached,h.calm⟩

theorem runAfterCommitOrImmediately_running (h : Running lost rest s) (task : Option ℕ) :
    ∃ t, runAfterCommitOrImmediately task s = .done t ∧ Running lost rest t ∧
      t.phase = s.phase := by
  have hc : ¬s.closed = true := by simp [h.live]
  unfold runAfterCommitOrImmediately
  rw [if_neg hc]
  cases s.updateTasks with
  | none => exact ⟨_,rfl,(h.register _ _).setUpdateTasks _,register_phase _ _ _⟩
  | some tasks => exact ⟨_,rfl,h.setUpdateTasks _,rfl⟩

theorem perform_running (h : Running lost rest s) (es : List Effect) :
    Running lost rest (perform es s).state ∧ (perform es s).state.phase = s.phase := by
  induction es generalizing s with
  | nil => exact ⟨h,rfl⟩
  | cons e es ih =>
      cases e with
      | register slot effects throws =>
          have ht := ih (h.register slot (.body ⟨effects,throws⟩))
          rw [register_phase] at ht
          exact ht
      | emitUpdate task =>
          obtain ⟨t,ht,hrun,hphase⟩ := runAfterCommitOrImmediately_running h task
          simp only [perform,requireInvocation,h.live]
          by_cases hp : s.phase = some .invocation
          · have hs := ih hrun
            rw [hphase] at hs
            simpa [hp,Result.andThen,ht] using hs
          · simpa [hp,Result.andThen,Result.state] using h

theorem throwing_state (throws : Option ℕ) : (throwing throws s).state = s := by
  cases throws <;> rfl

theorem andThen_throwing_state (r : Result) (throws : Option ℕ) :
    (r.andThen (throwing throws)).state = r.state := by
  cases r with
  | done t => exact throwing_state throws
  | threw e t => rfl

theorem runUpdates_state (tasks : List (Option ℕ)) : (runUpdates tasks s).state = s := by
  induction tasks with
  | nil => rfl
  | cons task tasks ih =>
      cases task with
      | none => exact ih
      | some e => rfl

theorem run_running (h : Running lost rest s) (task : Task) :
    Running lost rest (task.run s).state ∧ (task.run s).state.phase = s.phase := by
  cases task with
  | body b =>
      change Running lost rest ((perform b.effects s).andThen (throwing b.throws)).state ∧
        ((perform b.effects s).andThen (throwing b.throws)).state.phase = s.phase
      rw [andThen_throwing_state]
      exact perform_running h b.effects
  | updates =>
      change Running lost rest (runUpdates _ s).state ∧ (runUpdates _ s).state.phase = s.phase
      rw [runUpdates_state]
      exact ⟨h,rfl⟩

/-- The head of the batch gets its turn in phase `p`. -/
theorem Running.ran {p : Phase} {id : ℕ} (h : Running lost (id::rest) s) (hp : s.phase = some p) :
    Running lost rest (s.note (.ran id s.phase)) := by
  refine ⟨h.toLedger.note rfl,h.live,?_,?_,?_,?_⟩
  · intro q
    have hq := h.due q
    simp only [State.note,List.filterMap_append,hq]
    unfold State.owed State.current
    rw [hp]
    by_cases he : q = p
    · simp [Entry.due?,Entry.ran?,he]
    · have hi : q.index ≠ p.index := fun hi => he (Phase.index_injective hi)
      simp [Entry.due?,Entry.ran?,hi,Ne.symm he]
  · simp only [State.note,List.filterMap_append]
    rw [List.pairwise_append]
    refine ⟨h.turns,by simp [Entry.turn?],?_⟩
    intro i hi j hj
    have hj' : j = s.current := by simpa [Entry.turn?,State.current] using hj
    rw [hj']
    exact h.reached i hi
  · intro i hi
    simp only [State.note,List.filterMap_append,List.mem_append] at hi
    rcases hi with hi | hi
    · exact h.reached i hi
    · have hi' : i = s.current := by simpa [Entry.turn?,State.current] using hi
      exact Nat.le_of_eq hi'
  · intro e he
    rcases List.mem_append.mp he with he | he
    · exact h.calm e he
    · rw [List.mem_singleton.mp he]
      trivial

end Running

/-- A run that broke off: some action threw and nothing else has happened since. -/
def Broken (s : State) : Prop :=
  ∃ lost rest t, Running lost rest t ∧ s = t.note .threw

/-- What holds of the state a call returns with, or of the one it throws in. -/
def Result.Ends (P Q : State → Prop) : Result → Prop
  | .done s => P s
  | .threw _ s => Q s

theorem Result.Ends.andThen {P P' Q : State → Prop} {r : Result} {f : State → Result}
    (h : r.Ends P Q) (hf : ∀ s, P s → (f s).Ends P' Q) : (r.andThen f).Ends P' Q := by
  cases r with
  | done s => exact hf s h
  | threw e s => exact h

theorem Result.Ends.imp {P P' Q : State → Prop} {r : Result}
    (h : r.Ends P Q) (hP : ∀ s, P s → P' s) : r.Ends P' Q := by
  cases r with
  | done s => exact hP s h
  | threw e s => exact h

theorem ends_noteThrow {P : State → Prop} {lost : Phase → List ℕ} {rest : List ℕ} {r : Result}
    (h : Running lost rest r.state) (hP : P r.state) : r.noteThrow.Ends P Broken := by
  cases r with
  | done s => exact hP
  | threw e s => exact ⟨lost,rest,s,h,rfl⟩

/-- The invariant inside phase `p`, with `rest` of the batch still to run. -/
def InPhase (p : Phase) (lost : Phase → List ℕ) (rest : List ℕ) (s : State) : Prop :=
  Running lost rest s ∧ s.phase = some p

section InPhase
variable {p : Phase} {lost : Phase → List ℕ} {rest : List ℕ} {s : State}

theorem call_inPhase {a : Pending} (h : InPhase p lost (a.id::rest) s) :
    (s.call a).Ends (InPhase p lost rest) Broken := by
  have hrun := run_running (h.1.ran h.2) a.task
  exact ends_noteThrow hrun.1 ⟨hrun.1,hrun.2.trans h.2⟩

theorem runBucket_inPhase {as : List Pending} (h : InPhase p lost (ids as) s) :
    (runBucket as s).Ends (InPhase p lost []) Broken := by
  induction as generalizing s with
  | nil => exact h
  | cons a as ih => exact (call_inPhase h).andThen fun t ht => ih ht

theorem InPhase.takeBucket (h : InPhase p lost [] s) :
    InPhase p lost (ids (s.phaseActions p))
      {s with phaseActions := Function.update s.phaseActions p []} := by
  obtain ⟨h,hp⟩ := h
  refine ⟨⟨⟨h.serials,h.fresh,h.errors,h.completes⟩,h.live,?_,h.turns,h.reached,h.calm⟩,hp⟩
  intro q
  rw [h.due q]
  unfold State.owed State.current
  by_cases hq : q = p
  · simp [hp,hq]
  · have hi : q.index ≠ p.index := fun hi => hq (Phase.index_injective hi)
    simp [hp,hq,hi]

theorem drain_inPhase (n : ℕ) (h : InPhase p lost [] s) :
    (drain p n s).Ends (InPhase p lost []) Broken := by
  induction n generalizing s with
  | zero => exact h
  | succ n ih =>
      unfold drain
      split_ifs with hb
      · exact h
      · exact (runBucket_inPhase h.takeBucket).andThen fun t ht => ih ht

end InPhase

@[simp] theorem pendingWeight_nil : pendingWeight [] = 0 := rfl

@[simp] theorem pendingWeight_append (as bs : List Pending) :
    pendingWeight (as ++ bs) = pendingWeight as+pendingWeight bs := by
  simp [pendingWeight]

theorem pendingWeight_cons (a : Pending) (as : List Pending) :
    pendingWeight (a::as) = a.task.weight+pendingWeight as := by
  simp [pendingWeight]

theorem Task.weight_pos (task : Task) : 0 < task.weight := by
  cases task with
  | body b => exact Nat.succ_pos _
  | updates => exact Nat.one_pos

theorem length_le_pendingWeight (as : List Pending) : as.length ≤ pendingWeight as := by
  induction as with
  | nil => exact Nat.zero_le _
  | cons a as ih =>
      have ha := a.task.weight_pos
      rw [pendingWeight_cons,List.length_cons]
      omega

section Weight
variable (s : State)

theorem register_weight (slot : Slot) (task : Task) :
    (s.register slot task).weight ≤ s.weight+task.weight := by
  cases slot with
  | on p =>
      have hp := pendingWeight_cons ⟨s.next,task⟩ []
      cases p <;> simp [State.weight,State.register,hp] <;> omega
  | onError => exact Nat.le_add_right _ _
  | whenComplete => exact Nat.le_add_right _ _

theorem takeBucket_weight (p : Phase) :
    State.weight {s with phaseActions := Function.update s.phaseActions p []}+
      pendingWeight (s.phaseActions p) = s.weight := by
  cases p <;> simp [State.weight] <;> omega

theorem runAfterCommitOrImmediately_weight (task : Option ℕ) :
    (runAfterCommitOrImmediately task s).state.weight ≤ s.weight+1 := by
  unfold runAfterCommitOrImmediately
  split_ifs
  · rw [throwing_state]
    omega
  · cases s.updateTasks with
    | none => exact register_weight s (.on .afterCommit) .updates
    | some tasks => exact Nat.le_succ s.weight

theorem requireInvocation_state : (requireInvocation s).state = s := by
  unfold requireInvocation
  split_ifs <;> rfl

theorem perform_weight (es : List Effect) :
    (perform es s).state.weight ≤ s.weight+effectsWeight es := by
  induction es generalizing s with
  | nil => exact Nat.le_refl _
  | cons e es ih =>
      cases e with
      | register slot effects throws =>
          have h₁ := ih (s.register slot (.body ⟨effects,throws⟩))
          have h₂ := register_weight s slot (.body ⟨effects,throws⟩)
          simp only [Task.weight] at h₂
          simp only [perform,effectsWeight,Effect.weight]
          omega
      | emitUpdate task =>
          have h₁ := runAfterCommitOrImmediately_weight s task
          simp only [perform,effectsWeight,Effect.weight]
          rcases hr : requireInvocation s with t | ⟨e,t⟩
          · have ht : t = s := by
              rw [← requireInvocation_state s,hr]
              rfl
            subst ht
            simp only [Result.andThen]
            rcases hu : runAfterCommitOrImmediately task t with u | ⟨e,u⟩
            · rw [hu] at h₁
              have h₂ := ih u
              simp only [Result.state] at h₁ h₂ ⊢
              omega
            · rw [hu] at h₁
              simp only [Result.state] at h₁ ⊢
              omega
          · have ht : t = s := by
              rw [← requireInvocation_state s,hr]
              rfl
            subst ht
            simp only [Result.andThen,Result.state]
            omega

/-- Every call uses up at least its own closure. -/
theorem run_weight (task : Task) : (task.run s).state.weight+1 ≤ s.weight+task.weight := by
  cases task with
  | body b =>
      have h := perform_weight s b.effects
      change ((perform b.effects s).andThen (throwing b.throws)).state.weight+1 ≤
        s.weight+(effectsWeight b.effects+1)
      rw [andThen_throwing_state]
      omega
  | updates =>
      change (runUpdates _ s).state.weight+1 ≤ s.weight+1
      exact Nat.le_of_eq (by rw [runUpdates_state])

theorem noteThrow_weight (r : Result) : r.noteThrow.state.weight = r.state.weight := by
  cases r <;> rfl

theorem call_weight (a : Pending) : (s.call a).state.weight+1 ≤ s.weight+a.task.weight := by
  unfold State.call
  rw [noteThrow_weight]
  exact run_weight _ a.task

theorem runBucket_weight (as : List Pending) :
    (runBucket as s).Ends (fun t => t.weight+as.length ≤ s.weight+pendingWeight as)
      (fun _ => True) := by
  induction as generalizing s with
  | nil => exact Nat.le_refl _
  | cons a as ih =>
      have hcall := call_weight s a
      unfold runBucket
      rcases hr : s.call a with t | ⟨e,t⟩
      · rw [hr] at hcall
        refine (ih t).imp fun u hu => ?_
        simp only [Result.state] at hcall
        rw [pendingWeight_cons,List.length_cons]
        omega
      · trivial

/-- Enough fuel: the drain loop returns with an empty bucket. -/
theorem drain_empty {p : Phase} {n : ℕ} (hn : s.weight ≤ n) :
    (drain p n s).Ends (fun t => t.phaseActions p = []) (fun _ => True) := by
  induction n generalizing s with
  | zero =>
      have htake := takeBucket_weight s p
      have hlen := length_le_pendingWeight (s.phaseActions p)
      exact List.eq_nil_of_length_eq_zero (by omega)
  | succ n ih =>
      unfold drain
      split_ifs with hb
      · exact List.isEmpty_iff.mp hb
      · have htake := takeBucket_weight s p
        have hpos : 0 < (s.phaseActions p).length := by
          rw [List.length_pos_iff]
          exact fun he => hb (List.isEmpty_iff.mpr he)
        refine (runBucket_weight _ _).andThen fun t ht => ih t ?_
        omega

end Weight

theorem Result.Ends.and {P P' Q : State → Prop} {r : Result}
    (h : r.Ends P Q) (h' : r.Ends P' fun _ => True) : r.Ends (fun s => P s ∧ P' s) Q := by
  cases r with
  | done s => exact ⟨h,h'⟩
  | threw e s => exact h

section Phases
variable {p q : Phase} {lost : Phase → List ℕ} {rest : List ℕ} {s : State}

/-- Entries about the phases themselves and the handler's own turn. -/
theorem Running.note (h : Running lost rest s) {e : Entry} (hs : e.serial? = none)
    (hr : ∀ p, e.ran? p = none) (ht : ∀ i ∈ e.turn?, i = s.current) (hc : e.calm) :
    Running lost rest (s.note e) := by
  have hd (p : Phase) : e.due? p = none := by
    cases e <;> simp_all [Entry.serial?,Entry.due?]
  refine ⟨h.toLedger.note hs,h.live,?_,?_,?_,?_⟩
  · intro p
    have howed : (s.note e).owed lost rest p = s.owed lost rest p := rfl
    rw [howed]
    simpa [State.note,hd p,hr p] using h.due p
  · simp only [State.note,List.filterMap_append]
    rw [List.pairwise_append]
    refine ⟨h.turns,?_,?_⟩
    · cases he : e.turn? <;> simp [he]
    · intro i hi j hj
      have hj' : e.turn? = some j := by simpa using hj
      rw [ht j hj']
      exact h.reached i hi
  · intro i hi
    simp only [State.note,List.filterMap_append,List.mem_append] at hi
    rcases hi with hi | hi
    · exact h.reached i hi
    · have hi' : e.turn? = some i := by simpa using hi
      exact Nat.le_of_eq (ht i hi')
  · intro f hf
    rcases List.mem_append.mp hf with hf | hf
    · exact h.calm f hf
    · rw [List.mem_singleton.mp hf]
      exact hc

theorem Running.enter (h : Running lost [] s) (hp : s.current ≤ p.index) :
    InPhase p (s.owed lost []) [] {s with phase := some p} := by
  refine ⟨⟨⟨h.serials,h.fresh,h.errors,h.completes⟩,h.live,?_,h.turns,?_,h.calm⟩,rfl⟩
  · intro q
    rw [h.due q]
    by_cases hq : q.index < p.index
    · rw [owed_past _ _ (show q.index < State.current {s with phase := some p} from hq)]
    · have hle : p.index ≤ q.index := by omega
      rw [owed_ahead _ (show State.current {s with phase := some p} ≤ q.index from hle),
        owed_ahead _ (Nat.le_trans hp hle)]
  · intro i hi
    exact Nat.le_trans (h.reached i hi) hp

theorem drainPhase_inPhase (h : Running lost [] s) (hp : s.current ≤ p.index) :
    (drainPhase p s).Ends
      (fun t => InPhase p (s.owed lost []) [] t ∧ t.phaseActions p = []) Broken :=
  (drain_inPhase s.weight (h.enter hp)).and
    (drain_empty {s with phase := some p} (Nat.le_refl _))

/-- What is owed for ever in phase `p`, when the handler left `left` behind. -/
def leftAt (left : List ℕ) (p : Phase) : List ℕ := if p = .invocation then left else []

/-- Phase `p` is over: nothing due in it or before it is owed, but for `left`. -/
def Settled (left : List ℕ) (p : Phase) (s : State) : Prop :=
  ∃ lost, InPhase p lost [] s ∧ ∀ q, q.index ≤ p.index → s.owed lost [] q = leftAt left q

theorem runPhase_settled {left : List ℕ} (h : Running lost [] s) (hp : s.current ≤ p.index)
    (hinv : p ≠ .invocation)
    (hlost : ∀ q, q.index < p.index → s.owed lost [] q = leftAt left q) :
    (runPhase p s).Ends (Settled left p) Broken := by
  refine (drainPhase_inPhase h hp).andThen fun t ht => ?_
  obtain ⟨⟨hrun,hphase⟩,hempty⟩ := ht
  have hnote := hrun.note (e := .finished p) rfl (fun _ => rfl) (by simp [Entry.turn?]) trivial
  refine ⟨_,⟨hnote,hphase⟩,?_⟩
  intro q hq
  unfold State.owed State.current
  simp only [State.note,hphase,phaseIndex_some]
  by_cases hlt : q.index < p.index
  · rw [if_pos hlt]
    exact hlost q hlt
  · have he : q = p := Phase.index_injective (by omega)
    subst he
    simp [hempty,leftAt,hinv]

theorem Settled.runPhase {left : List ℕ} (h : Settled left p s) (hq : q.index = p.index+1)
    (hinv : q ≠ .invocation) : (runPhase q s).Ends (Settled left q) Broken := by
  obtain ⟨lost,⟨hrun,hphase⟩,howed⟩ := h
  have hcur : s.current = p.index := by
    unfold State.current
    rw [hphase]
    rfl
  exact runPhase_settled hrun (by omega) hinv fun r hr => howed r (by omega)

/-- The handler fills the INVOCATION bucket exactly when it registers for that
phase; none of its effects throws, since it runs in INVOCATION. -/
theorem perform_invocation (es : List Effect) (h : Running lost rest s)
    (hp : s.phase = some .invocation) :
    ∃ t, perform es s = .done t ∧
      (t.phaseActions .invocation = [] ↔
        s.phaseActions .invocation = [] ∧ es.any (Effect.registersAt .invocation) = false) := by
  induction es generalizing s with
  | nil => exact ⟨s,rfl,by simp⟩
  | cons e es ih =>
      cases e with
      | register slot effects throws =>
          obtain ⟨t,ht,hiff⟩ := ih (h.register slot (.body ⟨effects,throws⟩)) (by simpa using hp)
          refine ⟨t,ht,hiff.trans ?_⟩
          have hat := register_at s slot (.body ⟨effects,throws⟩) (.on .invocation)
          simp only [State.at] at hat
          rw [hat]
          by_cases hs : slot = .on .invocation
          · simp [Effect.registersAt,hs]
          · simp [Effect.registersAt,hs,Ne.symm hs]
      | emitUpdate task =>
          obtain ⟨u,hu,hrun,hphase⟩ := runAfterCommitOrImmediately_running h task
          obtain ⟨t,ht,hiff⟩ := ih hrun (hphase.trans hp)
          have hkept : u.phaseActions .invocation = s.phaseActions .invocation := by
            have hc : ¬s.closed = true := by simp [h.live]
            unfold runAfterCommitOrImmediately at hu
            rw [if_neg hc] at hu
            cases hut : s.updateTasks with
            | none =>
                rw [hut] at hu
                cases hu
                exact (register_at s (.on .afterCommit) .updates (.on .invocation)).trans
                  (by simp [State.at])
            | some tasks =>
                rw [hut] at hu
                cases hu
                rfl
          refine ⟨t,?_,?_⟩
          · simp [perform,requireInvocation,h.live,hp,Result.andThen,hu,ht]
          · rw [hiff,hkept]
            simp [Effect.registersAt]

theorem callHandler_settled {handler : Body} (h : InPhase .invocation lost [] s)
    (hempty : s.phaseActions .invocation = []) (hpre : lost .preInvocation = []) :
    (callHandler handler s).Ends
      (fun t => ∃ left, Settled left .invocation t ∧
        (left = [] ↔ handler.registersAt .invocation = false)) Broken := by
  have hcur : s.current = Phase.invocation.index := by
    unfold State.current
    rw [h.2]
    rfl
  have hnote := h.1.note (e := .handler) rfl (fun _ => rfl)
    (by simpa [Entry.turn?] using hcur.symm) trivial
  have hrun := perform_running hnote handler.effects
  obtain ⟨t,ht,hiff⟩ := perform_invocation handler.effects hnote h.2
  rw [ht] at hrun
  have hb : (handler.run (s.note .handler)).state = t := by
    unfold Body.run
    rw [andThen_throwing_state,ht]
    rfl
  refine ends_noteThrow (r := handler.run (s.note .handler)) (hb ▸ hrun.1) ?_
  rw [hb]
  refine ⟨ids (t.phaseActions .invocation),⟨lost,⟨hrun.1,hrun.2.trans h.2⟩,?_⟩,?_⟩
  · intro q hq
    have hphase : t.phase = some .invocation := hrun.2.trans h.2
    cases q <;> simp_all [State.owed,State.current,Phase.index,leftAt]
  · rw [ids_eq_nil,hiff]
    exact and_iff_right hempty

theorem drivePhases_settled (handler : Body) (h : Running lost [] s) (hp : s.phase = none) :
    (drivePhases handler s).Ends
      (fun t => ∃ left, Settled left .afterCommit t ∧
        (left = [] ↔ handler.registersAt .invocation = false)) Broken := by
  have hcur : s.current = 0 := by
    unfold State.current
    rw [hp]
    rfl
  have hpre : (UnitOfWork.runPhase .preInvocation s).Ends (Settled [] .preInvocation) Broken :=
    runPhase_settled h (by rw [hcur]; exact Nat.zero_le _) (by decide)
      fun q hq => absurd hq (Nat.not_lt_zero _)
  refine hpre.andThen fun t ht => ?_
  obtain ⟨lost',⟨hrun,hphase⟩,howed⟩ := ht
  have hcur' : t.current = 0 := by
    unfold State.current
    rw [hphase]
    rfl
  refine (drainPhase_inPhase hrun (by rw [hcur']; exact Nat.zero_le _)).andThen fun u hu => ?_
  refine (callHandler_settled hu.1 hu.2 (howed .preInvocation (Nat.le_refl _))).andThen
    fun v hv => ?_
  obtain ⟨left,hleft,hiff⟩ := hv
  refine (hleft.runPhase rfl (by decide)).andThen fun w hw => ?_
  refine (hw.runPhase rfl (by decide)).andThen fun x hx => ?_
  exact (hx.runPhase rfl (by decide)).imp fun y hy => ⟨left,hy,hiff⟩

end Phases

theorem minted_running (P : Program) :
    Running (fun _ => []) [] P.minted ∧ P.minted.phase = none := by
  have hfold (rs : List (Slot × Body)) (s : State) (h : Running (fun _ => []) [] s)
      (hp : s.phase = none) :
      Running (fun _ => []) [] (rs.foldl (fun s r => s.register r.1 (.body r.2)) s) ∧
        (rs.foldl (fun s r => s.register r.1 (.body r.2)) s).phase = none := by
    induction rs generalizing s with
    | nil => exact ⟨h,hp⟩
    | cons r rs ih => exact ih _ (h.register r.1 (.body r.2)) ((register_phase _ _ _).trans hp)
  refine hfold P.before unitOfWork ?_ rfl
  constructor
  · constructor <;> simp [unitOfWork]
  · rfl
  · intro p
    rw [owed_ahead _ (Nat.zero_le _)]
    rfl
  · simp [unitOfWork]
  · simp [unitOfWork]
  · simp [unitOfWork]

/-- Registered once the unit of work has closed. -/
def Entry.filed : Entry → Prop
  | .registered _ _ _ closed => closed = true
  | _ => False

/-- What a closure called after closing can do: register, in vain but for the
handler arrays. -/
structure Grown (s t : State) (n : ℕ) : Prop where
  closed : t.closed = true
  log : ∃ l, t.log = s.log ++ l ∧ ∀ e ∈ l, e.filed
  added : ∀ slot, ∃ new, t.at slot = s.at slot ++ new ∧ pendingWeight new ≤ n
  ledger : Ledger s → Ledger t

theorem Grown.refl {s : State} (hc : s.closed = true) (n : ℕ) : Grown s s n :=
  ⟨hc,⟨[],by simp⟩,fun _ => ⟨[],by simp⟩,id⟩

theorem Grown.trans {s t u : State} {n m : ℕ} (h : Grown s t n) (k : Grown t u m) :
    Grown s u (n+m) := by
  refine ⟨k.closed,?_,?_,fun hs => k.ledger (h.ledger hs)⟩
  · obtain ⟨l,hl,hle⟩ := h.log
    obtain ⟨l',hl',hle'⟩ := k.log
    refine ⟨l ++ l',by rw [hl',hl,List.append_assoc],?_⟩
    intro e he
    rcases List.mem_append.mp he with he | he
    · exact hle e he
    · exact hle' e he
  · intro slot
    obtain ⟨new,hn,hw⟩ := h.added slot
    obtain ⟨new',hn',hw'⟩ := k.added slot
    refine ⟨new ++ new',by rw [hn',hn,List.append_assoc],?_⟩
    rw [pendingWeight_append]
    omega

theorem grown_register {s : State} (hc : s.closed = true) (slot : Slot) (task : Task) :
    Grown s (s.register slot task) task.weight := by
  refine ⟨by simpa using hc,⟨_,register_log s slot task,?_⟩,?_,fun h => h.register slot task⟩
  · intro e he
    rw [List.mem_singleton.mp he]
    exact hc
  · intro slot'
    refine ⟨_,register_at s slot task slot',?_⟩
    split_ifs
    · rw [pendingWeight_cons]
      exact Nat.le_refl _
    · exact Nat.zero_le _

theorem perform_grown {s : State} (hc : s.closed = true) (es : List Effect) :
    Grown s (perform es s).state (effectsWeight es) := by
  induction es generalizing s with
  | nil => exact Grown.refl hc _
  | cons e es ih =>
      cases e with
      | register slot effects throws =>
          have hreg := grown_register hc slot (.body ⟨effects,throws⟩)
          exact hreg.trans (ih hreg.closed)
      | emitUpdate task =>
          simpa [perform,requireInvocation,hc,Result.andThen,Result.state] using Grown.refl hc _

theorem run_grown {s : State} (hc : s.closed = true) (task : Task) :
    ∃ n, n+1 = task.weight ∧ Grown s (task.run s).state n := by
  cases task with
  | body b =>
      refine ⟨effectsWeight b.effects,rfl,?_⟩
      change Grown s ((perform b.effects s).andThen (throwing b.throws)).state _
      rw [andThen_throwing_state]
      exact perform_grown hc b.effects
  | updates =>
      refine ⟨0,rfl,?_⟩
      change Grown s (runUpdates _ s).state _
      rw [runUpdates_state]
      exact Grown.refl hc _

/-- The unit of work while handlers are notified with `entry`, since it was `u`. -/
structure Closing (entry : ℕ → Entry) (u s : State) : Prop extends Ledger s where
  closed : s.closed = true
  tail : ∃ l, s.log = u.log ++ l ∧ ∀ e ∈ l, e.filed ∨ ∃ id, e = entry id

section Closing
variable {entry : ℕ → Entry} {u s : State}

/-- Nothing that neither a late registration nor the notification carries changes. -/
theorem Closing.kept (h : Closing entry u s) {f : Entry → Option ℕ}
    (hfiled : ∀ e, e.filed → f e = none) (hentry : ∀ id, f (entry id) = none) :
    s.log.filterMap f = u.log.filterMap f := by
  obtain ⟨l,hl,hle⟩ := h.tail
  have hnil : l.filterMap f = [] := by
    rw [List.filterMap_eq_nil_iff]
    intro e he
    rcases hle e he with hf | ⟨id,rfl⟩
    · exact hfiled e hf
    · exact hentry id
  rw [hl,List.filterMap_append,hnil,List.append_nil]

theorem Closing.notify (h : Closing entry u s) (hs : ∀ id, (entry id).serial? = none)
    (a : Pending) :
    Closing entry u (a.task.run (s.note (entry a.id))).state := by
  obtain ⟨n,-,hg⟩ := run_grown (show (s.note (entry a.id)).closed = true from h.closed) a.task
  obtain ⟨l,hl,hle⟩ := h.tail
  obtain ⟨l',hl',hle'⟩ := hg.log
  refine ⟨hg.ledger (h.toLedger.note (hs a.id)),hg.closed,l ++ [entry a.id] ++ l',?_,?_⟩
  · rw [hl']
    simp [State.note,hl]
  · intro e he
    rcases List.mem_append.mp he with he | he
    · rcases List.mem_append.mp he with he | he
      · exact hle e he
      · exact .inr ⟨a.id,List.mem_singleton.mp he⟩
    · exact .inl (hle' e he)

/-- The loop over a live handler array reaches every handler of it, once. -/
theorem runHandlers_spec {handlers : State → List Pending} {slot : Slot} {f : Entry → Option ℕ}
    (hh : ∀ s, handlers s = s.at slot) (hs : ∀ id, (entry id).serial? = none)
    (hf : ∀ id, f (entry id) = some id) (hfiled : ∀ e, e.filed → f e = none) {n i : ℕ}
    (h : Closing entry u s) (hn : pendingWeight ((s.at slot).drop i) ≤ n)
    (hi : s.log.filterMap f = ids ((s.at slot).take i)) :
    Closing entry u (runHandlers handlers entry n i s) ∧
      (runHandlers handlers entry n i s).log.filterMap f =
        ids ((runHandlers handlers entry n i s).at slot) := by
  induction n generalizing i s with
  | zero =>
      have hlen := length_le_pendingWeight ((s.at slot).drop i)
      rw [List.length_drop] at hlen
      have htake : (s.at slot).take i = s.at slot := List.take_of_length_le (by omega)
      rw [htake] at hi
      exact ⟨h,hi⟩
  | succ n ih =>
      unfold runHandlers
      rw [hh]
      cases ha : (s.at slot)[i]? with
      | none =>
          have htake : (s.at slot).take i = s.at slot :=
            List.take_of_length_le (List.getElem?_eq_none_iff.mp ha)
          rw [htake] at hi
          exact ⟨h,hi⟩
      | some a =>
          obtain ⟨hlt,hget⟩ := List.getElem?_eq_some_iff.mp ha
          obtain ⟨m,hm,hg⟩ := run_grown (show (s.note (entry a.id)).closed = true from h.closed)
            a.task
          obtain ⟨new,hnew,hw⟩ := hg.added slot
          obtain ⟨l,hl,hle⟩ := hg.log
          have hat : (s.note (entry a.id)).at slot = s.at slot := by cases slot <;> rfl
          have hdrop : (s.at slot).drop i = a::(s.at slot).drop (i+1) := by
            rw [List.drop_eq_getElem_cons hlt,hget]
          rw [hat] at hnew
          rw [hdrop,pendingWeight_cons] at hn
          refine ih (h.notify hs a) ?_ ?_
          · have hle : i+1 ≤ (s.at slot).length := hlt
            rw [hnew,List.drop_append_of_le_length hle,pendingWeight_append]
            omega
          · have hnil : l.filterMap f = [] := by
              rw [List.filterMap_eq_nil_iff]
              exact fun e he => hfiled e (hle e he)
            have htake : (s.at slot).take (i+1) = (s.at slot).take i ++ [a] := by
              rw [List.take_add_one,ha]
              rfl
            rw [hl,hnew,List.take_append_of_le_length hlt,htake,ids_append,← hi]
            simp [State.note,hnil,hf]

theorem Ledger.closing (h : Ledger s) (entry : ℕ → Entry) :
    Closing entry s {s with closed := true} :=
  ⟨⟨h.serials,h.fresh,h.errors,h.completes⟩,rfl,[],by simp⟩

theorem Closing.mem_threw (h : Closing entry u s) (hentry : ∀ id, entry id ≠ .threw) :
    Entry.threw ∈ s.log ↔ Entry.threw ∈ u.log := by
  obtain ⟨l,hl,hle⟩ := h.tail
  rw [hl,List.mem_append]
  refine or_iff_left fun hm => ?_
  rcases hle _ hm with hf | ⟨id,hid⟩
  · exact hf
  · exact hentry id hid.symm

theorem runCompleteHandlers_spec (h : Ledger s) (hnone : s.log.filterMap Entry.completed? = []) :
    Closing .completed s (runCompleteHandlers s) ∧
      (runCompleteHandlers s).log.filterMap Entry.completed? =
        ids (runCompleteHandlers s).completeHandlers := by
  refine runHandlers_spec (fun s => show s.completeHandlers = s.at .whenComplete from rfl)
    (fun _ => rfl) (fun _ => rfl) ?_ (h.closing _) (Nat.le_refl _) hnone
  intro e he
  cases e <;> simp_all [Entry.filed,Entry.completed?]

theorem runErrorHandlers_spec (error : Failure) (h : Ledger s)
    (hnone : s.log.filterMap Entry.errorHandled? = []) :
    Closing (fun id => .errorHandled id error s.phase) s (runErrorHandlers error s) ∧
      (runErrorHandlers error s).log.filterMap Entry.errorHandled? =
        ids (runErrorHandlers error s).errorHandlers := by
  refine runHandlers_spec (fun s => show s.errorHandlers = s.at .onError from rfl)
    (fun _ => rfl) (fun _ => rfl) ?_ (h.closing _) (Nat.le_refl _) hnone
  intro e he
  cases e <;> simp_all [Entry.filed,Entry.errorHandled?]

theorem filed_turn {e : Entry} (h : e.filed) : e.turn? = none := by
  cases e <;> simp_all [Entry.filed,Entry.turn?]

theorem filed_ran {e : Entry} (p : Phase) (h : e.filed) : e.ran? p = none := by
  cases e <;> simp_all [Entry.filed,Entry.ran?]

theorem filed_due {e : Entry} (p : Phase) (h : e.filed) : e.due? p = none := by
  cases e <;> simp_all [Entry.filed,Entry.due?]

theorem calm_errorHandled {l : List Entry} (h : ∀ e ∈ l, e.calm) :
    l.filterMap Entry.errorHandled? = [] := by
  rw [List.filterMap_eq_nil_iff]
  intro e he
  have := h e he
  cases e <;> simp_all [Entry.calm,Entry.errorHandled?]

theorem calm_completed {l : List Entry} (h : ∀ e ∈ l, e.calm) :
    l.filterMap Entry.completed? = [] := by
  rw [List.filterMap_eq_nil_iff]
  intro e he
  have := h e he
  cases e <;> simp_all [Entry.calm,Entry.completed?]

theorem calm_threw {l : List Entry} (h : ∀ e ∈ l, e.calm) : Entry.threw ∉ l :=
  fun hm => h _ hm

/-- A run without a throw is lawful exactly when the handler left nothing. -/
theorem settle_done_lawful {left : List ℕ} (h : Settled left .afterCommit s) :
    Lawful (settle (.done s)).state.log ↔ left = [] := by
  obtain ⟨lost,⟨hrun,hphase⟩,howed⟩ := h
  obtain ⟨hc,hdone⟩ := runCompleteHandlers_spec hrun.toLedger (calm_completed hrun.calm)
  change Lawful (runCompleteHandlers s).log ↔ left = []
  generalize runCompleteHandlers s = t at hc hdone
  have hran (p : Phase) := hc.kept (fun e he => filed_ran p he) (fun _ => rfl)
  have hdue (p : Phase) : t.log.filterMap (Entry.due? p) =
      t.log.filterMap (Entry.ran? p) ++ leftAt left p := by
    rw [hran p,hc.kept (fun e he => filed_due p he) (fun _ => rfl),hrun.due p]
    rw [howed p (by cases p <;> decide)]
  have hthrew : Entry.threw ∉ t.log := by
    rw [hc.mem_threw (fun _ => by simp)]
    exact calm_threw hrun.calm
  constructor
  · intro hlaw
    have hinv := hlaw.allRan hthrew .invocation
    rw [hdue .invocation] at hinv
    exact List.append_cancel_left (hinv.symm.trans (List.append_nil _).symm)
  · intro hleft
    subst hleft
    have hall (p : Phase) : t.log.filterMap (Entry.ran? p) = t.log.filterMap (Entry.due? p) := by
      rw [hdue p]
      simp [leftAt]
    refine ⟨hc.serials,?_,fun p => hall p ▸ List.prefix_refl _,fun _ => hall,?_,?_,?_⟩
    · rw [hc.kept (fun e he => filed_turn he) (fun _ => rfl)]
      exact hrun.turns
    · intro l r hlr
      exact absurd (hlr ▸ List.mem_append_right l (List.mem_cons_self ..)) hthrew
    · exact fun hm => absurd hm hthrew
    · rw [if_neg hthrew,hc.completes]
      exact hdone

/-- A run that broke off is lawful. -/
theorem settle_threw_lawful (error : Failure) (h : Broken s) :
    Lawful (settle (.threw error s)).state.log := by
  obtain ⟨lost,rest,v,hrun,rfl⟩ := h
  have hledger := hrun.toLedger.note (e := .threw) rfl
  obtain ⟨hc,hdone⟩ := runErrorHandlers_spec error hledger (by
    simpa [State.note,Entry.errorHandled?] using calm_errorHandled hrun.calm)
  change Lawful (runErrorHandlers error (v.note .threw)).log
  generalize runErrorHandlers error (v.note .threw) = t at hc hdone
  have hthrew : Entry.threw ∈ t.log := by
    rw [hc.mem_threw (fun _ => by simp)]
    simp [State.note]
  refine ⟨hc.serials,?_,?_,fun hm => absurd hthrew hm,?_,?_,?_⟩
  · have hturn : Entry.threw.turn? = none := rfl
    rw [hc.kept (fun e he => filed_turn he) (fun _ => rfl)]
    simpa [State.note,hturn] using hrun.turns
  · intro p
    rw [hc.kept (fun e he => filed_ran p he) (fun _ => rfl),
      hc.kept (fun e he => filed_due p he) (fun _ => rfl)]
    have hdue := hrun.due p
    have hran : Entry.threw.ran? p = none := rfl
    have hnone : Entry.threw.due? p = none := rfl
    simp only [State.note,List.filterMap_append]
    rw [hdue]
    simp [hran,hnone]
  · -- The throw is the only one in the log, so what follows it is the handlers' part.
    intro l r hlr
    obtain ⟨m,hm,hme⟩ := hc.tail
    have hm' : v.log ++ .threw::m = l ++ .threw::r := by
      rw [← hlr,hm]
      simp [State.note]
    have hnot : Entry.threw ∉ v.log := calm_threw hrun.calm
    have hnotm : Entry.threw ∉ m := by
      intro hmem
      rcases hme _ hmem with hf | ⟨id,hid⟩
      · exact hf
      · cases hid
    have hr : m = r := by
      have hsplit := (List.append_cons_inj_of_notMem hnot hnotm).mp hm'
      exact hsplit.2.2
    rw [← hr,List.filterMap_eq_nil_iff]
    intro e he
    rcases hme e he with hf | ⟨id,rfl⟩
    · exact filed_turn hf
    · rfl
  · intro
    rw [hc.errors]
    exact hdone
  · rw [if_pos hthrew,hc.kept ?_ (fun _ => rfl)]
    · simpa [State.note,Entry.completed?] using calm_completed hrun.calm
    · intro e he
      cases e <;> simp_all [Entry.filed,Entry.completed?]

end Closing

end Kronos.UnitOfWork
