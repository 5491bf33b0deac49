import Kronos.Postgres.TransactionGlue

/-!
# When a transaction ends with its unit of work

The hooks of a transaction are registered when its begin returns. `Placed` says,
for the moment of that and for where `execute` stands now, which hook is still to
be called or what it has done: in the phases the commit waits in the bucket of
COMMIT, after a failure the rollback among the handlers that are left, and what
returns later than these has nobody to call it.
-/
namespace Kronos.Postgres.TransactionGlue
open Kronos.Lib.Transition Kronos.UnitOfWork

/-- What a transaction whose begin returned at that moment can still look to. -/
def Placed (s : State) : Moment → Control → Prop
  | .inPhases, .notStarted => s.ending = none ∧ .commitTransaction ∈ s.buckets .commit
  | .inPhases, .handler => s.ending = none ∧ .commitTransaction ∈ s.buckets .commit
  | .inPhases, .running .commit bucket =>
      (s.ending = none ∧ (.commitTransaction ∈ bucket ∨ .commitTransaction ∈ s.buckets .commit)) ∨
        s.ending = some .committed
  | .inPhases, .running .afterCommit _ => s.ending = some .committed
  | .inPhases, .running _ _ => s.ending = none ∧ .commitTransaction ∈ s.buckets .commit
  | .inPhases, .resolved => s.ending = some .committed
  | .inAfterCommit, .running .afterCommit _ => s.ending = none
  | .inAfterCommit, .resolved => s.ending = none
  | .late, .resolved => s.ending = none
  | .late, .rejected => s.ending = none
  | .late, _ => False
  | _, .failing k => s.ending ≠ none ∨ .rollbackTransaction ∈ s.errorHandlers.drop k
  | _, .rejected => s.ending ≠ none
  | _, _ => False

/-- What holds of every state reached. -/
structure Inv (s : State) : Prop where
  unopened : s.begunIn = none → s.opening ≠ .opened ∧ s.begun = 0 ∧ s.ending = none
  opened : ∀ moment, s.begunIn = some moment →
    s.opening = .opened ∧ s.begun = 1 ∧ Placed s moment s.control
  flag : s.committed = true ↔ s.ending = some .committed
  commitBucket : ∀ phase, .commitTransaction ∈ s.buckets phase → phase = .commit
  commitRunning : ∀ phase bucket, s.control = .running phase bucket →
    .commitTransaction ∈ bucket → phase = .commit
  ready : ∀ phase bucket, s.control = .running phase bucket →
    s.prepareThrew = false ∧ (phase = .commit ∨ phase = .afterCommit → s.prepared = true)
  quiet : s.control = .notStarted ∨ s.control = .handler → s.prepareThrew = false
  prepared : s.ending = some .committed → s.prepared = true ∧ s.prepareThrew = false
  within : ∀ k, s.control = .failing k → k ≤ s.errorHandlers.length
  hooked : s.begunIn ≠ none → .rollbackTransaction ∈ s.errorHandlers

theorem inv_initial : Inv initial where
  unopened := fun _ => ⟨fun h => (by cases h), rfl, rfl⟩
  opened := by
    intro moment h
    cases h
  flag := ⟨fun h => (by cases h), fun h => by cases h⟩
  commitBucket := by
    intro phase h
    cases h
  commitRunning := by
    intro phase bucket h
    cases h
  ready := by
    intro phase bucket h
    cases h
  quiet := fun _ => rfl
  prepared := by
    intro h
    cases h
  within := by
    intro k h
    cases h
  hooked := fun h => absurd rfl h

variable {s t : State}

/-- More registered, and the same ending. -/
theorem Placed.mono {moment : Moment} {control : Control} (h : Placed s moment control)
    (hending : t.ending = s.ending)
    (hbucket : .commitTransaction ∈ s.buckets .commit → .commitTransaction ∈ t.buckets .commit)
    (hhandlers : ∀ k, .rollbackTransaction ∈ s.errorHandlers.drop k →
      .rollbackTransaction ∈ t.errorHandlers.drop k) : Placed t moment control := by
  unfold Placed at h ⊢
  split at h
  · exact ⟨hending.trans h.1, hbucket h.2⟩
  · exact ⟨hending.trans h.1, hbucket h.2⟩
  · rcases h with ⟨hnone, hrunning | hmem⟩ | hcommitted
    · exact Or.inl ⟨hending.trans hnone, Or.inl hrunning⟩
    · exact Or.inl ⟨hending.trans hnone, Or.inr (hbucket hmem)⟩
    · exact Or.inr (hending.trans hcommitted)
  · exact hending.trans h
  · exact ⟨hending.trans h.1, hbucket h.2⟩
  · exact hending.trans h
  · exact hending.trans h
  · exact hending.trans h
  · exact hending.trans h
  · exact hending.trans h
  · exact h
  · rename_i k _
    rcases h with hended | hdue
    · exact Or.inl (hending ▸ hended)
    · exact Or.inr (hhandlers k hdue)
  · exact hending ▸ h
  · exact h

/-- `execute` stands before COMMIT. -/
def Control.waits : Control → Prop
  | .notStarted => True
  | .handler => True
  | .running .preInvocation _ => True
  | .running .invocation _ => True
  | .running .prepareCommit _ => True
  | _ => False

/-- Before COMMIT a transaction that is begun has its commit waiting in the bucket. -/
theorem placed_waiting {moment : Moment} {control : Control} (h : control.waits) :
    Placed s moment control ↔
      moment = .inPhases ∧ s.ending = none ∧ .commitTransaction ∈ s.buckets .commit := by
  unfold Control.waits at h
  split at h
  case h_6 => cases h
  all_goals
    cases moment with
    | inPhases => exact ⟨fun hplaced => ⟨rfl, hplaced⟩, fun hboth => hboth.2⟩
    | inAfterCommit => exact ⟨fun hno => hno.elim, fun hno => by cases hno.1⟩
    | inFailing => exact ⟨fun hno => hno.elim, fun hno => by cases hno.1⟩
    | late => exact ⟨fun hno => hno.elim, fun hno => by cases hno.1⟩

/-- From one place before COMMIT to another. -/
theorem Placed.moves {moment : Moment} {before control : Control} (h : Placed s moment before)
    (hbefore : before.waits) (hcontrol : control.waits) (hending : t.ending = s.ending)
    (hbucket : t.buckets .commit = s.buckets .commit) : Placed t moment control := by
  rw [placed_waiting hcontrol, hending, hbucket]
  exact (placed_waiting hbefore).mp h

theorem mem_drop_append {α : Type} {a b : α} {l : List α} {k : ℕ} (h : a ∈ l.drop k) :
    a ∈ (l ++ [b]).drop k := by
  rw [List.drop_append]
  exact List.mem_append_left _ h

/-- An action of the program is registered. -/
theorem Inv.register (h : Inv s) (phase : Phase) : Inv (s.push phase .user) where
  unopened := h.unopened
  opened := by
    intro moment hmoment
    obtain ⟨hopening, hbegun, hplaced⟩ := h.opened moment hmoment
    refine ⟨hopening, hbegun, hplaced.mono rfl ?_ fun _ hdue => hdue⟩
    intro hmem
    change PhaseAction.commitTransaction ∈ (if Phase.commit = phase then _ else _)
    split_ifs
    · exact List.mem_append_left _ hmem
    · exact hmem
  flag := h.flag
  commitBucket := by
    intro p hmem
    change PhaseAction.commitTransaction ∈ (if p = phase then _ else _) at hmem
    split_ifs at hmem
    · rcases List.mem_append.mp hmem with hold | hnew
      · exact h.commitBucket p hold
      · cases List.mem_singleton.mp hnew
    · exact h.commitBucket p hmem
  commitRunning := h.commitRunning
  ready := h.ready
  quiet := h.quiet
  prepared := h.prepared
  within := h.within
  hooked := h.hooked

theorem Inv.registerError (h : Inv s) :
    Inv { s with errorHandlers := s.errorHandlers ++ [.user] } where
  unopened := h.unopened
  opened := by
    intro moment hmoment
    obtain ⟨hopening, hbegun, hplaced⟩ := h.opened moment hmoment
    exact ⟨hopening, hbegun, hplaced.mono rfl (fun hmem => hmem) fun _ hdue => mem_drop_append hdue⟩
  flag := h.flag
  commitBucket := h.commitBucket
  commitRunning := h.commitRunning
  ready := h.ready
  quiet := h.quiet
  prepared := h.prepared
  within := by
    intro k hk
    have hle := h.within k hk
    rw [List.length_append]
    omega
  hooked := fun hne => List.mem_append_left _ (h.hooked hne)

/-- A begin is asked for, or it failed. -/
theorem Inv.opens (h : Inv s) {opening : Opening} (hbefore : s.opening ≠ .opened)
    (hopening : opening ≠ .opened) : Inv { s with opening := opening } where
  unopened := fun hnone => ⟨hopening, (h.unopened hnone).2⟩
  opened := fun moment hmoment => absurd (h.opened moment hmoment).1 hbefore
  flag := h.flag
  commitBucket := h.commitBucket
  commitRunning := h.commitRunning
  ready := h.ready
  quiet := h.quiet
  prepared := h.prepared
  within := h.within
  hooked := h.hooked

/-- The begin of the transaction returns, wherever `execute` stands. -/
theorem Inv.begins (h : Inv s) (hpending : s.opening = .pending) : Inv s.begins := by
  have hunopened : s.begunIn = none := by
    cases hmoment : s.begunIn with
    | none => rfl
    | some moment =>
        have hopened := (h.opened moment hmoment).1
        rw [hpending] at hopened
        cases hopened
  obtain ⟨-, hbegun, hending⟩ := h.unopened hunopened
  have hcommit : .commitTransaction ∈ s.begins.buckets .commit :=
    List.mem_append_right _ (List.mem_singleton_self _)
  refine ⟨?_, ?_, h.flag, ?_, h.commitRunning, h.ready, h.quiet, h.prepared, ?_, ?_⟩
  · intro hnone
    cases hnone
  · intro moment hmoment
    cases hmoment
    refine ⟨rfl, ?_, ?_⟩
    · change s.begun + 1 = 1
      rw [hbegun]
    · change Placed s.begins s.moment s.control
      unfold State.moment
      cases hcontrol : s.control with
      | notStarted => exact ⟨hending, hcommit⟩
      | handler => exact ⟨hending, hcommit⟩
      | running phase bucket =>
          cases phase with
          | commit => exact Or.inl ⟨hending, Or.inr hcommit⟩
          | afterCommit => exact hending
          | preInvocation => exact ⟨hending, hcommit⟩
          | invocation => exact ⟨hending, hcommit⟩
          | prepareCommit => exact ⟨hending, hcommit⟩
      | failing k =>
          refine Or.inr ?_
          change ErrorHandler.rollbackTransaction ∈
            (s.errorHandlers ++ [ErrorHandler.rollbackTransaction]).drop k
          rw [List.drop_append_of_le_length (h.within k hcontrol)]
          exact List.mem_append_right _ (List.mem_singleton_self _)
      | resolved => exact hending
      | rejected => exact hending
  · intro phase hmem
    change PhaseAction.commitTransaction ∈ (if phase = Phase.commit then _ else _) at hmem
    split_ifs at hmem with heq
    · exact heq
    · exact h.commitBucket phase hmem
  · intro k hk
    have hle := h.within k hk
    change k ≤ (s.errorHandlers ++ [_]).length
    rw [List.length_append]
    omega
  · exact fun _ => List.mem_append_right _ (List.mem_singleton_self _)

/-- A bucket is taken to be run. -/
theorem Inv.take (h : Inv s) {phase : Phase}
    (hplaced : ∀ moment, s.begunIn = some moment →
      Placed (s.take phase) moment (.running phase (s.buckets phase)))
    (hthrew : s.prepareThrew = false)
    (hprepared : phase = .commit ∨ phase = .afterCommit → s.prepared = true) :
    Inv (s.take phase) where
  unopened := h.unopened
  opened := by
    intro moment hmoment
    obtain ⟨hopening, hbegun, -⟩ := h.opened moment hmoment
    exact ⟨hopening, hbegun, hplaced moment hmoment⟩
  flag := h.flag
  commitBucket := by
    intro p hmem
    change PhaseAction.commitTransaction ∈ (if p = phase then [] else s.buckets p) at hmem
    split_ifs at hmem
    · cases hmem
    · exact h.commitBucket p hmem
  commitRunning := by
    intro p bucket hcontrol hmem
    cases hcontrol
    exact h.commitBucket phase hmem
  ready := by
    intro p bucket hcontrol
    cases hcontrol
    exact ⟨hthrew, hprepared⟩
  quiet := by
    rintro (hcontrol | hcontrol)
    · cases hcontrol
    · cases hcontrol
  prepared := h.prepared
  within := by
    intro k hcontrol
    cases hcontrol
  hooked := h.hooked

/-- The same phase goes on with what was registered meanwhile. -/
theorem Placed.again {phase : Phase} {moment : Moment} (h : Placed s moment (.running phase [])) :
    Placed (s.take phase) moment (.running phase (s.buckets phase)) := by
  cases moment with
  | inPhases =>
      cases phase with
      | commit =>
          rcases h with ⟨hnone, hno | hmem⟩ | hcommitted
          · cases hno
          · exact Or.inl ⟨hnone, Or.inl hmem⟩
          · exact Or.inr hcommitted
      | preInvocation => exact h
      | invocation => exact h
      | prepareCommit => exact h
      | afterCommit => exact h
  | inAfterCommit =>
      cases phase with
      | afterCommit => exact h
      | preInvocation => exact h
      | invocation => exact h
      | prepareCommit => exact h
      | commit => exact h
  | inFailing => exact h
  | late => exact h

/-- A phase is over: the next one begins, or the handler is called, or all is done. -/
theorem Inv.leave (h : Inv s) {phase : Phase} (hcontrol : s.control = .running phase [])
    (hempty : s.buckets phase = []) : Inv (s.leave phase) := by
  obtain ⟨hthrew, hprepared⟩ := h.ready phase [] hcontrol
  have hplaced : ∀ moment, s.begunIn = some moment → Placed s moment (.running phase []) := by
    intro moment hmoment
    rw [← hcontrol]
    exact (h.opened moment hmoment).2.2
  cases phase with
  | preInvocation =>
      refine h.take ?_ hthrew (fun hno => by rcases hno with hno | hno <;> cases hno)
      exact fun moment hmoment => (hplaced moment hmoment).moves trivial trivial rfl rfl
  | invocation =>
      refine ⟨h.unopened, ?_, h.flag, h.commitBucket, ?_, ?_, fun _ => hthrew, h.prepared,
        ?_, h.hooked⟩
      · intro moment hmoment
        obtain ⟨hopening, hbegun, -⟩ := h.opened moment hmoment
        exact ⟨hopening, hbegun, (hplaced moment hmoment).moves trivial trivial rfl rfl⟩
      · intro p bucket hno
        cases hno
      · intro p bucket hno
        cases hno
      · intro k hno
        cases hno
  | prepareCommit =>
      have hmarked : Inv { s with prepared := true } :=
        ⟨h.unopened, h.opened, h.flag, h.commitBucket, h.commitRunning,
          fun p bucket hp => ⟨(h.ready p bucket hp).1, fun _ => rfl⟩, h.quiet,
          fun hcommitted => ⟨rfl, (h.prepared hcommitted).2⟩, h.within, h.hooked⟩
      refine hmarked.take ?_ hthrew (fun _ => rfl)
      intro moment hmoment
      have hbefore := hplaced moment hmoment
      cases moment with
      | inPhases => exact Or.inl ⟨hbefore.1, Or.inl hbefore.2⟩
      | inAfterCommit => exact hbefore
      | inFailing => exact hbefore
      | late => exact hbefore
  | commit =>
      refine h.take ?_ hthrew (fun _ => hprepared (Or.inl rfl))
      intro moment hmoment
      have hbefore := hplaced moment hmoment
      cases moment with
      | inPhases =>
          rcases hbefore with ⟨-, hno | hmem⟩ | hcommitted
          · cases hno
          · rw [hempty] at hmem
            cases hmem
          · exact hcommitted
      | inAfterCommit => cases hbefore
      | inFailing => cases hbefore
      | late => cases hbefore
  | afterCommit =>
      refine ⟨h.unopened, ?_, h.flag, h.commitBucket, ?_, ?_, ?_, h.prepared, ?_, h.hooked⟩
      · intro moment hmoment
        obtain ⟨hopening, hbegun, -⟩ := h.opened moment hmoment
        have hbefore := hplaced moment hmoment
        refine ⟨hopening, hbegun, ?_⟩
        cases moment with
        | inPhases => exact hbefore
        | inAfterCommit => exact hbefore
        | inFailing => cases hbefore
        | late => cases hbefore
      · intro p bucket hno
        cases hno
      · intro p bucket hno
        cases hno
      · rintro (hno | hno)
        · cases hno
        · cases hno
      · intro k hno
        cases hno

/-- Something threw: the error handlers are next, from the first on. -/
theorem Inv.fail (h : Inv s) (hlive : ∀ moment, s.begunIn = some moment → moment ≠ .late)
    (hprepared : s.ending = some .committed → t.prepareThrew = false)
    (hframe : t = { s.fail with prepareThrew := t.prepareThrew }) : Inv t := by
  rw [hframe]
  refine ⟨h.unopened, ?_, h.flag, h.commitBucket, ?_, ?_, ?_, ?_, ?_, h.hooked⟩
  · intro moment hmoment
    obtain ⟨hopening, hbegun, -⟩ := h.opened moment hmoment
    have hdue := h.hooked fun hnone => by cases hnone.symm.trans hmoment
    refine ⟨hopening, hbegun, ?_⟩
    cases moment with
    | inPhases => exact Or.inr hdue
    | inAfterCommit => exact Or.inr hdue
    | inFailing => exact Or.inr hdue
    | late => exact absurd rfl (hlive _ hmoment)
  · intro p bucket hno
    cases hno
  · intro p bucket hno
    cases hno
  · rintro (hno | hno)
    · cases hno
    · cases hno
  · intro hcommitted
    exact ⟨(h.prepared hcommitted).1, hprepared hcommitted⟩
  · intro k hk
    cases hk
    exact Nat.zero_le _

/-- While `execute` runs, no begin has returned late. -/
theorem Inv.not_late (h : Inv s) (hresolved : s.control ≠ .resolved)
    (hrejected : s.control ≠ .rejected) :
    ∀ moment, s.begunIn = some moment → moment ≠ .late := by
  rintro moment hmoment rfl
  obtain ⟨-, -, hplaced⟩ := h.opened _ hmoment
  cases hcontrol : s.control with
  | resolved => exact hresolved hcontrol
  | rejected => exact hrejected hcontrol
  | notStarted =>
      rw [hcontrol] at hplaced
      exact hplaced
  | running phase bucket =>
      rw [hcontrol] at hplaced
      exact hplaced
  | handler =>
      rw [hcontrol] at hplaced
      exact hplaced
  | failing k =>
      rw [hcontrol] at hplaced
      exact hplaced

/-- An action of the program is done. -/
theorem Inv.done (h : Inv s) {phase : Phase} {bucket : List PhaseAction}
    (hcontrol : s.control = .running phase (.user::bucket)) :
    Inv { s with control := .running phase bucket } := by
  refine ⟨h.unopened, ?_, h.flag, h.commitBucket, ?_, ?_, ?_, h.prepared, ?_, h.hooked⟩
  · intro moment hmoment
    obtain ⟨hopening, hbegun, hplaced⟩ := h.opened moment hmoment
    rw [hcontrol] at hplaced
    refine ⟨hopening, hbegun, ?_⟩
    cases moment with
    | inPhases =>
        cases phase with
        | commit =>
            rcases hplaced with ⟨hnone, hrunning | hmem⟩ | hcommitted
            · rcases List.mem_cons.mp hrunning with hno | hmem
              · cases hno
              · exact Or.inl ⟨hnone, Or.inl hmem⟩
            · exact Or.inl ⟨hnone, Or.inr hmem⟩
            · exact Or.inr hcommitted
        | preInvocation => exact hplaced
        | invocation => exact hplaced
        | prepareCommit => exact hplaced
        | afterCommit => exact hplaced
    | inAfterCommit =>
        cases phase with
        | afterCommit => exact hplaced
        | preInvocation => exact hplaced
        | invocation => exact hplaced
        | prepareCommit => exact hplaced
        | commit => exact hplaced
    | inFailing => exact hplaced
    | late => exact hplaced
  · intro p b hp hmem
    cases hp
    exact h.commitRunning phase _ hcontrol (List.mem_cons_of_mem _ hmem)
  · intro p b hp
    cases hp
    exact h.ready phase _ hcontrol
  · rintro (hno | hno)
    · cases hno
    · cases hno
  · intro k hno
    cases hno

/-- In COMMIT the transaction is open or committed. -/
theorem Inv.committing (h : Inv s) {phase : Phase} {bucket : List PhaseAction}
    (hcontrol : s.control = .running phase (.commitTransaction::bucket)) :
    phase = .commit ∧ (∀ moment, s.begunIn = some moment → moment = .inPhases) ∧
      (s.ending = none ∨ s.ending = some .committed) := by
  obtain rfl := h.commitRunning phase _ hcontrol List.mem_cons_self
  refine ⟨rfl, ?_, ?_⟩
  · intro moment hmoment
    obtain ⟨-, -, hplaced⟩ := h.opened moment hmoment
    rw [hcontrol] at hplaced
    cases moment with
    | inPhases => rfl
    | inAfterCommit => cases hplaced
    | inFailing => cases hplaced
    | late => cases hplaced
  · cases hmoment : s.begunIn with
    | none => exact Or.inl (h.unopened hmoment).2.2
    | some moment =>
        obtain ⟨-, -, hplaced⟩ := h.opened moment hmoment
        rw [hcontrol] at hplaced
        cases moment with
        | inPhases =>
            rcases hplaced with ⟨hnone, -⟩ | hcommitted
            · exact Or.inl hnone
            · exact Or.inr hcommitted
        | inAfterCommit => cases hplaced
        | inFailing => cases hplaced
        | late => cases hplaced

/-- The commit of the transaction is done. -/
theorem Inv.commits (h : Inv s) {phase : Phase} {bucket : List PhaseAction}
    (hcontrol : s.control = .running phase (.commitTransaction::bucket))
    (hopened : s.begunIn ≠ none) :
    Inv { s.endAs .committed with control := .running phase bucket, committed := true } := by
  obtain ⟨rfl, hmoments, hending⟩ := h.committing hcontrol
  obtain ⟨hthrew, hprepared⟩ := h.ready _ _ hcontrol
  have hafter : s.ending.or (some .committed) = some .committed := by
    rcases hending with hnone | hcommitted
    · rw [hnone]
      rfl
    · rw [hcommitted]
      rfl
  refine ⟨fun hnone => absurd hnone hopened, ?_, ?_, h.commitBucket, ?_, ?_, ?_, ?_, ?_, h.hooked⟩
  · intro moment hmoment
    obtain ⟨hopening, hbegun, -⟩ := h.opened moment hmoment
    obtain rfl := hmoments moment hmoment
    exact ⟨hopening, hbegun, Or.inr hafter⟩
  · exact ⟨fun _ => hafter, fun _ => rfl⟩
  · intro p b hp hmem
    cases hp
    rfl
  · intro p b hp
    cases hp
    exact ⟨hthrew, hprepared⟩
  · rintro (hno | hno)
    · cases hno
    · cases hno
  · exact fun _ => ⟨hprepared (Or.inl rfl), hthrew⟩
  · intro k hno
    cases hno

/-- The database refused the commit. -/
theorem Inv.refused (h : Inv s) (hending : s.ending = none) (hopened : s.begunIn ≠ none)
    (hlive : ∀ moment, s.begunIn = some moment → moment ≠ .late) :
    Inv (s.endAs .rolledBack).fail := by
  have hafter : s.ending.or (some .rolledBack) = some .rolledBack := by
    rw [hending]
    rfl
  refine ⟨fun hnone => absurd hnone hopened, ?_, ?_, h.commitBucket, ?_, ?_, ?_, ?_, ?_, h.hooked⟩
  · intro moment hmoment
    obtain ⟨hopening, hbegun, -⟩ := h.opened moment hmoment
    have hended : s.ending.or (some .rolledBack) ≠ none := by
      rw [hafter]
      exact Option.some_ne_none _
    refine ⟨hopening, hbegun, ?_⟩
    cases moment with
    | inPhases => exact Or.inl hended
    | inAfterCommit => exact Or.inl hended
    | inFailing => exact Or.inl hended
    | late => exact absurd rfl (hlive _ hmoment)
  · have hflag := h.flag
    rw [hending] at hflag
    change s.committed = true ↔ s.ending.or (some .rolledBack) = some .committed
    rw [hafter]
    exact ⟨fun hcommitted => absurd (hflag.mp hcommitted) (by decide), fun hno => by cases hno⟩
  · intro p b hno
    cases hno
  · intro p b hno
    cases hno
  · rintro (hno | hno)
    · cases hno
    · cases hno
  · intro hcommitted
    change s.ending.or (some .rolledBack) = some .committed at hcommitted
    rw [hafter] at hcommitted
    cases hcommitted
  · intro k hk
    cases hk
    exact Nat.zero_le _

/-- The next error handler has been called; it may have ended the transaction. -/
theorem Inv.handled (h : Inv s) {k : ℕ} (hcontrol : s.control = .failing k)
    (hk : k < s.errorHandlers.length) (hending : t.ending = s.ending ∨ t.ending = some .rolledBack)
    (hflag : t.ending = some .rolledBack → s.committed = false)
    (hopened : s.begunIn = none → t.ending = none)
    (hpassed : s.errorHandlers[k]? = some .rollbackTransaction → t.ending ≠ none)
    (hframe : t = { s with control := .failing (k + 1), ending := t.ending }) : Inv t := by
  have hkeeps : s.ending ≠ none → t.ending ≠ none := by
    intro hne
    rcases hending with hsame | hrolled
    · rw [hsame]
      exact hne
    · rw [hrolled]
      exact Option.some_ne_none _
  have hcommitted : t.ending = some .committed ↔ s.ending = some .committed := by
    rcases hending with hsame | hrolled
    · rw [hsame]
    · rw [hrolled]
      refine ⟨fun hno => (by cases hno), fun hno => ?_⟩
      rw [h.flag.mpr hno] at hflag
      cases hflag hrolled
  rw [hframe]
  refine ⟨?_, ?_, h.flag.trans hcommitted.symm, h.commitBucket, ?_, ?_, ?_, ?_, ?_, h.hooked⟩
  · intro hnone
    obtain ⟨hopening, hbegun, -⟩ := h.unopened hnone
    exact ⟨hopening, hbegun, hopened hnone⟩
  · intro moment hmoment
    obtain ⟨hopening, hbegun, hplaced⟩ := h.opened moment hmoment
    rw [hcontrol] at hplaced
    have hnext : s.ending ≠ none ∨ .rollbackTransaction ∈ s.errorHandlers.drop k →
        t.ending ≠ none ∨ .rollbackTransaction ∈ s.errorHandlers.drop (k + 1) := by
      rintro (hended | hdue)
      · exact Or.inl (hkeeps hended)
      · rw [List.drop_eq_getElem_cons hk] at hdue
        rcases List.mem_cons.mp hdue with heq | hlater
        · exact Or.inl (hpassed (by rw [List.getElem?_eq_getElem hk, heq]))
        · exact Or.inr hlater
    refine ⟨hopening, hbegun, ?_⟩
    cases moment with
    | inPhases => exact hnext hplaced
    | inAfterCommit => exact hnext hplaced
    | inFailing => exact hnext hplaced
    | late => exact hplaced
  · intro p b hno
    cases hno
  · intro p b hno
    cases hno
  · rintro (hno | hno)
    · cases hno
    · cases hno
  · exact fun hdone => h.prepared (hcommitted.mp hdone)
  · intro j hj
    cases hj
    exact hk

/-- The error handlers are through. -/
theorem Inv.settle (h : Inv s) {k : ℕ} (hcontrol : s.control = .failing k)
    (hk : s.errorHandlers.length ≤ k) : Inv { s with control := .rejected } := by
  refine ⟨h.unopened, ?_, h.flag, h.commitBucket, ?_, ?_, ?_, h.prepared, ?_, h.hooked⟩
  · intro moment hmoment
    obtain ⟨hopening, hbegun, hplaced⟩ := h.opened moment hmoment
    rw [hcontrol] at hplaced
    have hended : s.ending ≠ none ∨ .rollbackTransaction ∈ s.errorHandlers.drop k →
        s.ending ≠ none := by
      rintro (hended | hdue)
      · exact hended
      · rw [List.drop_eq_nil_of_le hk] at hdue
        cases hdue
    refine ⟨hopening, hbegun, ?_⟩
    cases moment with
    | inPhases => exact hended hplaced
    | inAfterCommit => exact hended hplaced
    | inFailing => exact hended hplaced
    | late => cases hplaced
  · intro p b hno
    cases hno
  · intro p b hno
    cases hno
  · rintro (hno | hno)
    · cases hno
    · cases hno
  · intro j hno
    cases hno

/-- Before a begin has returned no hook of it is anywhere. -/
structure NoHooks (s : State) : Prop where
  buckets : ∀ phase, .commitTransaction ∉ s.buckets phase
  running : ∀ phase bucket, s.control = .running phase bucket → .commitTransaction ∉ bucket
  handlers : .rollbackTransaction ∉ s.errorHandlers

theorem NoHooks.take (h : NoHooks s) (phase : Phase) : NoHooks (s.take phase) where
  buckets := by
    intro p hmem
    change PhaseAction.commitTransaction ∈ (if p = phase then [] else s.buckets p) at hmem
    split_ifs at hmem
    · cases hmem
    · exact h.buckets p hmem
  running := by
    intro p bucket hcontrol
    cases hcontrol
    exact h.buckets phase
  handlers := h.handlers

theorem NoHooks.rest (h : NoHooks s) (hbuckets : t.buckets = s.buckets)
    (hhandlers : t.errorHandlers = s.errorHandlers)
    (hcontrol : ∀ phase bucket, t.control = .running phase bucket → .commitTransaction ∉ bucket) :
    NoHooks t where
  buckets := by
    rw [hbuckets]
    exact h.buckets
  running := hcontrol
  handlers := by
    rw [hhandlers]
    exact h.handlers

theorem NoHooks.leave (h : NoHooks s) (phase : Phase) : NoHooks (s.leave phase) := by
  cases phase with
  | preInvocation => exact h.take _
  | invocation => exact h.rest rfl rfl fun _ _ hno => by cases hno
  | prepareCommit => exact (h.take .commit).rest rfl rfl (h.take .commit).running
  | commit => exact h.take _
  | afterCommit => exact h.rest rfl rfl fun _ _ hno => by cases hno

theorem NoHooks.step {a : Action} (h : s.begunIn = none → NoHooks s) (hstep : step s a = some t)
    (hnone : t.begunIn = none) : NoHooks t := by
  cases a with
  | execute =>
      simp only [TransactionGlue.step] at hstep
      split at hstep
      · cases hstep
        exact (h hnone).take _
      · cases hstep
  | register phase =>
      cases hstep
      have hs := h hnone
      refine ⟨?_, hs.running, hs.handlers⟩
      intro p hmem
      change PhaseAction.commitTransaction ∈ (if p = phase then _ else s.buckets p) at hmem
      split_ifs at hmem
      · rcases List.mem_append.mp hmem with hold | hnew
        · exact hs.buckets p hold
        · cases List.mem_singleton.mp hnew
      · exact hs.buckets p hmem
  | registerError =>
      cases hstep
      have hs := h hnone
      refine ⟨hs.buckets, hs.running, ?_⟩
      intro hmem
      rcases List.mem_append.mp hmem with hold | hnew
      · exact hs.handlers hold
      · cases List.mem_singleton.mp hnew
  | ask =>
      simp only [TransactionGlue.step] at hstep
      split at hstep
      · cases hstep
        exact (h hnone).rest rfl rfl (h hnone).running
      · cases hstep
        exact h hnone
  | begins =>
      simp only [TransactionGlue.step] at hstep
      split_ifs at hstep
      cases hstep
      cases hnone
  | beginFails =>
      simp only [TransactionGlue.step] at hstep
      split_ifs at hstep
      cases hstep
      exact (h hnone).rest rfl rfl (h hnone).running
  | done =>
      simp only [TransactionGlue.step] at hstep
      split at hstep
      · rename_i phase bucket hcontrol
        cases hstep
        refine (h hnone).rest rfl rfl ?_
        intro p b hp hmem
        cases hp
        exact (h hnone).running phase _ hcontrol (List.mem_cons_of_mem _ hmem)
      · rename_i phase bucket hcontrol
        cases hstep
        exact absurd List.mem_cons_self ((h hnone).running phase _ hcontrol)
      · cases hstep
        exact (h hnone).take _
      · cases hstep
  | throws =>
      simp only [TransactionGlue.step] at hstep
      split at hstep
      · cases hstep
        exact (h hnone).rest rfl rfl fun _ _ hno => by cases hno
      · cases hstep
        exact (h hnone).rest rfl rfl fun _ _ hno => by cases hno
      · cases hstep
        exact (h hnone).rest rfl rfl fun _ _ hno => by cases hno
      · cases hstep
  | commitFails =>
      simp only [TransactionGlue.step] at hstep
      split at hstep
      · split_ifs at hstep
        cases hstep
        exact (h hnone).rest rfl rfl fun _ _ hno => by cases hno
      · cases hstep
  | next =>
      simp only [TransactionGlue.step] at hstep
      split at hstep
      · rename_i phase hcontrol
        split_ifs at hstep
        · cases hstep
          have hbefore : s.begunIn = none := by
            cases phase <;> exact hnone
          exact (h hbefore).leave phase
        · cases hstep
          exact (h hnone).take _
      · cases hstep
  | errorHandled =>
      simp only [TransactionGlue.step] at hstep
      split at hstep
      · split at hstep
        · cases hstep
          exact (h hnone).rest rfl rfl fun _ _ hno => by cases hno
        · split_ifs at hstep
          · cases hstep
            exact (h hnone).rest rfl rfl fun _ _ hno => by cases hno
          · cases hstep
            exact (h hnone).rest rfl rfl fun _ _ hno => by cases hno
        · cases hstep
      · cases hstep
  | settle =>
      simp only [TransactionGlue.step] at hstep
      split at hstep
      · split_ifs at hstep
        cases hstep
        exact (h hnone).rest rfl rfl fun _ _ hno => by cases hno
      · cases hstep

theorem Inv.step {a : Action} (h : Inv s) (hhooks : s.begunIn = none → NoHooks s)
    (hstep : step s a = some t) : Inv t := by
  cases a with
  | execute =>
      simp only [TransactionGlue.step] at hstep
      split at hstep
      · rename_i hcontrol
        cases hstep
        refine h.take ?_ (h.quiet (Or.inl hcontrol)) (fun hno => by
          rcases hno with hno | hno <;> cases hno)
        intro moment hmoment
        obtain ⟨-, -, hplaced⟩ := h.opened moment hmoment
        rw [hcontrol] at hplaced
        exact hplaced.moves trivial trivial rfl rfl
      · cases hstep
  | register phase =>
      cases hstep
      exact h.register phase
  | registerError =>
      cases hstep
      exact h.registerError
  | ask =>
      simp only [TransactionGlue.step] at hstep
      split at hstep
      · rename_i hunasked
        cases hstep
        refine h.opens ?_ (fun hno => by cases hno)
        rw [hunasked]
        exact fun hno => by cases hno
      · cases hstep
        exact h
  | begins =>
      simp only [TransactionGlue.step] at hstep
      split_ifs at hstep with hpending
      cases hstep
      exact h.begins hpending
  | beginFails =>
      simp only [TransactionGlue.step] at hstep
      split_ifs at hstep with hpending
      cases hstep
      refine h.opens ?_ (fun hno => by cases hno)
      rw [hpending]
      exact fun hno => by cases hno
  | done =>
      simp only [TransactionGlue.step] at hstep
      split at hstep
      · rename_i phase bucket hcontrol
        cases hstep
        exact h.done hcontrol
      · rename_i phase bucket hcontrol
        cases hstep
        exact h.commits hcontrol fun hnone =>
          (hhooks hnone).running phase _ hcontrol List.mem_cons_self
      · rename_i hcontrol
        cases hstep
        refine h.take ?_ (h.quiet (Or.inr hcontrol)) (fun hno => by
          rcases hno with hno | hno <;> cases hno)
        intro moment hmoment
        obtain ⟨-, -, hplaced⟩ := h.opened moment hmoment
        rw [hcontrol] at hplaced
        exact hplaced.moves trivial trivial rfl rfl
      · cases hstep
  | throws =>
      simp only [TransactionGlue.step] at hstep
      split at hstep
      · rename_i bucket hcontrol
        cases hstep
        refine h.fail (h.not_late (by rw [hcontrol]; exact fun hno => by cases hno)
          (by rw [hcontrol]; exact fun hno => by cases hno)) ?_ rfl
        intro hcommitted
        cases hmoment : s.begunIn with
        | none =>
            rw [(h.unopened hmoment).2.2] at hcommitted
            cases hcommitted
        | some moment =>
            obtain ⟨-, -, hplaced⟩ := h.opened moment hmoment
            rw [hcontrol] at hplaced
            cases moment with
            | inPhases =>
                rw [hplaced.1] at hcommitted
                cases hcommitted
            | inAfterCommit => cases hplaced
            | inFailing => cases hplaced
            | late => cases hplaced
      · rename_i phase bucket _ hcontrol
        cases hstep
        exact h.fail (h.not_late (by rw [hcontrol]; exact fun hno => by cases hno)
          (by rw [hcontrol]; exact fun hno => by cases hno))
          (fun _ => (h.ready phase _ hcontrol).1) rfl
      · rename_i hcontrol
        cases hstep
        exact h.fail (h.not_late (by rw [hcontrol]; exact fun hno => by cases hno)
          (by rw [hcontrol]; exact fun hno => by cases hno))
          (fun _ => h.quiet (Or.inr hcontrol)) rfl
      · cases hstep
  | commitFails =>
      simp only [TransactionGlue.step] at hstep
      split at hstep
      · rename_i phase bucket hcontrol
        split_ifs at hstep with hending
        cases hstep
        exact h.refused hending
          (fun hnone => (hhooks hnone).running phase _ hcontrol List.mem_cons_self)
          (h.not_late (by rw [hcontrol]; exact fun hno => by cases hno)
            (by rw [hcontrol]; exact fun hno => by cases hno))
      · cases hstep
  | next =>
      simp only [TransactionGlue.step] at hstep
      split at hstep
      · rename_i phase hcontrol
        split_ifs at hstep with hempty
        · cases hstep
          exact h.leave hcontrol (List.isEmpty_iff.mp hempty)
        · cases hstep
          obtain ⟨hthrew, hprepared⟩ := h.ready phase [] hcontrol
          refine h.take ?_ hthrew hprepared
          intro moment hmoment
          obtain ⟨-, -, hplaced⟩ := h.opened moment hmoment
          rw [hcontrol] at hplaced
          exact hplaced.again
      · cases hstep
  | errorHandled =>
      simp only [TransactionGlue.step] at hstep
      split at hstep
      · rename_i k hcontrol
        split at hstep
        · rename_i hget
          cases hstep
          refine h.handled hcontrol (List.getElem?_eq_some_iff.mp hget).1 (Or.inl rfl) ?_
            (fun hnone => (h.unopened hnone).2.2) ?_ rfl
          · intro hrolled
            cases hflag : s.committed with
            | false => rfl
            | true =>
                have hcommitted := h.flag.mp hflag
                cases hcommitted.symm.trans hrolled
          · intro hno
            rw [hget] at hno
            cases hno
        · rename_i hget
          have hopened : s.begunIn ≠ none := fun hnone =>
            (hhooks hnone).handlers (List.mem_of_getElem? hget)
          split_ifs at hstep with hcommitted
          · cases hstep
            have hending := h.flag.mp hcommitted
            refine h.handled hcontrol (List.getElem?_eq_some_iff.mp hget).1 (Or.inl rfl) ?_
              (fun hnone => absurd hnone hopened) ?_ rfl
            · intro hrolled
              cases hending.symm.trans hrolled
            · intro _ hnone
              cases hending.symm.trans hnone
          · cases hstep
            have hfalse : s.committed = false := by simpa using hcommitted
            refine h.handled hcontrol (List.getElem?_eq_some_iff.mp hget).1 ?_ (fun _ => hfalse)
              (fun hnone => absurd hnone hopened) ?_ rfl
            · change s.ending.or (some .rolledBack) = s.ending ∨
                s.ending.or (some .rolledBack) = some .rolledBack
              cases s.ending with
              | none => exact Or.inr rfl
              | some ending => exact Or.inl rfl
            · intro _
              change s.ending.or (some .rolledBack) ≠ none
              cases s.ending with
              | none => exact Option.some_ne_none _
              | some ending => exact Option.some_ne_none _
        · cases hstep
      · cases hstep
  | settle =>
      simp only [TransactionGlue.step] at hstep
      split at hstep
      · rename_i k hcontrol
        split_ifs at hstep with hk
        cases hstep
        exact h.settle hcontrol hk
      · cases hstep

theorem inv_of_reach (h : Reach step always initial s) : Inv s := by
  have hboth : Inv s ∧ (s.begunIn = none → NoHooks s) := by
    refine h.invariant (I := fun s => Inv s ∧ (s.begunIn = none → NoHooks s)) ⟨inv_initial, ?_⟩ ?_
    · intro _
      refine ⟨fun _ hno => (by cases hno), fun _ _ hno => (by cases hno), fun hno => by cases hno⟩
    · intro s a t _ ⟨hinv, hhooks⟩ _ hstep
      exact ⟨hinv.step hhooks hstep, NoHooks.step hhooks hstep⟩
  exact hboth.1

/-- What settling means, once the begin has returned. -/
theorem settled_iff (hopening : s.opening = .opened) :
    s.settled = true ↔ s.control = .resolved ∨ s.control = .rejected := by
  unfold State.settled
  rw [hopening]
  simp

/-- A transaction is left open exactly when its begin returned too late. -/
theorem Inv.ended_iff (h : Inv s) {moment : Moment} (hmoment : s.begunIn = some moment) :
    (s.settled = true → s.ending ≠ none) ↔ s.inTime = true := by
  obtain ⟨hopening, -, hplaced⟩ := h.opened moment hmoment
  have hsettled := settled_iff hopening
  unfold State.inTime
  rw [hmoment]
  cases moment with
  | inPhases =>
      refine iff_of_true ?_ rfl
      intro hdone
      rcases hsettled.mp hdone with hcontrol | hcontrol
      · rw [hcontrol] at hplaced
        exact fun hnone => by cases hplaced.symm.trans hnone
      · rw [hcontrol] at hplaced
        exact hplaced
  | inAfterCommit =>
      cases hdone : s.settled with
      | false => simp
      | true =>
          rcases hsettled.mp hdone with hcontrol | hcontrol
          · rw [hcontrol] at hplaced
            have hopen : s.ending = none := hplaced
            simp [hcontrol, hopen]
          · rw [hcontrol] at hplaced
            have hended : s.ending ≠ none := hplaced
            simp [hcontrol, hended]
  | inFailing =>
      refine iff_of_true ?_ rfl
      intro hdone
      rcases hsettled.mp hdone with hcontrol | hcontrol
      · rw [hcontrol] at hplaced
        cases hplaced
      · rw [hcontrol] at hplaced
        exact hplaced
  | late =>
      refine iff_of_false ?_ Bool.false_ne_true
      intro hall
      cases hcontrol : s.control with
      | resolved =>
          rw [hcontrol] at hplaced
          exact hall (hsettled.mpr (Or.inl hcontrol)) hplaced
      | rejected =>
          rw [hcontrol] at hplaced
          exact hall (hsettled.mpr (Or.inr hcontrol)) hplaced
      | notStarted =>
          rw [hcontrol] at hplaced
          exact hplaced
      | running phase bucket =>
          rw [hcontrol] at hplaced
          exact hplaced
      | handler =>
          rw [hcontrol] at hplaced
          exact hplaced
      | failing k =>
          rw [hcontrol] at hplaced
          exact hplaced

/-- No transaction outlives its unit of work exactly when its begin returns before
COMMIT is drained or, where `execute` fails, before its error handlers are through. -/
theorem transaction_contained_iff (h : Reach step always initial s) :
    Contained s ↔ s.inTime = true := by
  have hinv := inv_of_reach h
  cases hmoment : s.begunIn with
  | none =>
      obtain ⟨-, hbegun, -⟩ := hinv.unopened hmoment
      refine iff_of_true ⟨by omega, ?_, hinv.prepared⟩ ?_
      · intro _ hone
        omega
      · unfold State.inTime
        rw [hmoment]
  | some moment =>
      obtain ⟨-, hbegun, -⟩ := hinv.opened moment hmoment
      rw [← hinv.ended_iff hmoment]
      constructor
      · intro hcontained hdone
        exact hcontained.ended hdone hbegun
      · intro hended
        exact ⟨by omega, fun hdone _ => hended hdone, hinv.prepared⟩

/-- An opening asked for by the handler returns during COMMIT and is committed. -/
theorem transaction_contained_committed : ∃ s, Reach step always initial s ∧ s.settled = true ∧
    s.ending = some .committed ∧ Contained s := by
  obtain ⟨s, hs, hsettled, hending, hinTime⟩ := reach_exec_any
    (show ((exec step initial
      [.execute, .next, .next, .ask, .done, .register .commit, .next, .begins, .done, .next, .done,
        .next, .next]).any fun s =>
          decide (s.settled = true ∧ s.ending = some .committed ∧ s.inTime = true)) = true by
            decide +kernel)
  exact ⟨s, hs, hsettled, hending, (transaction_contained_iff hs).mpr hinTime⟩

/-- The begin returns after the unit of work is done, or after its error handlers
are through: the transaction stays open. -/
theorem transaction_outlives_unit_of_work :
    (∃ s, Reach step always initial s ∧ s.control = .resolved ∧ ¬ Contained s) ∧
      ∃ s, Reach step always initial s ∧ s.control = .rejected ∧ ¬ Contained s := by
  constructor
  · obtain ⟨s, hs, hcontrol, hsettled, hbegun, hending⟩ := reach_exec_any
      (show ((exec step initial
        [.execute, .next, .next, .ask, .done, .next, .next, .next, .begins]).any fun s =>
          decide (s.control = .resolved ∧ s.settled = true ∧ s.begun = 1 ∧ s.ending = none)) =
            true by
            decide +kernel)
    exact ⟨s, hs, hcontrol, fun hcontained => hcontained.ended hsettled hbegun hending⟩
  · obtain ⟨s, hs, hcontrol, hsettled, hbegun, hending⟩ := reach_exec_any
      (show ((exec step initial
        [.execute, .next, .next, .ask, .throws, .settle, .begins]).any fun s =>
          decide (s.control = .rejected ∧ s.settled = true ∧ s.begun = 1 ∧ s.ending = none)) =
            true by
            decide +kernel)
    exact ⟨s, hs, hcontrol, fun hcontained => hcontained.ended hsettled hbegun hending⟩

end Kronos.Postgres.TransactionGlue
