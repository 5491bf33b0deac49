import Mathlib.Data.List.Nodup
import Kronos.RabbitMq.CommandTransport

/-!
# Every RabbitMQ dispatch settles once

A request is in the table exactly while its promise is unsettled, and its timer
is armed exactly as long. After the transport has failed the channel is down or
the transport closed, so that nothing is published any more: a dispatch that
comes this far is thrown out of `publish`, and its entry with it.
-/
namespace Kronos.RabbitMq.CommandTransport
open Kronos.Lib Kronos.Lib.Transition

variable {R B : Type} [DecidableEq R] [DecidableEq B] {s t : State R B} {requestId k : R}
    {outcome : Outcome R B}

/-! ## Single promises -/

namespace State

omit [DecidableEq B] in
@[simp] theorem phase_setPhase (p : Phase R B) :
    (s.setPhase requestId p).phase k = if k = requestId then some p else s.phase k := by
  by_cases hk : k = requestId
  · rw [if_pos hk, hk]
    exact OrderedMap.get_set_self requestId p s.calls
  · rw [if_neg hk]
    exact OrderedMap.get_set_of_ne hk p s.calls

/-- Settling a promise changes nothing but what is known of its dispatch. -/
theorem settle_eq :
    s.settle requestId outcome = { s with calls := (s.settle requestId outcome).calls } := by
  unfold settle
  split <;> rfl

theorem phase_settle :
    (s.settle requestId outcome).phase k =
      if k = requestId ∧ s.phase requestId = some .awaiting then some (.answered outcome)
      else s.phase k := by
  unfold settle
  by_cases hawaits : s.phase requestId = some .awaiting
  · rw [if_pos hawaits, phase_setPhase]
    simp [hawaits]
  · rw [if_neg hawaits]
    simp [hawaits]

theorem phase_conclude :
    (s.conclude requestId outcome).phase k =
      if k = requestId ∧ s.phase requestId = some .awaiting then some (.answered outcome)
      else s.phase k :=
  phase_settle

theorem conclude_eq :
    s.conclude requestId outcome =
      { s with
        calls := (s.conclude requestId outcome).calls
        pending := s.pending.filter (· ≠ requestId)
        timers := s.timers.filter (· ≠ requestId) } := by
  unfold conclude
  rw [settle_eq]
  rfl

/-- What the loop over the table does to the promises and timers. -/
theorem foldl_settle (requestIds : List R) (s : State R B) :
    let t := requestIds.foldl
      (fun t requestId => (t.clearTimeout requestId).settle requestId outcome) s
    (∀ k, t.phase k = if k ∈ requestIds ∧ s.phase k = some .awaiting then some (.answered outcome)
      else s.phase k) ∧
      t = { s with calls := t.calls, timers := s.timers.filter (· ∉ requestIds) } := by
  induction requestIds generalizing s with
  | nil => simp
  | cons requestId requestIds ih =>
      obtain ⟨hphase, heq⟩ := ih ((s.clearTimeout requestId).settle requestId outcome)
      have hclear : (s.clearTimeout requestId).phase = s.phase := rfl
      refine ⟨fun k => ?_, ?_⟩
      · rw [List.foldl_cons, hphase, phase_settle, hclear]
        by_cases hk : k = requestId
        · subst hk
          by_cases hawaits : s.phase k = some .awaiting
          · simp [hawaits]
          · simp [hawaits]
        · simp [hk]
      · rw [List.foldl_cons, heq, settle_eq]
        simp only [clearTimeout, List.filter_filter, List.mem_cons, not_or, ne_eq, Bool.decide_and,
          Bool.and_comm]

theorem phase_rejectAll (reason : Reason) :
    (s.rejectAll reason).phase k =
      if k ∈ s.pending ∧ s.phase k = some .awaiting then some (.answered (.rejected reason))
      else s.phase k :=
  (foldl_settle s.pending s).1 k

theorem rejectAll_eq (reason : Reason) :
    s.rejectAll reason =
      { s with
        calls := (s.rejectAll reason).calls
        pending := []
        timers := s.timers.filter (· ∉ s.pending) } := by
  have heq := (@foldl_settle R B _ _ (.rejected reason) s.pending s).2
  unfold rejectAll
  rw [heq]

end State

/-! ## The table -/

structure Table (s : State R B) : Prop where
  nodup : s.pending.Nodup
  waits : ∀ k, k ∈ s.pending ↔ s.phase k = some .awaiting
  armed : ∀ k, k ∈ s.timers ↔ k ∈ s.pending
  own : ∀ k requestId body, s.phase k = some (.answered (.reply requestId body)) → requestId = k
  logged : ∀ k outcome, (k, outcome) ∈ s.settlements ↔ s.phase k = some (.settled outcome)
  ownLogged : ∀ k requestId body, (k, .reply requestId body) ∈ s.settlements → requestId = k
  once : (s.settlements.map Prod.fst).Nodup

omit [DecidableEq B] in
theorem table_initial : Table (initial R B) where
  nodup := List.nodup_nil
  waits k := by simp [initial, State.phase, OrderedMap.get]
  armed k := Iff.rfl
  own k requestId body h := by cases h
  logged k outcome := by simp [initial, State.phase, OrderedMap.get]
  ownLogged k requestId body h := by cases h
  once := List.nodup_nil

namespace Table

omit [DecidableEq B] in
/-- The table is about four fields of the state only. -/
theorem of_eq (h : Table s) (hcalls : t.calls = s.calls) (hpending : t.pending = s.pending)
    (htimers : t.timers = s.timers) (hsettlements : t.settlements = s.settlements) : Table t := by
  have hphase : t.phase = s.phase := funext fun k => by rw [State.phase, State.phase, hcalls]
  constructor
  · rw [hpending]
    exact h.nodup
  · rw [hpending, hphase]
    exact h.waits
  · rw [hpending, htimers]
    exact h.armed
  · rw [hphase]
    exact h.own
  · rw [hphase, hsettlements]
    exact h.logged
  · rw [hsettlements]
    exact h.ownLogged
  · rw [hsettlements]
    exact h.once

/-- Some requests leave the table, their timers are cleared, and their promises settled. -/
theorem answer (h : Table s) (gone : R → Prop) [DecidablePred gone] (outcome : Outcome R B)
    (hown : ∀ k r body, gone k → outcome = .reply r body → r = k)
    (hphase : ∀ k,
      t.phase k = if gone k ∧ s.phase k = some .awaiting then some (.answered outcome)
      else s.phase k)
    (hpending : ∀ k, k ∈ t.pending ↔ k ∈ s.pending ∧ ¬gone k) (hnodup : t.pending.Nodup)
    (htimers : ∀ k, k ∈ t.timers ↔ k ∈ s.timers ∧ ¬gone k)
    (hsettlements : t.settlements = s.settlements) :
    Table t := by
  refine ⟨hnodup, fun k => ?_, fun k => ?_, fun k r body hk => ?_, fun k o => ?_, ?_, ?_⟩
  · rw [hpending, hphase, h.waits]
    by_cases hgone : gone k
    · by_cases hawaits : s.phase k = some .awaiting
      · simp [hgone, hawaits]
      · simp [hawaits]
    · simp [hgone]
  · rw [htimers, hpending, h.armed]
  · rw [hphase] at hk
    by_cases hgone : gone k ∧ s.phase k = some .awaiting
    · rw [if_pos hgone] at hk
      cases hk
      exact hown k r body hgone.1 rfl
    · rw [if_neg hgone] at hk
      exact h.own k r body hk
  · rw [hsettlements, h.logged, hphase]
    by_cases hgone : gone k ∧ s.phase k = some .awaiting
    · simp [hgone]
    · rw [if_neg hgone]
  · rw [hsettlements]
    exact h.ownLogged
  · rw [hsettlements]
    exact h.once

theorem conclude (h : Table s) (hown : ∀ r body, outcome = .reply r body → r = requestId) :
    Table (s.conclude requestId outcome) := by
  have heq := @State.conclude_eq R B _ _ s requestId outcome
  refine h.answer (· = requestId) outcome ?_ (fun k => ?_) ?_ ?_ ?_ ?_
  · rintro k r body rfl heq
    exact hown r body heq
  · rw [State.phase_conclude]
    by_cases hk : k = requestId
    · rw [hk]
    · simp [hk]
  · rw [heq]
    simp
  · rw [heq]
    exact h.nodup.filter _
  · rw [heq]
    simp
  · rw [heq]

theorem conclude_rejected (h : Table s) (reason : Reason) :
    Table (s.conclude requestId (.rejected reason)) := by
  refine h.conclude fun r body heq => ?_
  cases heq

theorem rejectAll (h : Table s) (reason : Reason) : Table (s.rejectAll reason) := by
  have heq := @State.rejectAll_eq R B _ _ s reason
  refine h.answer (· ∈ s.pending) (.rejected reason) ?_ (fun k => State.phase_rejectAll reason)
    ?_ ?_ ?_ ?_
  · rintro k r body - ⟨⟩
  · rw [heq]
    simp
  · rw [heq]
    exact List.nodup_nil
  · rw [heq]
    simp
  · rw [heq]

theorem failTransport (h : Table s) (reason : Reason) : Table (s.failTransport reason) := by
  have hfailed : Table { s with transportFailure := some (s.transportFailure.getD reason) } :=
    h.of_eq rfl rfl rfl rfl
  exact hfailed.rejectAll _

omit [DecidableEq B] in
theorem closeChannel (h : Table s) : Table s.closeChannel := h.of_eq rfl rfl rfl rfl

theorem onEvent (h : Table s) (e : Event R B) : Table (s.onEvent e) := by
  cases e with
  | reply correlationId body =>
      cases correlationId with
      | none => exact h
      | some requestId =>
          rw [State.onEvent, State.handleReply]
          by_cases hmem : requestId ∈ s.pending
          · rw [if_pos hmem]
            refine h.conclude fun r body' heq => ?_
            cases body with
            | none => cases heq
            | some body =>
                cases heq
                rfl
          · rw [if_neg hmem]
            exact h
  | returned correlationId =>
      cases correlationId with
      | none => exact h
      | some requestId =>
          rw [State.onEvent, State.handleReturn]
          by_cases hmem : requestId ∈ s.pending
          · rw [if_pos hmem]
            exact h.conclude_rejected _
          · rw [if_neg hmem]
            exact h
  | error => exact h.closeChannel.failTransport _
  | close => exact h.closeChannel.failTransport _
  | drain => exact h.of_eq rfl rfl rfl rfl

theorem events (h : Table s) (during : List (Event R B)) :
    Table (during.foldl State.onEvent s) := by
  induction during generalizing s with
  | nil => exact h
  | cons e during ih => exact ih (h.onEvent e)

omit [DecidableEq B] in
/-- A dispatch that is neither in the table nor settled moves on outside of it. -/
theorem move (h : Table s) {p : Phase R B} (hawaits : s.phase requestId ≠ some .awaiting)
    (hsettled : ∀ o, s.phase requestId ≠ some (.settled o))
    (hp : p = .connecting ∨ ∃ reason, p = .answered (.rejected reason)) :
    Table (s.setPhase requestId p) := by
  refine ⟨h.nodup, fun k => ?_, h.armed, fun k r body hk => ?_, fun k o => ?_, h.ownLogged, h.once⟩
  · rw [State.phase_setPhase]
    refine (h.waits k).trans ?_
    by_cases hk : k = requestId
    · rw [if_pos hk, hk]
      rcases hp with rfl | ⟨reason, rfl⟩
      · simp [hawaits]
      · simp [hawaits]
    · rw [if_neg hk]
  · rw [State.phase_setPhase] at hk
    by_cases heq : k = requestId
    · rw [if_pos heq] at hk
      rcases hp with rfl | ⟨reason, rfl⟩
      · cases hk
      · cases hk
    · rw [if_neg heq] at hk
      exact h.own k r body hk
  · rw [State.phase_setPhase]
    refine (h.logged k o).trans ?_
    by_cases hk : k = requestId
    · rw [if_pos hk, hk]
      rcases hp with rfl | ⟨reason, rfl⟩
      · simp [hsettled]
      · simp [hsettled]
    · rw [if_neg hk]

omit [DecidableEq B] in
/-- A dispatch that waited for the connection is rejected. -/
theorem leave (h : Table s) (hphase : s.phase requestId = some .connecting) (reason : Reason) :
    Table (s.setPhase requestId (.answered (.rejected reason))) :=
  h.move (by simp [hphase]) (by simp [hphase]) (.inr ⟨reason, rfl⟩)

omit [DecidableEq B] in
/-- A dispatch that is not in the table settles. -/
theorem log (h : Table s) {p : Option (Phase R B)} (hphase : s.phase requestId = p)
    (hawaits : p ≠ some .awaiting) (hsettled : ∀ o, p ≠ some (.settled o))
    (hown : ∀ r body, outcome = .reply r body → r = requestId)
    (ht : t.phase = (s.setPhase requestId (.settled outcome)).phase)
    (hpending : t.pending = s.pending) (htimers : t.timers = s.timers)
    (hsettlements : t.settlements = s.settlements ++ [(requestId, outcome)]) :
    Table t := by
  have hphase' : ∀ k, t.phase k = if k = requestId then some (.settled outcome) else s.phase k := by
    intro k
    rw [ht, State.phase_setPhase]
  have hfresh : ∀ o, (requestId, o) ∉ s.settlements := fun o hmem =>
    hsettled o (hphase ▸ (h.logged requestId o).mp hmem)
  refine ⟨hpending ▸ h.nodup, fun k => ?_, fun k => ?_, fun k r body hk => ?_, fun k o => ?_,
    fun k r body hk => ?_, ?_⟩
  · rw [hpending, hphase', h.waits]
    by_cases hk : k = requestId
    · simp [hk, hphase, hawaits]
    · rw [if_neg hk]
  · rw [htimers, hpending, h.armed]
  · rw [hphase'] at hk
    by_cases heq : k = requestId
    · rw [if_pos heq] at hk
      cases hk
    · rw [if_neg heq] at hk
      exact h.own k r body hk
  · rw [hsettlements, List.mem_append, List.mem_singleton, Prod.mk.injEq, hphase']
    by_cases hk : k = requestId
    · subst hk
      simp [hfresh, eq_comm]
    · simp [hk, h.logged]
  · rw [hsettlements, List.mem_append, List.mem_singleton, Prod.mk.injEq] at hk
    rcases hk with hk | ⟨rfl, heq⟩
    · exact h.ownLogged k r body hk
    · exact hown r body heq.symm
  · rw [hsettlements, List.map_append, List.map_singleton]
    refine List.Nodup.append h.once (List.nodup_singleton _) ?_
    rw [List.disjoint_singleton]
    intro hmem
    obtain ⟨entry, hentry, rfl⟩ := List.mem_map.mp hmem
    exact hfresh entry.2 hentry

omit [DecidableEq B] in
/-- Timer and entry of a request that is about to be published. -/
theorem enter (h : Table s) (hphase : s.phase requestId = some .connecting) :
    Table { s.setPhase requestId .awaiting with
      timers := s.timers ++ [requestId]
      pending := s.pending ++ [requestId] } := by
  have hfresh : requestId ∉ s.pending := fun hmem => by
    rw [h.waits, hphase] at hmem
    cases hmem
  refine ⟨?_, fun k => ?_, fun k => ?_, fun k r body hk => ?_, fun k o => ?_, h.ownLogged, h.once⟩
  · exact List.Nodup.append h.nodup (List.nodup_singleton _) (List.disjoint_singleton.mpr hfresh)
  · show k ∈ s.pending ++ [requestId] ↔ (s.setPhase requestId .awaiting).phase k = some .awaiting
    rw [State.phase_setPhase, List.mem_append, List.mem_singleton, h.waits]
    by_cases hk : k = requestId
    · simp [hk]
    · simp [hk]
  · show k ∈ s.timers ++ [requestId] ↔ k ∈ s.pending ++ [requestId]
    rw [List.mem_append, List.mem_append, h.armed]
  · replace hk : (s.setPhase requestId .awaiting).phase k = _ := hk
    rw [State.phase_setPhase] at hk
    by_cases heq : k = requestId
    · rw [if_pos heq] at hk
      cases hk
    · rw [if_neg heq] at hk
      exact h.own k r body hk
  · show (k, o) ∈ s.settlements ↔ (s.setPhase requestId .awaiting).phase k = some (.settled o)
    rw [State.phase_setPhase, h.logged]
    by_cases hk : k = requestId
    · simp [hk, hphase]
    · rw [if_neg hk]

theorem request (h : Table s) (hphase : s.phase requestId = some .connecting)
    (during : List (Event R B)) (published : Option Bool) :
    Table (s.request requestId during published) := by
  have hevents := (h.enter hphase).events during
  cases published with
  | none => exact hevents.conclude_rejected _
  | some writable => exact hevents.of_eq rfl rfl rfl rfl

omit [DecidableEq B] in
theorem refuse (h : Table s) (hphase : s.phase requestId = none) (reason : Reason) :
    Table (s.refuse requestId reason) :=
  h.log hphase (by simp) (by simp) (by simp) rfl rfl rfl rfl

omit [DecidableEq B] in
theorem dispatch (h : Table s) (hphase : s.phase requestId = none) (limit : ℕ) (timeoutMs : ℤ) :
    Table (s.dispatch limit requestId timeoutMs) := by
  have henter : Table (s.enter requestId) := h.of_eq rfl rfl rfl rfl
  have hphase' : (s.enter requestId).phase requestId = none := hphase
  have hmove : ∀ p : Phase R B, (p = .connecting ∨ ∃ reason, p = .answered (.rejected reason)) →
      Table ((s.enter requestId).setPhase requestId p) := fun p hp =>
    henter.move (by simp [hphase']) (by simp [hphase']) hp
  rw [State.dispatch]
  split_ifs
  · exact h.refuse hphase _
  · exact h.refuse hphase _
  · exact hmove _ (.inr ⟨_, rfl⟩)
  · cases s.connectReason with
    | none => exact hmove _ (.inl rfl)
    | some reason => exact hmove _ (.inr ⟨reason, rfl⟩)
  · exact h.refuse hphase _

theorem step {limit : ℕ} {a : Action R B} (h : Table s) (hst : step limit s a = some t) :
    Table t := by
  cases a with
  | dispatch requestId timeoutMs =>
      simp only [CommandTransport.step] at hst
      split_ifs at hst with hphase
      cases hst
      exact h.dispatch hphase limit timeoutMs
  | channelOpened =>
      simp only [CommandTransport.step] at hst
      split_ifs at hst
      cases hst
      exact h.of_eq rfl rfl rfl rfl
  | replyQueueAsserted =>
      simp only [CommandTransport.step] at hst
      split_ifs at hst
      cases hst
      exact h.of_eq rfl rfl rfl rfl
  | connected =>
      simp only [CommandTransport.step] at hst
      split_ifs at hst
      cases hst
      exact h.of_eq rfl rfl rfl rfl
  | connectFails =>
      simp only [CommandTransport.step] at hst
      split_ifs at hst
      cases hst
      exact h.of_eq rfl rfl rfl rfl
  | connectTimeout requestId =>
      simp only [CommandTransport.step] at hst
      split_ifs at hst with hphase
      cases hst
      exact h.leave hphase _
  | connectRejected requestId =>
      simp only [CommandTransport.step] at hst
      split_ifs at hst with hphase
      cases hst
      exact h.leave hphase.1 _
  | proceed requestId serializable during published =>
      simp only [CommandTransport.step] at hst
      split_ifs at hst with hphase
      cases hst
      cases s.proceedReason requestId serializable with
      | none => exact h.request hphase.1 during published
      | some reason => exact h.leave hphase.1 reason
  | timeout requestId =>
      simp only [CommandTransport.step] at hst
      split_ifs at hst
      cases hst
      exact h.conclude_rejected _
  | event e =>
      simp only [CommandTransport.step] at hst
      split_ifs at hst
      cases hst
      exact h.onEvent e
  | replyBufferFull =>
      simp only [CommandTransport.step] at hst
      split_ifs at hst
      cases hst
      exact h.closeChannel.failTransport _
  | close =>
      cases hst
      exact h.of_eq rfl rfl rfl rfl
  | closeDrains =>
      simp only [CommandTransport.step] at hst
      split_ifs at hst
      cases hst
      exact (h.rejectAll _).of_eq rfl rfl rfl rfl
  | closeEnds =>
      simp only [CommandTransport.step] at hst
      split_ifs at hst
      cases hst
      exact h.closeChannel.failTransport _
  | finish requestId =>
      simp only [CommandTransport.step] at hst
      split at hst
      case h_1 outcome hphase =>
        cases hst
        refine h.log hphase (by simp) (by simp) ?_ rfl rfl rfl rfl
        rintro r body rfl
        exact h.own requestId r body hphase
      case h_2 => cases hst

end Table

/-! ## After a failure or a close -/

omit [DecidableEq B] in
/-- Who publishes has found the transport open and a channel. -/
theorem State.of_proceedReason {serializable : Bool}
    (h : s.proceedReason requestId serializable = none) :
    s.closed = false ∧ s.channel ≠ .absent := by
  unfold State.proceedReason at h
  split_ifs at h with hclosed habsent
  exact ⟨Bool.eq_false_iff.mpr hclosed, habsent⟩

structure Shut (s : State R B) : Prop where
  empty : s.transportFailure.isSome = true ∨ s.drained = true → s.pending = []
  down : s.transportFailure.isSome = true → s.closed = true ∨ s.channel = .down
  drained : s.drained = true → s.closed = true

/-- What callbacks and settled promises may do to a state: nobody enters the table. -/
structure Fades (s t : State R B) : Prop where
  pending : t.pending ⊆ s.pending
  closed : t.closed = s.closed
  drained : t.drained = s.drained
  present : s.channel ≠ .absent → t.channel ≠ .absent
  down : s.channel = .down → t.channel = .down
  lasts : s.transportFailure.isSome = true → t.transportFailure.isSome = true
  fails : t.transportFailure.isSome = true →
    s.transportFailure.isSome = true ∨ t.pending = [] ∧ (s.channel ≠ .absent → t.channel = .down)

namespace Fades
variable {u : State R B}

omit [DecidableEq R] [DecidableEq B] in
theorem refl (s : State R B) : Fades s s :=
  ⟨List.Subset.refl _, rfl, rfl, id, id, id, .inl⟩

omit [DecidableEq R] [DecidableEq B] in
theorem trans (h : Fades s t) (k : Fades t u) : Fades s u := by
  refine ⟨fun _ hmem => h.pending (k.pending hmem), k.closed.trans h.closed,
    k.drained.trans h.drained, k.present ∘ h.present,
    k.down ∘ h.down, k.lasts ∘ h.lasts, fun hfailed => ?_⟩
  rcases k.fails hfailed with hfailed' | ⟨hempty, hdown⟩
  · refine (h.fails hfailed').imp_right fun ⟨hempty, hdown⟩ => ?_
    exact ⟨List.subset_nil.mp (hempty ▸ k.pending), k.down ∘ hdown⟩
  · exact .inr ⟨hempty, hdown ∘ h.present⟩

theorem conclude (s : State R B) (requestId : R) (outcome : Outcome R B) :
    Fades s (s.conclude requestId outcome) := by
  rw [State.conclude_eq]
  exact ⟨List.filter_subset_self _, rfl, rfl, id, id, id, .inl⟩

theorem failTransport (s : State R B) (reason : Reason) :
    Fades s (s.closeChannel.failTransport reason) := by
  rw [State.failTransport, State.rejectAll_eq]
  refine ⟨List.nil_subset _, rfl, rfl, ?_, ?_, fun _ => rfl, fun _ => .inr ⟨rfl, ?_⟩⟩
  · intro hpresent
    simp [State.closeChannel, hpresent]
  · intro hdown
    simp [State.closeChannel, hdown]
  · intro hpresent
    simp [State.closeChannel, hpresent]

theorem onEvent (s : State R B) (e : Event R B) : Fades s (s.onEvent e) := by
  cases e with
  | reply correlationId body =>
      cases correlationId with
      | none => exact refl s
      | some requestId =>
          rw [State.onEvent, State.handleReply]
          by_cases hmem : requestId ∈ s.pending
          · rw [if_pos hmem]
            exact conclude s _ _
          · rw [if_neg hmem]
            exact refl s
  | returned correlationId =>
      cases correlationId with
      | none => exact refl s
      | some requestId =>
          rw [State.onEvent, State.handleReturn]
          by_cases hmem : requestId ∈ s.pending
          · rw [if_pos hmem]
            exact conclude s _ _
          · rw [if_neg hmem]
            exact refl s
  | error => exact failTransport s _
  | close => exact failTransport s _
  | drain => exact ⟨List.Subset.refl _, rfl, rfl, id, id, id, .inl⟩

theorem events (s : State R B) (during : List (Event R B)) :
    Fades s (during.foldl State.onEvent s) := by
  induction during generalizing s with
  | nil => exact refl s
  | cons e during ih => exact (onEvent s e).trans (ih _)

end Fades

namespace Shut

omit [DecidableEq R] [DecidableEq B] in
theorem of_fades (h : Shut s) (hpresent : s.channel ≠ .absent) (hfades : Fades s t) : Shut t := by
  have hempty : s.pending = [] → t.pending = [] := fun hnil =>
    List.subset_nil.mp (hnil ▸ hfades.pending)
  refine ⟨?_, fun hfailed => ?_, fun hdrained => ?_⟩
  · rintro (hfailed | hdrained)
    · rcases hfades.fails hfailed with hfailed' | ⟨hnil, -⟩
      · exact hempty (h.empty (.inl hfailed'))
      · exact hnil
    · exact hempty (h.empty (.inr (hfades.drained ▸ hdrained)))
  · rcases hfades.fails hfailed with hfailed' | ⟨-, hdown⟩
    · rw [hfades.closed]
      exact (h.down hfailed').imp_right hfades.down
    · exact .inr (hdown hpresent)
  · rw [hfades.closed]
    exact h.drained (hfades.drained ▸ hdrained)

omit [DecidableEq R] [DecidableEq B] in
/-- It is about five fields of the state only. -/
theorem of_eq (h : Shut s) (hpending : t.pending = s.pending)
    (hfailure : t.transportFailure = s.transportFailure)
    (hclosed : s.closed = true → t.closed = true) (hdrained : t.drained = s.drained)
    (hdown : s.channel = .down → t.channel = .down) : Shut t := by
  refine ⟨?_, fun hfailed => ?_, fun hdrain => ?_⟩
  · rw [hfailure, hdrained, hpending]
    exact h.empty
  · exact (h.down (hfailure ▸ hfailed)).imp hclosed hdown
  · exact hclosed (h.drained (hdrained ▸ hdrain))

theorem conclude (h : Shut s) (requestId : R) (outcome : Outcome R B) :
    Shut (s.conclude requestId outcome) := by
  rw [State.conclude_eq]
  refine ⟨fun hdone => ?_, h.down, h.drained⟩
  show s.pending.filter (· ≠ requestId) = []
  rw [h.empty hdone, List.filter_nil]

theorem request (h : Shut s) (hclosed : s.closed = false) (hpresent : s.channel ≠ .absent)
    (during : List (Event R B)) (published : Option Bool)
    (hthrows : s.channel = .down → published = none) :
    Shut (s.request requestId during published) := by
  let entered : State R B :=
    { s.setPhase requestId .awaiting with
      timers := s.timers ++ [requestId]
      pending := s.pending ++ [requestId] }
  have hfades : Fades entered (during.foldl State.onEvent entered) := Fades.events entered during
  have hundrained : s.drained = false := Bool.eq_false_iff.mpr fun hdrained => by
    rw [h.drained hdrained] at hclosed
    cases hclosed
  cases hfailure : s.transportFailure with
  | none =>
      -- the entry may stay in the table, and a callback that fails the transport takes it out
      have hentered : Shut entered := by
        refine ⟨?_, fun hfailed => ?_, h.drained⟩
        · rintro (hfailed | hdrained)
          · exact absurd (hfailure ▸ hfailed : (none : Option Reason).isSome = true) (by decide)
          · exact absurd hdrained (by simp [entered, State.setPhase, hundrained])
        · exact absurd (hfailure ▸ hfailed : (none : Option Reason).isSome = true) (by decide)
      have hevents := hentered.of_fades hpresent hfades
      cases published with
      | none => exact hevents.of_fades (hfades.present hpresent) (Fades.conclude _ _ _)
      | some writable => exact hevents.of_eq rfl rfl id rfl id
  | some reason =>
      -- the channel is down: `publish` throws, and the entry leaves with it
      have hfailed : s.transportFailure.isSome = true := by rw [hfailure]; rfl
      have hdown : s.channel = .down := (h.down hfailed).resolve_left (by simp [hclosed])
      rw [hthrows hdown]
      have hleft :=
        Fades.conclude (during.foldl State.onEvent entered) requestId (.rejected .publishThrew)
      have hpending :
          ((during.foldl State.onEvent entered).conclude requestId
          (.rejected .publishThrew)).pending =
          (during.foldl State.onEvent entered).pending.filter (· ≠ requestId) := by
            rw [State.conclude_eq]
      refine ⟨fun _ => ?_, fun _ => .inr (hleft.down (hfades.down hdown)), fun hdrained => ?_⟩
      · refine hpending.trans (List.filter_eq_nil_iff.mpr fun k hk => ?_)
        have hmem : k ∈ s.pending ++ [requestId] := hfades.pending hk
        rw [h.empty (.inl hfailed), List.nil_append, List.mem_singleton] at hmem
        simp [hmem]
      · have heq := (hleft.trans (Fades.refl _)).drained.trans hfades.drained
        rw [show entered.drained = s.drained from rfl, hundrained] at heq
        exact absurd (heq.symm.trans hdrained) (by decide)

omit [DecidableEq B] in
theorem dispatch (h : Shut s) (limit : ℕ) (requestId : R) (timeoutMs : ℤ) :
    Shut (s.dispatch limit requestId timeoutMs) := by
  rw [State.dispatch]
  split_ifs <;> exact h.of_eq rfl rfl id rfl id

theorem step {limit : ℕ} {a : Action R B} (h : Shut s) (hok : downThrows s a = true)
    (hst : step limit s a = some t) : Shut t := by
  cases a with
  | dispatch requestId timeoutMs =>
      simp only [CommandTransport.step] at hst
      split_ifs at hst
      cases hst
      exact h.dispatch limit requestId timeoutMs
  | channelOpened =>
      simp only [CommandTransport.step] at hst
      split_ifs at hst with habsent
      cases hst
      exact h.of_eq rfl rfl id rfl (by simp [habsent.2])
  | replyQueueAsserted =>
      simp only [CommandTransport.step] at hst
      split_ifs at hst
      cases hst
      exact h.of_eq rfl rfl id rfl id
  | connected =>
      simp only [CommandTransport.step] at hst
      split_ifs at hst
      cases hst
      exact h.of_eq rfl rfl id rfl id
  | connectFails =>
      simp only [CommandTransport.step] at hst
      split_ifs at hst
      cases hst
      exact h.of_eq rfl rfl id rfl id
  | connectTimeout requestId =>
      simp only [CommandTransport.step] at hst
      split_ifs at hst
      cases hst
      exact h.of_eq rfl rfl id rfl id
  | connectRejected requestId =>
      simp only [CommandTransport.step] at hst
      split_ifs at hst
      cases hst
      exact h.of_eq rfl rfl id rfl id
  | proceed requestId serializable during published =>
      simp only [CommandTransport.step] at hst
      split_ifs at hst
      cases hst
      cases hreason : s.proceedReason requestId serializable with
      | some reason => exact h.of_eq rfl rfl id rfl id
      | none =>
          obtain ⟨hclosed, hpresent⟩ := State.of_proceedReason hreason
          refine h.request hclosed hpresent during published fun hdown => ?_
          simpa [downThrows, hdown] using hok
  | timeout requestId =>
      simp only [CommandTransport.step] at hst
      split_ifs at hst
      cases hst
      exact h.conclude _ _
  | event e =>
      simp only [CommandTransport.step] at hst
      split_ifs at hst with habsent
      cases hst
      exact h.of_fades habsent (Fades.onEvent s e)
  | replyBufferFull =>
      simp only [CommandTransport.step] at hst
      split_ifs at hst with hup
      cases hst
      exact h.of_fades (by simp [hup]) (Fades.failTransport s _)
  | close =>
      cases hst
      exact h.of_eq rfl rfl (fun _ => rfl) rfl id
  | closeDrains =>
      simp only [CommandTransport.step] at hst
      split_ifs at hst with hclosed
      cases hst
      rw [State.rejectAll_eq]
      exact ⟨fun _ => rfl, h.down, fun _ => hclosed⟩
  | closeEnds =>
      simp only [CommandTransport.step] at hst
      split_ifs at hst with hclosed
      cases hst
      rw [State.failTransport, State.rejectAll_eq]
      exact ⟨fun _ => rfl, fun _ => .inl hclosed, fun _ => hclosed⟩
  | finish requestId =>
      simp only [CommandTransport.step] at hst
      split at hst
      · cases hst
        exact h.of_eq rfl rfl id rfl id
      · cases hst

end Shut

/-- The transport has failed, or `close` has rejected what it found. -/
def State.Done (s : State R B) : Prop := s.transportFailure.isSome = true ∨ s.drained = true

omit [DecidableEq R] [DecidableEq B] in
theorem Fades.done (h : Fades s t) (hdone : s.Done) : t.Done :=
  hdone.imp h.lasts (h.drained.trans ·)

omit [DecidableEq B] in
theorem done_dispatch (hdone : s.Done) (limit : ℕ) (requestId : R) (timeoutMs : ℤ) :
    (s.dispatch limit requestId timeoutMs).Done := by
  rw [State.dispatch]
  split_ifs <;> exact hdone

theorem done_step {limit : ℕ} {a : Action R B} (hdone : s.Done) (hst : step limit s a = some t) :
    t.Done := by
  cases a with
  | dispatch requestId timeoutMs =>
      simp only [step] at hst
      split_ifs at hst
      cases hst
      exact done_dispatch hdone limit requestId timeoutMs
  | proceed requestId serializable during published =>
      simp only [step] at hst
      split_ifs at hst
      cases hst
      cases s.proceedReason requestId serializable with
      | some reason => exact hdone
      | none =>
          have hevents :=
            (Fades.events _ during).done (show State.Done { s.setPhase requestId .awaiting with
            timers := s.timers ++ [requestId]
            pending := s.pending ++ [requestId] } from hdone)
          cases published with
          | none => exact (Fades.conclude _ _ _).done hevents
          | some writable => exact hevents
  | timeout requestId =>
      simp only [step] at hst
      split_ifs at hst
      cases hst
      exact (Fades.conclude _ _ _).done hdone
  | event e =>
      simp only [step] at hst
      split_ifs at hst
      cases hst
      exact (Fades.onEvent s e).done hdone
  | replyBufferFull =>
      simp only [step] at hst
      split_ifs at hst
      cases hst
      exact (Fades.failTransport s _).done hdone
  | close =>
      cases hst
      exact hdone
  | closeDrains =>
      simp only [step] at hst
      split_ifs at hst
      cases hst
      exact .inr rfl
  | closeEnds =>
      simp only [step] at hst
      split_ifs at hst
      cases hst
      exact (Fades.failTransport s _).done hdone
  | finish requestId =>
      simp only [step] at hst
      split at hst
      · cases hst
        exact hdone
      · cases hst
  | _ =>
      simp only [step] at hst
      split_ifs at hst
      cases hst
      exact hdone

/-! ## Runs -/

/-- Every run in which `publish` throws on a channel that is down. -/
def Reachable (limit : ℕ) : State R B → State R B → Prop := Reach (step limit) fun s a =>
    downThrows s a = true

section Runs
variable {limit : ℕ}

theorem Reachable.table (h : Reachable limit (initial R B) s) : Table s :=
  Reach.invariant table_initial (fun _ _ _ _ hs _ hst => hs.step hst) h

theorem Reachable.shut (h : Reachable limit (initial R B) s) : Shut s :=
  Reach.invariant ⟨fun _ => rfl, by simp [initial], by simp [initial]⟩
    (fun _ _ _ _ hs hok hst => hs.step hok hst) h

theorem Reachable.done (h : Reachable limit s t) (hdone : s.Done) : t.Done :=
  Reach.invariant hdone (fun _ _ _ _ hs _ hst => done_step hs hst) h

/-- What has become of a dispatch: it is settled, or something that is due settles it. -/
def Fate (limit : ℕ) (s : State R B) (k : R) : Phase R B → Prop
  | .connecting => ∃ t, step limit s (.connectTimeout k) = some t ∧
      t.phase k = some (.answered (.rejected .connectTimedOut))
  | .awaiting => k ∈ s.pending ∧ k ∈ s.timers ∧
      ∃ t, step limit s (.timeout k) = some t ∧ t.phase k = some (.answered (.rejected .timedOut))
  | .answered outcome => ∃ t, step limit s (.finish k) = some t ∧ (k, outcome) ∈ t.settlements
  | .settled outcome => (k, outcome) ∈ s.settlements

theorem fate_of_phase (h : Table s) {p : Phase R B} (hphase : s.phase k = some p) :
    Fate limit s k p := by
  cases p with
  | connecting => exact ⟨_, if_pos hphase, by rw [State.phase_setPhase, if_pos rfl]⟩
  | awaiting =>
      have hmem := (h.waits k).mpr hphase
      have harmed := (h.armed k).mpr hmem
      refine ⟨hmem, harmed, _, if_pos harmed, ?_⟩
      rw [State.phase_conclude, if_pos ⟨rfl, hphase⟩]
  | answered outcome =>
      refine ⟨s.finish k outcome, ?_, List.mem_append_right _ (List.mem_singleton_self _)⟩
      simp only [step, hphase]
  | settled outcome => exact (h.logged k outcome).mpr hphase

/-- A reply settles no dispatch but the one whose request id it carries. -/
theorem phase_handleReply {correlationId : Option R} (hne : correlationId ≠ some k)
    (body : Option B) :
    (s.handleReply correlationId body).phase k = s.phase k := by
  cases correlationId with
  | none => rfl
  | some requestId =>
      rw [State.handleReply]
      by_cases hmem : requestId ∈ s.pending
      · rw [if_pos hmem, State.phase_conclude, if_neg]
        rintro ⟨rfl, -⟩
        exact hne rfl
      · rw [if_neg hmem]

/-- What the transport has done in a run. -/
structure Settles (limit : ℕ) (s : State R B) : Prop where
  once : (s.settlements.map Prod.fst).Nodup
  fate : ∀ k p, s.phase k = some p → Fate limit s k p
  own : ∀ k requestId body, (k, .reply requestId body) ∈ s.settlements → requestId = k
  reply : ∀ (correlationId : Option R) (body : Option B) (k : R), correlationId ≠ some k →
    (s.handleReply correlationId body).phase k = s.phase k
  nodup : s.pending.Nodup
  pending : ∀ k, k ∈ s.pending ↔ s.phase k = some .awaiting
  armed : ∀ k, k ∈ s.timers ↔ k ∈ s.pending
  empty : s.Done → ∀ t, Reachable limit s t → t.pending = []

/-- In every run each dispatch is settled once or is due to be, by its own timer at the latest, a
reply settles only its own dispatch, and the table holds the requests that wait, and none once the
transport has failed or closed. -/
theorem every_dispatch_settles_once (h : Reachable limit (initial R B) s) : Settles limit s where
  once := h.table.once
  fate _ _ hphase := fate_of_phase h.table hphase
  own := h.table.ownLogged
  reply _ body _ hne := phase_handleReply hne body
  nodup := h.table.nodup
  pending := h.table.waits
  armed := h.table.armed
  empty hdone _ ht := (Reachable.shut (h.trans ht)).empty (Reachable.done ht hdone)

/-- One request is answered, one is returned, one waits when the channel fails, and one comes too
late and is thrown out of `publish`. -/
theorem four_dispatches_settle :
    ∃ s : State ℕ ℕ, Reachable 8 (initial ℕ ℕ) s ∧ Settles 8 s ∧ s.pending = [] ∧
      s.settlements = [(1, .reply 1 7), (2, .rejected .noQueueBound), (3, .rejected .channelError),
        (4, .rejected .publishThrew)] := by
  obtain ⟨s, hs, hsettlements, hpending⟩ := reach_guarded_any (s := initial ℕ ℕ)
    (P := fun s =>
      s.settlements = [(1, .reply 1 7), (2, .rejected .noQueueBound), (3, .rejected .channelError),
      (4, .rejected .publishThrew)] ∧ s.pending = [])
    (show ((exec (guarded (step 8) fun s a => downThrows s a = true) (initial ℕ ℕ)
      [.dispatch 1 500, .dispatch 2 500, .dispatch 3 500, .dispatch 4 500, .channelOpened,
        .replyQueueAsserted,
        .connected, .proceed 1 true [] (some true),
          .proceed 2 true [.returned (some 2)] (some true),
        .proceed 3 true [] (some true), .event (.reply (some 1) (some 7)),
          .event (.reply (some 1) (some 8)),
        .event .error, .proceed 4 true [] none, .finish 1, .finish 2, .finish 3, .finish 4]).any
        fun s => decide _) = true by
      decide +kernel)
  exact ⟨s, hs, every_dispatch_settles_once hs, hpending, hsettlements⟩

end Runs

end Kronos.RabbitMq.CommandTransport
