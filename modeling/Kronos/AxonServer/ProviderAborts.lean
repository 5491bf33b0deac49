import Kronos.AxonServer.ProviderStream
import Kronos.Lib.Slots

/-!
# Which streams are opened with an aborted signal

The loss of the connection aborts the controller of the current stream. The command bus
opens the next stream with a new one. The query bus opens it with the one that is
aborted, and so every stream it opens after the first loss of the connection.
-/
namespace Kronos.AxonServer.ProviderStream
open Kronos.AxonServer.OutboundStream Kronos.Lib.Slots Kronos.Lib.Transition

variable {N M : Type} {c : Config} {s t : Provider N M} {i : ℕ}

/-- An operation that leaves the controllers, and the signals the streams were opened with. -/
structure Untouched (s t : Provider N M) : Prop where
  controllers : t.controllers = s.controllers
  providerAbort : t.providerAbort = s.providerAbort
  signals : t.retired.map (·.signal) = s.retired.map (·.signal)
  signal : t.outbound.signal = s.outbound.signal
  connected : t.connected = s.connected
  shuttingDown : t.shuttingDown = s.shuttingDown
  streamStarted : t.streamStarted = s.streamStarted
  stopped : t.stopped = s.stopped

theorem Untouched.refl (s : Provider N M) : Untouched s s :=
  ⟨rfl, rfl, rfl, rfl, rfl, rfl, rfl, rfl⟩

theorem Untouched.trans {u : Provider N M} (h : Untouched s t) (k : Untouched t u) :
    Untouched s u where
  controllers := k.controllers.trans h.controllers
  providerAbort := k.providerAbort.trans h.providerAbort
  signals := k.signals.trans h.signals
  signal := k.signal.trans h.signal
  connected := k.connected.trans h.connected
  shuttingDown := k.shuttingDown.trans h.shuttingDown
  streamStarted := k.streamStarted.trans h.streamStarted
  stopped := k.stopped.trans h.stopped

theorem untouched_update (s : Provider N M) (i : ℕ) {f : Incarnation N M → Incarnation N M}
    (hf : ∀ mine, (f mine).signal = mine.signal) : Untouched s (s.update i f) := by
  unfold Provider.update
  split_ifs
  · exact ⟨rfl, rfl, rfl, hf _, rfl, rfl, rfl, rfl⟩
  · refine ⟨rfl, rfl, List.ext_getElem? fun k => ?_, rfl, rfl, rfl, rfl, rfl⟩
    rw [List.getElem?_map, List.getElem?_map]
    rcases eq_or_ne k i with rfl | hne
    · rw [getElem?_modify_self, Option.map_map]
      exact congrArg (Option.map · s.retired[k]?) (funext hf)
    · rw [getElem?_modify_of_ne hne]

theorem untouched_andThen {outcome : Provider.Outcome N M}
    (rest : Provider N M → Provider.Outcome N M) (h : Untouched s outcome.1)
    (hrest : ∀ u, Untouched u (rest u).1) : Untouched s (outcome.andThen rest).1 := by
  unfold Provider.Outcome.andThen
  split_ifs
  · exact h.trans (hrest _)
  · exact h

theorem untouched_sendOn (s : Provider N M) (i : ℕ) (frame : Frame N M) :
    Untouched s (s.sendOn c i frame).1 := by
  unfold Provider.sendOn
  split
  · exact untouched_update s i fun _ => rfl
  · exact .refl s

theorem untouched_grantPermits (s : Provider N M) : Untouched s (s.grantPermits c).1 :=
  untouched_andThen _ (untouched_sendOn s _ _) fun _ => ⟨rfl, rfl, rfl, rfl, rfl, rfl, rfl, rfl⟩

theorem untouched_announce : ∀ (names : List N) (s : Provider N M),
    Untouched s (s.announce c names).1
  | [], s => .refl s
  | _ :: names, s => untouched_andThen _ (untouched_sendOn s _ _) (untouched_announce names)

theorem untouched_failed (s : Provider N M) (retryable : Bool) :
    Untouched s (s.failed c retryable) := by
  unfold Provider.failed
  split_ifs
  · exact .refl s
  · exact .refl s
  · exact ⟨rfl, rfl, rfl, rfl, rfl, rfl, rfl, rfl⟩

theorem untouched_loopEnds (s : Provider N M) (i : ℕ) (retryable : Bool) :
    Untouched s (s.loopEnds c i retryable) := by
  have hquit : Untouched s (s.quit i) := untouched_update s i fun _ => rfl
  unfold Provider.loopEnds
  split_ifs
  · exact hquit.trans (untouched_failed _ retryable)
  · exact hquit

theorem untouched_heard (s : Provider N M) (stable : Bool) : Untouched s (s.heard stable) := by
  unfold Provider.heard
  split_ifs
  · exact ⟨rfl, rfl, rfl, rfl, rfl, rfl, rfl, rfl⟩
  · exact .refl s

theorem untouched_consume (s : Provider N M) : Untouched s (s.consume c).1 := by
  have hreceived : Untouched s
      { s with
        permits := s.permits - 1
        outbound := { s.outbound with received := s.outbound.received + 1 } } :=
    ⟨rfl, rfl, rfl, rfl, rfl, rfl, rfl, rfl⟩
  unfold Provider.consume
  dsimp only
  split_ifs
  · exact hreceived.trans (untouched_grantPermits _)
  · exact hreceived

theorem untouched_receive (s : Provider N M) (i : ℕ) (instruction stable retryable : Bool) :
    Untouched s (s.receive c i instruction stable retryable).1 := by
  have hacknowledged : Untouched s ((s.heard stable).acknowledge c instruction).1 := by
    refine (untouched_heard s stable).trans ?_
    unfold Provider.acknowledge
    split_ifs
    · exact untouched_sendOn _ _ _
    · exact .refl _
  have hconsumed := untouched_andThen (fun s => s.consume c) hacknowledged untouched_consume
  unfold Provider.receive
  dsimp only
  split_ifs
  · exact hconsumed
  · exact hconsumed.trans (untouched_loopEnds _ i retryable)
  · exact untouched_update s i fun _ => rfl

/-! ## The invariant -/

structure Signals (c : Config) (s : Provider N M) : Prop where
  latest : s.providerAbort + 1 = s.controllers.length
  only : c.renews = false → s.providerAbort = 0
  signals : c.renews = false → ∀ signal ∈ s.retired.map (·.signal), signal = none ∨ signal = some 0
  mine : s.streamStarted = true → s.outbound.signal = some s.providerAbort
  idle : s.streamStarted = false → s.outbound.signal = none
  begun : s.retired ≠ [] → s.streamStarted = true
  stopped : s.stopped = true → s.shuttingDown = true

/-- A stream that was opened again has a controller of its own. -/
def Live (c : Config) (s : Provider N M) : Prop :=
  c.renews = true → s.connected = true → s.shuttingDown = false → s.retired ≠ [] →
    s.controllers[s.providerAbort]? = some false

theorem signals_initial (c : Config) : Signals c (initial N M) where
  latest := rfl
  only := fun _ => rfl
  signals := nofun
  mine := nofun
  idle := fun _ => rfl
  begun := fun h => absurd rfl h
  stopped := nofun

theorem retired_of_untouched (h : Untouched s t) (hne : t.retired ≠ []) : s.retired ≠ [] := by
  intro hnil
  have hsignals := h.signals
  rw [hnil, List.map_nil] at hsignals
  exact hne (List.map_eq_nil_iff.mp hsignals)

theorem Signals.untouched (hs : Signals c s) (h : Untouched s t) : Signals c t := by
  refine ⟨?_, ?_, ?_, ?_, ?_, fun hne => ?_, ?_⟩
  · rw [h.providerAbort, h.controllers]
    exact hs.latest
  · rw [h.providerAbort]
    exact hs.only
  · rw [h.signals]
    exact hs.signals
  · rw [h.streamStarted, h.signal, h.providerAbort]
    exact hs.mine
  · rw [h.streamStarted, h.signal]
    exact hs.idle
  · rw [h.streamStarted]
    exact hs.begun (retired_of_untouched h hne)
  · rw [h.stopped, h.shuttingDown]
    exact hs.stopped

theorem Live.untouched (hl : Live c s) (h : Untouched s t) : Live c t := by
  intro hrenews hon hup hne
  rw [h.controllers, h.providerAbort]
  exact hl hrenews (h.connected ▸ hon) (h.shuttingDown ▸ hup) (retired_of_untouched h hne)

theorem Signals.ensureStreamStarted (hs : Signals c s) : Signals c s.ensureStreamStarted := by
  unfold Provider.ensureStreamStarted
  split_ifs with hstarted
  · exact hs
  · exact { hs with mine := fun _ => rfl, idle := nofun, begun := fun _ => rfl }

theorem Live.ensureStreamStarted (hl : Live c s) : Live c s.ensureStreamStarted := by
  unfold Provider.ensureStreamStarted
  split_ifs
  · exact hl
  · exact hl

/-- The stream that takes the place of the current one, before anything is announced on it. -/
def Provider.opened (s : Provider N M) : Provider N M :=
  Provider.ensureStreamStarted
    { s with
      retired := s.retired ++ [s.outbound]
      outbound := .fresh N M
      streamStarted := false
      permits := 0 }

theorem untouched_reopen (c : Config) (s : Provider N M) (retryable : Bool) :
    Untouched ((if c.renews then s.renew else s).closeOutbound.opened) (s.reopen c retryable) := by
  have hbody :
      Untouched ((if c.renews then s.renew else s).closeOutbound.opened)
      (s.reestablishStreamBody c).1 :=
    untouched_andThen _ (untouched_announce _ _) untouched_grantPermits
  unfold Provider.reopen
  generalize (if c.renews then s.renew else s).closeOutbound.opened = opened at hbody
  split_ifs
  · exact hbody
  · exact hbody.trans (untouched_failed _ retryable)

/-- The new stream takes the signal of the controller there is. -/
theorem signals_opened (hlatest : s.providerAbort + 1 = s.controllers.length)
    (hstopped : s.stopped = true → s.shuttingDown = true)
    (hkept : c.renews = false → s.providerAbort = 0 ∧ ∀ signal ∈ s.opened.retired.map (·.signal),
    signal = none ∨ signal = some 0) :
    Signals c s.opened where
  latest := hlatest
  only := fun hrenews => (hkept hrenews).1
  signals := fun hrenews => (hkept hrenews).2
  mine := fun _ => rfl
  idle := nofun
  begun := fun _ => rfl
  stopped := hstopped

theorem Signals.reopen (hs : Signals c s) (retryable : Bool) : Signals c (s.reopen c retryable) ∧
    Live c (s.reopen c retryable) := by
  have huntouched := untouched_reopen c s retryable
  cases hrenews : c.renews with
  | true =>
      rw [hrenews, if_pos rfl] at huntouched
      have hlength : (s.controllers.set s.providerAbort true).length = s.controllers.length :=
        List.length_set
      have hopened : Signals c s.renew.closeOutbound.opened := by
        refine signals_opened ?_ hs.stopped fun h => absurd (hrenews.symm.trans h) nofun
        show s.controllers.length + 1 = (s.controllers.set s.providerAbort true ++ [false]).length
        rw [List.length_append, hlength]
        rfl
      have hlive : Live c s.renew.closeOutbound.opened := by
        intro _ _ _ _
        show (s.controllers.set s.providerAbort true ++ [false])[s.controllers.length]? = some false
        rw [← hlength]
        exact List.getElem?_concat_length
      exact ⟨hopened.untouched huntouched, hlive.untouched huntouched⟩
  | false =>
      rw [hrenews, if_neg Bool.false_ne_true] at huntouched
      have hopened : Signals c s.closeOutbound.opened := by
        refine signals_opened hs.latest hs.stopped fun hkept =>
          ⟨hs.only hkept, fun signal hsignal => ?_⟩
        rw [show s.closeOutbound.opened.retired = s.retired ++ [s.closeOutbound.outbound] from rfl,
          List.map_append] at hsignal
        rcases List.mem_append.mp hsignal with hold | hnow
        · exact hs.signals hkept signal hold
        · rw [List.mem_singleton.mp hnow]
          cases hstarted : s.streamStarted with
          | true => exact .inr ((hs.mine hstarted).trans (congrArg some (hs.only hkept)))
          | false => exact .inl (hs.idle hstarted)
      exact ⟨hopened.untouched huntouched, fun h => absurd (hrenews.symm.trans h) nofun⟩

theorem Signals.timerFires (hs : Signals c s) (hl : Live c s) (retryable : Bool) :
    Signals c (s.timerFires c retryable) ∧ Live c (s.timerFires c retryable) := by
  have hfired : Signals c { s with timer := false } :=
    hs.untouched ⟨rfl, rfl, rfl, rfl, rfl, rfl, rfl, rfl⟩
  unfold Provider.timerFires
  dsimp only
  split_ifs
  · exact ⟨hfired, hl⟩
  · exact hfired.reopen retryable

theorem Signals.disconnect (hs : Signals c s) : Signals c s.disconnect where
  latest := hs.latest.trans List.length_set.symm
  only := hs.only
  signals := hs.signals
  mine := hs.mine
  idle := hs.idle
  begun := hs.begun
  stopped := hs.stopped

/-- The stream is opened again when the connection is back, so its controller is not the
aborted one. -/
theorem Signals.reconnect (hs : Signals c s) (retryable : Bool) :
    Signals c (s.reconnect c retryable) ∧ Live c (s.reconnect c retryable) := by
  have hback : Signals c { s with connected := true } :=
    ⟨hs.latest, hs.only, hs.signals, hs.mine, hs.idle, hs.begun, hs.stopped⟩
  unfold Provider.reconnect
  dsimp only
  split_ifs with hserving <;> rw [Bool.and_eq_true, Bool.not_eq_true'] at hserving
  · unfold Provider.restart
    split_ifs with hrefused
    · rcases Bool.or_eq_true_iff.mp hrefused with hstopped | hrefused
      · exact absurd (hserving.1.symm.trans (hs.stopped hstopped)) nofun
      · simp [Provider.canReconnect, hserving.1] at hrefused
    · have hrestarted : Signals c { s with connected := true, timer := false, attempts := 0 } :=
        hback.untouched ⟨rfl, rfl, rfl, rfl, rfl, rfl, rfl, rfl⟩
      exact hrestarted.reopen retryable
  · exact ⟨hback, fun _ _ hup hne => absurd ⟨hup, hs.begun hne⟩ hserving⟩

theorem Signals.subscribe [DecidableEq N] (hs : Signals c s) (hl : Live c s) (name : N)
    (accepted : Bool) :
    Signals c (s.subscribe c name accepted) ∧ Live c (s.subscribe c name accepted) := by
  have hnamed : Untouched s (s.addName name) := ⟨rfl, rfl, rfl, rfl, rfl, rfl, rfl, rfl⟩
  have hannounced := untouched_andThen (fun s => s.grantPermits c)
    (untouched_sendOn (c := c) (s.addName name).ensureStreamStarted
      (s.addName name).ensureStreamStarted.current (.subscribe name))
    untouched_grantPermits
  have hsignals := (hs.untouched hnamed).ensureStreamStarted.untouched hannounced
  have hlive := (hl.untouched hnamed).ensureStreamStarted.untouched hannounced
  unfold Provider.subscribe
  dsimp only
  split_ifs
  · exact ⟨hsignals.untouched ⟨rfl, rfl, rfl, rfl, rfl, rfl, rfl, rfl⟩, hlive⟩
  · exact ⟨hsignals, hlive⟩
  · exact ⟨hs.untouched hnamed, hl.untouched hnamed⟩

/-- The steps that neither open a stream nor lose the connection. -/
theorem untouched_step [DecidableEq N] {action : Action N M} (h : step c s action = some t) :
    Untouched s t ∨ (∃ name accepted, t = s.subscribe c name accepted) ∨
      (∃ retryable, t = s.timerFires c retryable) ∨
      t = s.disconnect ∨ (∃ retryable, t = s.reconnect c retryable) ∨ t = s.shutdown := by
  have hstream : ∀ (i : ℕ) (f : Stream (Frame N M) → Stream (Frame N M)),
      Untouched s (s.stream i f) :=
    fun i f => untouched_update s i fun _ => rfl
  cases action with
  | subscribe name accepted => exact .inr (.inl ⟨name, accepted, (Option.some.inj h).symm⟩)
  | receive i instruction stable retryable =>
      simp only [step, Option.ite_none_right_eq_some, Option.some.injEq] at h
      exact .inl (h.2 ▸ untouched_receive s i instruction stable retryable)
  | loopEnds i retryable =>
      simp only [step, Option.ite_none_right_eq_some, Option.some.injEq] at h
      exact .inl (h.2 ▸ untouched_loopEnds s i retryable)
  | giveUp i =>
      simp only [step, Option.ite_none_right_eq_some, Option.some.injEq] at h
      exact .inl (h.2 ▸ (hstream i Stream.close).trans (untouched_update _ i fun _ => rfl))
  | sendOn i body => exact .inl (Option.some.inj h ▸ untouched_sendOn s i _)
  | flush i => exact .inl (Option.some.inj h ▸ hstream i _)
  | next i =>
      simp only [step, Option.ite_none_right_eq_some, Option.some.injEq] at h
      exact .inl (h.2 ▸ hstream i _)
  | «return» i =>
      simp only [step, Option.ite_none_right_eq_some, Option.some.injEq] at h
      exact .inl (h.2 ▸ hstream i _)
  | timer retryable =>
      simp only [step, Option.ite_none_right_eq_some, Option.some.injEq] at h
      exact .inr (.inr (.inl ⟨retryable, h.2.symm⟩))
  | disconnect => exact .inr (.inr (.inr (.inl (Option.some.inj h).symm)))
  | reconnect retryable =>
      exact .inr (.inr (.inr (.inr (.inl ⟨retryable, (Option.some.inj h).symm⟩))))
  | shutdown => exact .inr (.inr (.inr (.inr (.inr (Option.some.inj h).symm))))

theorem signals_step [DecidableEq N] {action : Action N M} (hs : Signals c s) (hl : Live c s)
    (h : step c s action = some t) :
    Signals c t ∧ Live c t := by
  rcases untouched_step h with
    h | ⟨name, accepted, rfl⟩ | ⟨retryable, rfl⟩ | rfl | ⟨retryable, rfl⟩ | rfl
  · exact ⟨hs.untouched h, hl.untouched h⟩
  · exact hs.subscribe hl name accepted
  · exact hs.timerFires hl retryable
  · exact ⟨hs.disconnect, nofun⟩
  · exact hs.reconnect retryable
  · exact ⟨⟨hs.latest, hs.only, hs.signals, hs.mine, hs.idle, hs.begun, fun _ => rfl⟩, nofun⟩

theorem signals_of_reach [DecidableEq N] (h : Reach (step c) always (initial N M) s) :
    Signals c s ∧ Live c s :=
  h.invariant (I := fun s => Signals c s ∧ Live c s) ⟨signals_initial c,
    fun _ _ _ hne => absurd rfl hne⟩
    fun _ _ _ _ hi _ hs => signals_step hi.1 hi.2 hs

/-! ## The controller that is not renewed -/

theorem controllers_reopen (hrenews : c.renews = false) (s : Provider N M) (retryable : Bool) :
    (s.reopen c retryable).controllers = s.controllers := by
  have huntouched := untouched_reopen c s retryable
  rw [hrenews, if_neg Bool.false_ne_true] at huntouched
  exact huntouched.controllers

theorem controllers_subscribe [DecidableEq N] (s : Provider N M) (name : N) (accepted : Bool) :
    (s.subscribe c name accepted).controllers = s.controllers := by
  have hannounced := untouched_andThen (fun s => s.grantPermits c)
    (untouched_sendOn (c := c) (s.addName name).ensureStreamStarted
      (s.addName name).ensureStreamStarted.current (.subscribe name))
    untouched_grantPermits
  have hstarted : (s.addName name).ensureStreamStarted.controllers = s.controllers := by
    unfold Provider.ensureStreamStarted
    split_ifs <;> rfl
  unfold Provider.subscribe
  dsimp only
  split_ifs
  · exact hannounced.controllers.trans hstarted
  · exact hannounced.controllers.trans hstarted
  · rfl

/-- Without a new controller the old one stays aborted. -/
theorem aborted_step [DecidableEq N] {action : Action N M} (hrenews : c.renews = false)
    (habort : s.controllers[0]? = some true) (h : step c s action = some t) :
    t.controllers[0]? = some true := by
  rcases untouched_step h with
    h | ⟨name, accepted, rfl⟩ | ⟨retryable, rfl⟩ | rfl | ⟨retryable, rfl⟩ | rfl
  · rw [h.controllers]
    exact habort
  · rw [controllers_subscribe]
    exact habort
  · unfold Provider.timerFires
    dsimp only
    split_ifs
    · exact habort
    · rw [controllers_reopen hrenews]
      exact habort
  · show (s.controllers.set s.providerAbort true)[0]? = some true
    rcases eq_or_ne 0 s.providerAbort with heq | hne
    · rw [← heq]
      exact getElem?_set_of_some habort
    · exact getElem?_set_of_ne hne habort
  · unfold Provider.reconnect Provider.restart
    dsimp only
    split_ifs
    · exact habort
    · rw [controllers_reopen hrenews]
      exact habort
    · exact habort
  · exact habort

/-- Where a stream that is opened again gets a new controller, the current stream is never opened
with an aborted signal while the connection is there. Where it does not, every stream that is opened
after the connection was once lost is opened with a signal that is aborted already. -/
theorem stream_is_live_again_only_with_a_new_controller [DecidableEq N] (c : Config) :
    (c.renews = true → ∀ s : Provider N M,
      Reach (step c) always (initial N M) s → s.connected = true →
      s.shuttingDown = false → s.retired ≠ [] →
        ∃ k : ℕ, s.outbound.signal = some k ∧ s.controllers[k]? = some false) ∧
    (c.renews = false → ∀ s t : Provider N M, Reach (step c) always (initial N M) s →
      Reach (step c) always s.disconnect t → ∀ mine ∈ t.incarnations,
        mine.signal = none ∨ ∃ k : ℕ, mine.signal = some k ∧ t.controllers[k]? = some true) := by
  refine ⟨fun hrenews s h hon hup hne => ?_, fun hrenews s t h ht mine hmine => ?_⟩
  · obtain ⟨hs, hl⟩ := signals_of_reach h
    exact ⟨s.providerAbort, hs.mine (hs.begun hne), hl hrenews hon hup hne⟩
  · have hs := (signals_of_reach h).1
    have hone : s.controllers.length = 1 := by rw [← hs.latest, hs.only hrenews]
    have hlost : s.disconnect.controllers[0]? = some true := by
      show (s.controllers.set s.providerAbort true)[0]? = some true
      rw [hs.only hrenews]
      exact List.getElem?_set_self (by rw [hone]; exact Nat.one_pos)
    have hend : t.controllers[0]? = some true :=
      ht.invariant (I := fun u => u.controllers[0]? = some true) hlost fun _ _ _ _ habort _ hstep =>
        aborted_step hrenews habort hstep
    have hlater : Signals c t :=
      (signals_of_reach ((h.next (a := .disconnect) trivial rfl).trans ht)).1
    have hopened : mine.signal = none ∨ mine.signal = some 0 := by
      rcases List.mem_append.mp hmine with hold | hnow
      · exact hlater.signals hrenews mine.signal (List.mem_map_of_mem hold)
      · rw [List.mem_singleton.mp hnow]
        cases hstarted : t.streamStarted with
        | true => exact .inr ((hlater.mine hstarted).trans (congrArg some (hlater.only hrenews)))
        | false => exact .inl (hlater.idle hstarted)
    exact hopened.imp_right fun hzero => ⟨0, hzero, hend⟩

/-- A bus that takes one message at a time. -/
def bus (renews : Bool) : Config := ⟨1, 0, Nat.one_pos, 4096, 30, renews⟩

/-- The connection is lost and comes back, on the command bus and on the query bus. -/
theorem stream_is_live_again_after_loss :
    (∃ s : Provider Char Unit, Reach (step (bus true)) always (initial Char Unit) s ∧
      s.retired.length = 1 ∧ ∃ k : ℕ, s.outbound.signal = some k ∧ s.controllers[k]? = some false) ∧
    ∃ s t : Provider Char Unit, Reach (step (bus false)) always (initial Char Unit) s ∧
      Reach (step (bus false)) always s.disconnect t ∧ t.connected = true ∧ t.retired.length = 1 ∧
        t.outbound.signal = some 0 ∧ ∀ mine ∈ t.incarnations,
          mine.signal = none ∨ ∃ k : ℕ, mine.signal = some k ∧ t.controllers[k]? = some true := by
  constructor
  · obtain ⟨s, hs, hone, hon, hup⟩ := reach_exec_any (s := initial Char Unit)
      (P := fun s => s.retired.length = 1 ∧ s.connected = true ∧ s.shuttingDown = false)
      (show ((exec (step (bus true)) (initial Char Unit)
        [.subscribe 'a' true, .disconnect, .reconnect true]).any fun s =>
          decide _) = true by decide)
    have hne : s.retired ≠ [] := by
      intro hnil
      rw [hnil] at hone
      cases hone
    exact ⟨s, hs, hone,
      (stream_is_live_again_only_with_a_new_controller (bus true)).1 rfl s hs hon hup hne⟩
  · have hs : Reach (step (bus false)) always (initial Char Unit)
        ((initial Char Unit).subscribe (bus false) 'a' true) :=
      Reach.start.next (a := .subscribe 'a' true) trivial rfl
    obtain ⟨t, ht, hon, hone, hsignal⟩ := reach_exec_any
      (s := ((initial Char Unit).subscribe (bus false) 'a' true).disconnect)
      (P := fun t => t.connected = true ∧ t.retired.length = 1 ∧ t.outbound.signal = some 0)
      (show ((exec (step (bus false))
        ((initial Char Unit).subscribe (bus false) 'a' true).disconnect
        [.reconnect true]).any fun t => decide _) = true by decide)
    exact ⟨_, t, hs, ht, hon, hone, hsignal,
      (stream_is_live_again_only_with_a_new_controller (bus false)).2 rfl _ t hs ht⟩

end Kronos.AxonServer.ProviderStream
