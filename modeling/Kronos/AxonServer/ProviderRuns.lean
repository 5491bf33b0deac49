import Kronos.AxonServer.ProviderStream
import Kronos.Lib.Slots

/-!
# What the provider stream keeps of its incarnations

An incarnation is never forgotten, its outbound stream only moves on, and what a bus
sends on its own account is on it only by the bus.
-/
namespace Kronos.AxonServer.ProviderStream
open Kronos.AxonServer.OutboundStream Kronos.Lib.Slots Kronos.Lib.Transition

variable {N M : Type} {c : Config} {s t u : Provider N M} {i : ℕ} {mine : Incarnation N M}

/-- What the bus sent on its own account. -/
def messages (sent : List (Frame N M)) : List M :=
  sent.filterMap fun
    | .message body => some body
    | _ => none

theorem messages_concat {frame : Frame N M} (hframe : ∀ body, frame ≠ .message body)
    (sent : List (Frame N M)) :
    messages (sent ++ [frame]) = messages sent := by
  unfold messages
  rw [List.filterMap_append]
  cases frame with
  | subscribe name => exact List.append_nil _
  | flowControl permits => exact List.append_nil _
  | ack => exact List.append_nil _
  | message body => exact absurd rfl (hframe body)

/-- The outbound streams are streams. -/
def Sound (c : Config) (s : Provider N M) : Prop :=
  ∀ mine ∈ s.incarnations, OutboundStream.Inv c.maxBuffered mine.out

/-- An operation moves the streams on, and sends nothing on the bus's account. -/
structure Advance (c : Config) (s t : Provider N M) : Prop where
  sound : Sound c t
  streams : ∀ (i : ℕ) (mine : Incarnation N M), s.incarnations[i]? = some mine →
    ∃ later : Incarnation N M, t.incarnations[i]? = some later ∧ Later mine.out later.out ∧
      messages later.out.accepted = messages mine.out.accepted
  fresh : ∀ (i : ℕ) (later : Incarnation N M), s.incarnations[i]? = none →
    t.incarnations[i]? = some later →
    messages later.out.accepted = []

theorem Advance.same (hs : Sound c s) (h : t.incarnations = s.incarnations) : Advance c s t where
  sound := by
    unfold Sound
    rw [h]
    exact hs
  streams := fun i mine hmine => ⟨mine, by rw [h, hmine], .refl _, rfl⟩
  fresh := by
    intro i later hnone hsome
    rw [h, hnone] at hsome
    cases hsome

theorem Advance.trans (h : Advance c s t) (k : Sound c t → Advance c t u) : Advance c s u where
  sound := (k h.sound).sound
  streams := by
    intro i mine hmine
    obtain ⟨later, hlater, hmoved, hmessages⟩ := h.streams i mine hmine
    obtain ⟨last, hlast, hmoved', hmessages'⟩ := (k h.sound).streams i later hlater
    exact ⟨last, hlast, hmoved.trans hmoved', hmessages'.trans hmessages⟩
  fresh := by
    intro i last hnone hlast
    cases ht : t.incarnations[i]? with
    | none => exact (k h.sound).fresh i last ht hlast
    | some later =>
        obtain ⟨last', hlast', -, hmessages⟩ := (k h.sound).streams i later ht
        obtain rfl := Option.some.inj (hlast'.symm.trans hlast)
        exact hmessages.trans (h.fresh i later hnone ht)

theorem incarnations_update (s : Provider N M) (i : ℕ) (f : Incarnation N M → Incarnation N M) :
    (s.update i f).incarnations = s.incarnations.modify i f := by
  unfold Provider.update Provider.incarnations
  split_ifs with hcurrent
  · rw [hcurrent]
    exact (modify_concat_length s.retired s.outbound f).symm
  · exact (modify_concat_of_ne hcurrent s.outbound f).symm

/-- The incarnation with the number `i` is changed. -/
theorem Advance.modify {f : Incarnation N M → Incarnation N M} (hs : Sound c s)
    (h : t.incarnations = s.incarnations.modify i f)
    (hf : ∀ mine,
      s.incarnations[i]? = some mine → OutboundStream.Inv c.maxBuffered
      (f mine).out ∧ Later mine.out (f mine).out ∧
      messages (f mine).out.accepted = messages mine.out.accepted) : Advance c s t where
  sound := by
    intro mine hmem
    rw [h] at hmem
    obtain ⟨k, hk⟩ := List.mem_iff_getElem?.mp hmem
    rcases eq_or_ne k i with rfl | hne
    · rw [getElem?_modify_self] at hk
      obtain ⟨earlier, hearlier, rfl⟩ := Option.map_eq_some_iff.mp hk
      exact (hf earlier hearlier).1
    · rw [getElem?_modify_of_ne hne] at hk
      exact hs mine (List.mem_of_getElem? hk)
  streams := by
    intro k mine hmine
    rw [h]
    rcases eq_or_ne k i with rfl | hne
    · rw [getElem?_modify_self, hmine]
      exact ⟨f mine, rfl, (hf mine hmine).2⟩
    · rw [getElem?_modify_of_ne hne]
      exact ⟨mine, hmine, .refl _, rfl⟩
  fresh := by
    intro k later hnone hsome
    rw [h, List.getElem?_modify, hnone] at hsome
    cases hsome

theorem Advance.stream {f : Stream (Frame N M) → Stream (Frame N M)} (hs : Sound c s) (i : ℕ)
    (hf : ∀ stream,
      OutboundStream.Inv c.maxBuffered stream → OutboundStream.Inv c.maxBuffered
      (f stream) ∧ Later stream (f stream))
    (haccepted : ∀ stream, (f stream).accepted = stream.accepted) : Advance c s (s.stream i f) := by
  refine .modify hs (incarnations_update s i _) fun mine hmine => ?_
  have hmoved := hf mine.out (hs mine (List.mem_of_getElem? hmine))
  exact ⟨hmoved.1, hmoved.2, congrArg messages (haccepted mine.out)⟩

theorem Advance.sendOn {frame : Frame N M} (hs : Sound c s) (i : ℕ)
    (hframe : ∀ body, frame ≠ .message body) :
    Advance c s (s.sendOn c i frame).1 := by
  unfold Provider.sendOn
  cases hsend : s.incarnations[i]?.bind fun mine => mine.out.send c.maxBuffered frame with
  | none => exact .same hs rfl
  | some out =>
      obtain ⟨mine, hmine, hout⟩ := Option.bind_eq_some_iff.mp hsend
      refine .modify hs (incarnations_update s i _) fun other hother => ?_
      obtain rfl := Option.some.inj (hmine.symm.trans hother)
      refine ⟨(hs mine (List.mem_of_getElem? hmine)).send hout, later_send hout, ?_⟩
      rw [accepted_of_send hout, messages_concat hframe]

theorem Advance.andThen {outcome : Provider.Outcome N M}
    (rest : Provider N M → Provider.Outcome N M) (h : Advance c s outcome.1)
    (hrest : ∀ u, Sound c u → Advance c u (rest u).1) : Advance c s (outcome.andThen rest).1 := by
  unfold Provider.Outcome.andThen
  split_ifs
  · exact h.trans (hrest _)
  · exact h

theorem Advance.grantPermits (hs : Sound c s) : Advance c s (s.grantPermits c).1 :=
  .andThen _ (.sendOn hs _ nofun) fun _ hu => .same hu rfl

theorem Advance.announce : ∀ (names : List N) (s : Provider N M), Sound c s →
    Advance c s (s.announce c names).1
  | [], _, hs => .same hs rfl
  | _ :: names, _, hs => .andThen _ (.sendOn hs _ nofun) fun u hu => Advance.announce names u hu

theorem Advance.failed (hs : Sound c s) (retryable : Bool) :
    Advance c s (s.failed c retryable) := by
  unfold Provider.failed
  split_ifs
  · exact .same hs rfl
  · exact .same hs rfl
  · exact .same hs rfl

theorem Advance.quit (hs : Sound c s) (i : ℕ) : Advance c s (s.quit i) :=
  .modify hs (incarnations_update s i _) fun mine hmine =>
    ⟨hs mine (List.mem_of_getElem? hmine), .refl _, rfl⟩

theorem Advance.loopEnds (hs : Sound c s) (i : ℕ) (retryable : Bool) :
    Advance c s (s.loopEnds c i retryable) := by
  unfold Provider.loopEnds
  split_ifs
  · exact (Advance.quit hs i).trans fun hq => .failed hq retryable
  · exact .quit hs i

theorem Advance.heard (hs : Sound c s) (stable : Bool) : Advance c s (s.heard stable) := by
  unfold Provider.heard
  split_ifs
  · exact .same hs rfl
  · exact .same hs rfl

theorem Advance.acknowledge (hs : Sound c s) (instruction : Bool) :
    Advance c s (s.acknowledge c instruction).1 := by
  unfold Provider.acknowledge
  split_ifs
  · exact .sendOn hs _ nofun
  · exact .same hs rfl

/-- The incarnation that is `outbound` is changed. -/
theorem Advance.outbound (mine : Incarnation N M) (hs : Sound c s)
    (h : t.incarnations = s.retired ++ [mine]) (hsound : OutboundStream.Inv c.maxBuffered mine.out)
    (hlater : Later s.outbound.out mine.out)
    (haccepted : mine.out.accepted = s.outbound.out.accepted) : Advance c s t := by
  refine .modify (i := s.current) (f := fun _ => mine) hs ?_ fun other hother => ?_
  · rw [h]
    exact (modify_concat_length s.retired s.outbound fun _ => mine).symm
  · have hlast : s.incarnations[s.current]? = some s.outbound := List.getElem?_concat_length
    obtain rfl := Option.some.inj (hlast.symm.trans hother)
    exact ⟨hsound, hlater, congrArg messages haccepted⟩

theorem sound_outbound (hs : Sound c s) : OutboundStream.Inv c.maxBuffered s.outbound.out :=
  hs s.outbound (List.mem_append_right _ List.mem_cons_self)

theorem Advance.consume (hs : Sound c s) : Advance c s (s.consume c).1 := by
  have hreceived : Advance c s
      { s with
        permits := s.permits - 1
        outbound := { s.outbound with received := s.outbound.received + 1 } } :=
    .outbound { s.outbound with received := s.outbound.received + 1 } hs rfl (sound_outbound hs)
      (.refl _) rfl
  unfold Provider.consume
  dsimp only
  split_ifs
  · exact hreceived.trans Advance.grantPermits
  · exact hreceived

theorem Advance.receive (hs : Sound c s) (i : ℕ) (instruction stable retryable : Bool) :
    Advance c s (s.receive c i instruction stable retryable).1 := by
  have hacknowledged := (Advance.heard hs stable).trans fun hh => .acknowledge hh instruction
  have hconsumed := hacknowledged.andThen (fun s => s.consume c) fun _ hu => .consume hu
  unfold Provider.receive
  dsimp only
  split_ifs
  · exact hconsumed
  · exact hconsumed.trans fun hu => .loopEnds hu i retryable
  · exact .quit hs i

theorem Advance.ensureStreamStarted (hs : Sound c s) : Advance c s s.ensureStreamStarted := by
  unfold Provider.ensureStreamStarted
  split_ifs
  · exact .same hs rfl
  · have hsound := sound_outbound hs
    have hopened : OutboundStream.Inv c.maxBuffered (s.outbound.out.iterator.getD s.outbound.out) ∧
        Later s.outbound.out (s.outbound.out.iterator.getD s.outbound.out) ∧
        (s.outbound.out.iterator.getD s.outbound.out).accepted = s.outbound.out.accepted := by
      cases hiterator : s.outbound.out.iterator with
      | none => exact ⟨hsound, .refl _, rfl⟩
      | some out =>
          exact ⟨hsound.iterator hiterator, later_iterator hiterator,
            accepted_of_iterator hiterator⟩
    exact .outbound _ hs rfl hopened.1 hopened.2.1 hopened.2.2

theorem Advance.closeOutbound (hs : Sound c s) : Advance c s s.closeOutbound :=
  .outbound _ hs rfl (sound_outbound hs).close (later_close _) (accepted_close _)

/-- A fresh stream takes the place of the current one. -/
theorem Advance.push {mine : Incarnation N M} (hs : Sound c s)
    (h : t.incarnations = s.incarnations ++ [mine]) (hmine : mine.out = outboundStream) :
    Advance c s t where
  sound := by
    intro other hother
    rw [h] at hother
    rcases List.mem_append.mp hother with hold | hnow
    · exact hs other hold
    · rw [List.mem_singleton.mp hnow, hmine]
      exact inv_initial c.maxBuffered
  streams := by
    intro i other hother
    rw [h]
    exact ⟨other, getElem?_append_of_some hother, .refl _, rfl⟩
  fresh := by
    intro i later hnone hlater
    rw [h] at hlater
    rcases getElem?_concat_cases hlater with ⟨-, rfl⟩ | hold
    · rw [hmine]
      rfl
    · rw [hnone] at hold
      cases hold

theorem Advance.reopen (hs : Sound c s) (retryable : Bool) :
    Advance c s (s.reopen c retryable) := by
  have hclosed : Advance c s (if c.renews then s.renew else s).closeOutbound := by
    split_ifs
    · exact (Advance.same (t := s.renew) hs rfl).trans Advance.closeOutbound
    · exact .closeOutbound hs
  have hbody : Advance c s (s.reestablishStreamBody c).1 := by
    refine Advance.andThen _ ?_ fun _ hu => .grantPermits hu
    refine hclosed.trans fun hu => ?_
    refine (Advance.push hu (t := { (if c.renews then s.renew else s).closeOutbound with
      retired := (if c.renews then s.renew else s).closeOutbound.incarnations
      outbound := .fresh N M
      streamStarted := false
      permits := 0 }) rfl rfl).trans fun hp => ?_
    exact (Advance.ensureStreamStarted hp).trans fun he => .announce _ _ he
  unfold Provider.reopen
  split_ifs
  · exact hbody
  · exact hbody.trans fun hu => .failed hu retryable

theorem Advance.timerFires (hs : Sound c s) (retryable : Bool) :
    Advance c s (s.timerFires c retryable) := by
  have hfired : Advance c s { s with timer := false } := .same hs rfl
  unfold Provider.timerFires
  dsimp only
  split_ifs
  · exact hfired
  · exact hfired.trans fun hu => .reopen hu retryable

theorem Advance.reconnect (hs : Sound c s) (retryable : Bool) :
    Advance c s (s.reconnect c retryable) := by
  have hback : Advance c s { s with connected := true } := .same hs rfl
  have hrestarted : Advance c s { s with connected := true, timer := false, attempts := 0 } :=
    .same hs rfl
  unfold Provider.reconnect Provider.restart
  dsimp only
  split_ifs
  · exact hback
  · exact hrestarted.trans fun hu => .reopen hu retryable
  · exact hback

theorem Advance.disconnect (hs : Sound c s) : Advance c s s.disconnect := by
  have haborted : Advance c s s.abort := .same hs rfl
  exact (haborted.trans Advance.closeOutbound).trans fun hu => .same hu rfl

theorem Advance.subscribe [DecidableEq N] (hs : Sound c s) (name : N) (accepted : Bool) :
    Advance c s (s.subscribe c name accepted) := by
  have hnamed : Advance c s (s.addName name) := .same hs rfl
  have hannounced : Advance c s
      (((s.addName name).ensureStreamStarted.sendSubscribe c name).andThen fun s =>
        s.grantPermits c).1 :=
    .andThen _
      (hnamed.trans fun hn => (Advance.ensureStreamStarted hn).trans fun he => .sendOn he _ nofun)
      fun _ hu => .grantPermits hu
  unfold Provider.subscribe
  dsimp only
  split_ifs
  · exact hannounced.trans fun hu => .same hu rfl
  · exact hannounced
  · exact hnamed

theorem advance_step [DecidableEq N] {action : Action N M} (hs : Sound c s)
    (haction : ∀ i body, action ≠ .sendOn i body) (h : step c s action = some t) :
    Advance c s t := by
  cases action with
  | subscribe name accepted => exact Option.some.inj h ▸ .subscribe hs name accepted
  | receive i instruction stable retryable =>
      simp only [step, Option.ite_none_right_eq_some, Option.some.injEq] at h
      exact h.2 ▸ .receive hs i instruction stable retryable
  | loopEnds i retryable =>
      simp only [step, Option.ite_none_right_eq_some, Option.some.injEq] at h
      exact h.2 ▸ .loopEnds hs i retryable
  | giveUp i =>
      simp only [step, Option.ite_none_right_eq_some, Option.some.injEq] at h
      exact h.2 ▸
        (Advance.stream hs i (fun stream hi => ⟨hi.close, later_close stream⟩) accepted_close).trans
        fun hu => .quit hu i
  | sendOn i body => exact absurd rfl (haction i body)
  | flush i =>
      exact Option.some.inj h ▸
        .stream hs i (fun stream hi => ⟨hi.flush, later_flush stream⟩) fun _ => rfl
  | next i =>
      simp only [step, Option.ite_none_right_eq_some, Option.some.injEq] at h
      exact h.2 ▸ .stream hs i (fun _ hi => ⟨hi.next, later_next hi⟩) accepted_next
  | «return» i =>
      simp only [step, Option.ite_none_right_eq_some, Option.some.injEq] at h
      exact h.2 ▸ .stream hs i (fun stream hi => ⟨hi.return, later_return stream⟩) accepted_return
  | timer retryable =>
      simp only [step, Option.ite_none_right_eq_some, Option.some.injEq] at h
      exact h.2 ▸ .timerFires hs retryable
  | disconnect => exact Option.some.inj h ▸ .disconnect hs
  | reconnect retryable => exact Option.some.inj h ▸ .reconnect hs retryable
  | shutdown => exact Option.some.inj h ▸ .same hs rfl

end Kronos.AxonServer.ProviderStream
