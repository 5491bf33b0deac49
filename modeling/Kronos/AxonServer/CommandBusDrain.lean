import Kronos.AxonServer.CommandBus
import Kronos.AxonServer.ProviderRuns

/-!
# What a shutdown waits for

A command is answered at most once, and only on the stream it came on. When a promise of
the shutdown is resolved, every command that was taken is over: the transport has read its
answer, unless the stream was closed or had no room for it.
-/
namespace Kronos.AxonServer.CommandBus
open Kronos.AxonServer.ProviderStream Kronos.AxonServer.ShutdownLatch
open Kronos.AxonServer.OutboundStream
open Kronos.Messaging Kronos.Lib.Slots Kronos.Lib.Transition

section Works
variable {N R : Type}

/-- It holds an activity of the latch. -/
def Work.held (work : Work N R) : Bool := work.activity.any ShutdownLatch.Handle.live

/-- A command that holds a place among the handlers. -/
def Work.running (work : Work N R) : Bool :=
  work.command.isSome && work.admission.any Messaging.Handle.live

/-- What holds of the command `k`. -/
structure Good (provider : Provider N Response) (k : ℕ) (work : Work N R) : Prop where
  stream : ∀ (i : ℕ) (name : N), work.command = some (i, name) → ∃ mine : Incarnation N Response,
    provider.incarnations[i]? = some mine
  live : work.phase ≠ .ended → (∀ handle ∈ work.activity, handle.ended = false) ∧
    ∀ handle ∈ work.admission, handle.ended = false
  finished : work.phase = .ended → work.held = false ∧ work.running = false
  flushing : ∀ flush : ℕ, work.phase = .flushing flush →
    ∃ (i : ℕ) (name : N) (mine : Incarnation N Response) (call : Flush) (answer : Answer),
    work.command = some (i, name) ∧ provider.incarnations[i]? = some mine ∧
      mine.out.flushes[flush]? = some call ∧
      .message ⟨k, answer⟩ ∈ mine.out.accepted.take call.upTo ∧
        (call.late = true → mine.out.closed = true)
  ended : work.phase = .ended → ∀ (i : ℕ) (name : N), work.command = some (i, name) →
    work.overflow = true ∨
    ∃ mine : Incarnation N Response, provider.incarnations[i]? = some mine ∧
      (mine.out.closed = true ∨ ∃ answer : Answer, .message ⟨k, answer⟩ ∈ mine.out.delivered)

end Works

variable {N R : Type}

structure Inv (c : Config) (handlers : ℕ) (s : Bus N R) : Prop where
  sound : Sound c s.provider
  counts : s.latch.Counts (s.works.countP Work.held)
  running : s.inboundAdmission.active = (s.works.countP Work.running : ℤ)
  limited : s.inboundAdmission.active ≤ handlers ∧ s.inboundAdmission.limit = handlers
  works : ∀ (k : ℕ) (work : Work N R), s.works[k]? = some work → Good s.provider k work
  once : ∀ (i : ℕ) (mine : Incarnation N Response), s.provider.incarnations[i]? = some mine →
    ((messages mine.out.accepted).map Response.work).Nodup
  own : ∀ (i : ℕ) (mine : Incarnation N Response), s.provider.incarnations[i]? = some mine →
    ∀ response ∈ messages mine.out.accepted, ∃ (work : Work N R) (name : N),
      s.works[response.work]? = some work ∧ work.command = some (i, name) ∧ work.phase ≠ .handling

/-- Every command in the hands of a handler was admitted. -/
def Admitted (works : List (Work N R)) : Prop :=
  ∀ (j : ℕ) (work : Work N R), works[j]? = some work → work.phase = .handling →
    work.command.isSome = true → work.running = true

section Steps
variable {c : Config} {handlers : ℕ} {s t : Bus N R} {k i : ℕ} {work : Work N R}

/-- The streams move on; what is known of a command stays. -/
theorem Good.advance {provider later : Provider N Response} (h : Good provider k work)
    (hadvance : ∀ (i : ℕ) (mine : Incarnation N Response), provider.incarnations[i]? = some mine →
      ∃ after : Incarnation N Response, later.incarnations[i]? = some after ∧
        Later mine.out after.out) : Good later k work where
  stream := by
    intro i name hcommand
    obtain ⟨mine, hmine⟩ := h.stream i name hcommand
    obtain ⟨after, hafter, -⟩ := hadvance i mine hmine
    exact ⟨after, hafter⟩
  live := h.live
  finished := h.finished
  flushing := by
    intro flush hphase
    obtain ⟨i, name, mine, call, answer, hcommand, hmine, hcall, hmem, hlate⟩ :=
      h.flushing flush hphase
    obtain ⟨after, hafter, hlater⟩ := hadvance i mine hmine
    obtain ⟨call', hcall', hupTo, hlate'⟩ := hlater.flushes flush call hcall
    refine ⟨i, name, after, call', answer, hcommand, hafter, hcall', ?_,
      fun hl => hlater.closed (hlate (hlate' ▸ hl))⟩
    rw [hupTo]
    exact (List.IsPrefix.take hlater.accepted call.upTo).subset hmem
  ended := by
    intro hphase i name hcommand
    rcases h.ended hphase i name hcommand with hoverflow | ⟨mine, hmine, hdone⟩
    · exact .inl hoverflow
    · obtain ⟨after, hafter, hlater⟩ := hadvance i mine hmine
      refine .inr ⟨after, hafter,
        hdone.imp hlater.closed fun ⟨answer, hmem⟩ => ⟨answer, hlater.delivered.subset hmem⟩⟩

/-- A step of the provider stream that sends nothing on the bus's account. -/
theorem Inv.advance {provider : Provider N Response} (hi : Inv c handlers s)
    (h : Advance c s.provider provider) :
    Inv c handlers { s with provider } where
  sound := h.sound
  counts := hi.counts
  running := hi.running
  limited := hi.limited
  works := by
    intro k work hwork
    refine (hi.works k work hwork).advance fun i mine hmine => ?_
    obtain ⟨later, hlater, hmoved, -⟩ := h.streams i mine hmine
    exact ⟨later, hlater, hmoved⟩
  once := by
    intro i later hlater
    cases hmine : s.provider.incarnations[i]? with
    | none =>
        rw [h.fresh i later hmine hlater]
        exact List.nodup_nil
    | some mine =>
        obtain ⟨later', hlater', -, hmessages⟩ := h.streams i mine hmine
        obtain rfl := Option.some.inj (hlater'.symm.trans hlater)
        rw [hmessages]
        exact hi.once i mine hmine
  own := by
    intro i later hlater response hresponse
    cases hmine : s.provider.incarnations[i]? with
    | none =>
        rw [h.fresh i later hmine hlater] at hresponse
        cases hresponse
    | some mine =>
        obtain ⟨later', hlater', -, hmessages⟩ := h.streams i mine hmine
        obtain rfl := Option.some.inj (hlater'.symm.trans hlater)
        rw [hmessages] at hresponse
        exact hi.own i mine hmine response hresponse

variable [DecidableEq N] [DecidableEq R]

/-- The activity of a command ends, if it has one. -/
theorem counts_finish {activity : Option ShutdownLatch.Handle} {latch : Latch} {live : ℕ}
    (h : latch.Counts (live + (activity.any ShutdownLatch.Handle.live).toNat))
    (hlive : ∀ handle ∈ activity, handle.ended = false) :
    (activity.elim latch fun handle => (latch.end handle).1).Counts live := by
  cases activity with
  | none => exact h
  | some handle =>
      obtain ⟨ended⟩ := handle
      obtain rfl : ended = false := hlive ⟨ended⟩ rfl
      exact Latch.Counts.end h

omit [DecidableEq N] in
theorem running_endAdmission {admission : Option (Messaging.Handle R)} (inbound : Admission R)
    (hlive : ∀ handle ∈ admission, handle.ended = false) :
    (Bus.endAdmission inbound admission).active =
      inbound.active - (admission.any Messaging.Handle.live).toNat ∧
      (Bus.endAdmission inbound admission).limit = inbound.limit := by
  cases admission with
  | none => exact ⟨(sub_zero _).symm, rfl⟩
  | some handle =>
      obtain ⟨identifier, ended⟩ := handle
      obtain rfl : ended = false := hlive ⟨identifier, ended⟩ rfl
      exact ⟨rfl, rfl⟩

omit [DecidableEq N] [DecidableEq R] in
theorem held_finish (work : Work N R) (overflow : Bool) : (work.finish overflow).held = false := by
  cases hactivity : work.activity <;>
    simp [Work.finish, Work.held, hactivity, ShutdownLatch.Handle.live]

omit [DecidableEq N] [DecidableEq R] in
theorem running_finish (work : Work N R) (overflow : Bool) :
    (work.finish overflow).running = false := by
  cases hadmission : work.admission <;>
    simp [Work.finish, Work.running, hadmission, Messaging.Handle.live]

omit [DecidableEq N] [DecidableEq R] in
/-- What the answers on the streams belong to, when the command `k` is rewritten. -/
theorem own_set {provider : Provider N Response} {works : List (Work N R)} (after : Work N R)
    (hown : ∀ (i : ℕ) (mine : Incarnation N Response), provider.incarnations[i]? = some mine →
      ∀ response ∈ messages mine.out.accepted, ∃ (work : Work N R) (name : N),
        works[response.work]? = some work ∧ work.command = some (i, name) ∧ work.phase ≠ .handling)
    (hwork : works[k]? = some work) (hcommand : after.command = work.command)
    (hphase : after.phase ≠ .handling) :
    ∀ (i : ℕ) (mine : Incarnation N Response), provider.incarnations[i]? = some mine →
      ∀ response ∈ messages mine.out.accepted, ∃ (work : Work N R) (name : N),
        (works.set k after)[response.work]? = some work ∧ work.command = some (i, name) ∧
          work.phase ≠ .handling := by
  intro i mine hmine response hresponse
  obtain ⟨other, name, hother, hname, hdone⟩ := hown i mine hmine response hresponse
  rcases eq_or_ne response.work k with heq | hne
  · rw [heq] at hother ⊢
    obtain rfl := Option.some.inj (hwork.symm.trans hother)
    exact ⟨after, name, getElem?_set_of_some hwork, hcommand.trans hname, hphase⟩
  · exact ⟨other, name, getElem?_set_of_ne hne hother, hname, hdone⟩

omit [DecidableEq N] in
/-- The command `k` is over. -/
theorem Inv.finish {overflow : Bool} (hi : Inv c handlers s) (hwork : s.works[k]? = some work)
    (hphase : work.phase ≠ .ended)
    (hended : ∀ (i : ℕ) (name : N), work.command = some (i, name) → overflow = true ∨
      ∃ mine : Incarnation N Response, s.provider.incarnations[i]? = some mine ∧
        (mine.out.closed = true ∨ ∃ answer : Answer, .message ⟨k, answer⟩ ∈ mine.out.delivered)) :
    Inv c handlers (s.finish k work overflow) := by
  have hgood := hi.works k work hwork
  obtain ⟨hactivity, hadmission⟩ := hgood.live hphase
  have hheld := countP_set_of_some hwork (work.finish overflow) Work.held
  have hrunning := countP_set_of_some hwork (work.finish overflow) Work.running
  rw [held_finish, Bool.toNat_false, Nat.add_zero] at hheld
  rw [running_finish, Bool.toNat_false, Nat.add_zero] at hrunning
  have hactive := hi.running
  have hlimited := hi.limited
  obtain ⟨hended', hlimit⟩ := running_endAdmission s.inboundAdmission hadmission
  refine ⟨hi.sound, ?_, ?_, ?_, ?_, hi.once, own_set _ hi.own hwork rfl nofun⟩
  · refine counts_finish ?_ hactivity
    show s.latch.Counts ((s.works.set k (work.finish overflow)).countP Work.held + work.held.toNat)
    rw [hheld]
    exact hi.counts
  · show (if work.command.isSome then Bus.endAdmission s.inboundAdmission work.admission
      else s.inboundAdmission).active =
      ((s.works.set k (work.finish overflow)).countP Work.running : ℤ)
    cases hcommand : work.command.isSome with
    | true =>
        have hthis : work.running = work.admission.any Messaging.Handle.live := by
          rw [Work.running, hcommand, Bool.true_and]
        rw [if_pos rfl, hended', ← hthis]
        omega
    | false =>
        have hthis : work.running = false := by rw [Work.running, hcommand, Bool.false_and]
        rw [hthis, Bool.toNat_false, Nat.add_zero] at hrunning
        rw [if_neg Bool.false_ne_true, hactive, hrunning]
  · show (if work.command.isSome then Bus.endAdmission s.inboundAdmission work.admission
        else s.inboundAdmission).active ≤ handlers ∧
          (if work.command.isSome then Bus.endAdmission s.inboundAdmission work.admission
          else s.inboundAdmission).limit = handlers
    split_ifs
    · rw [hended', hlimit]
      exact ⟨by omega, hlimited.2⟩
    · exact hlimited
  · intro j other hother
    rcases getElem?_set_cases hother with ⟨rfl, rfl⟩ | ⟨-, hold⟩
    · exact ⟨hgood.stream, fun h => absurd rfl h,
        fun _ => ⟨held_finish work overflow, running_finish work overflow⟩, nofun,
        fun _ => hended⟩
    · exact hi.works j other hold

omit [DecidableEq N] [DecidableEq R] in
/-- What the bus sends on the stream of the incarnation `i`, and what it leaves. -/
theorem sendOn_cases (c : Config) (provider : Provider N Response) (i : ℕ) (body : Response) :
    provider.sendOn c i (.message body) = (provider, false) ∨
      ∃ (mine : Incarnation N Response) (out : Stream (Frame N Response)),
        provider.incarnations[i]? = some mine ∧
        mine.out.send c.maxBuffered (.message body) = some out ∧
        provider.sendOn c i (.message body) = (provider.update i fun mine => { mine with out },
          true) := by
  unfold Provider.sendOn
  cases hsend : provider.incarnations[i]?.bind fun mine =>
    mine.out.send c.maxBuffered (.message body) with
  | none => exact .inl rfl
  | some out =>
      obtain ⟨mine, hmine, hout⟩ := Option.bind_eq_some_iff.mp hsend
      exact .inr ⟨mine, out, hmine, hout, rfl⟩

omit [DecidableEq N] [DecidableEq R] in
/-- The incarnations after an answer was sent on one of them and is flushed. -/
theorem answered_incarnations (provider : Provider N Response) (out : Stream (Frame N Response))
    {mine : Incarnation N Response} (hmine : provider.incarnations[i]? = some mine) :
    ((provider.update i fun mine => { mine with out }).stream i Stream.flush).incarnations =
        provider.incarnations.set i { mine with out := out.flush } ∧
      (provider.update i fun mine => { mine with out }).incarnations[i]? =
        some { mine with out } := by
  have hfirst : (provider.update i fun mine => { mine with out }).incarnations =
      provider.incarnations.set i { mine with out } := by
    rw [incarnations_update, modify_of_some hmine]
  have hget : (provider.update i fun mine => { mine with out }).incarnations[i]? =
      some { mine with out } := by
    rw [hfirst]
    exact getElem?_set_of_some hmine
  refine ⟨?_, hget⟩
  unfold Provider.stream
  rw [incarnations_update, modify_of_some hget, hfirst, List.set_set]

omit [DecidableEq N] [DecidableEq R] in
/-- An answer is sent on the stream of the incarnation `i` and waits for the flush. -/
theorem Inv.answered {name : N} {answer : Answer} {mine : Incarnation N Response}
    {out : Stream (Frame N Response)} {provider : Provider N Response} (hi : Inv c handlers s)
    (hwork : s.works[k]? = some work) (hphase : work.phase = .handling)
    (hcommand : work.command = some (i, name)) (hmine : s.provider.incarnations[i]? = some mine)
    (hout : mine.out.send c.maxBuffered (.message ⟨k, answer⟩) = some out)
    (hincarnations : provider.incarnations = s.provider.incarnations.set i { mine with
      out := out.flush }) :
    Inv c handlers { s with
      provider, works := s.works.set k { work with phase := .flushing out.flushes.length } } := by
  have hgood := hi.works k work hwork
  have hsound := hi.sound mine (List.mem_of_getElem? hmine)
  have haccepted := accepted_of_send hout
  have hlater : Later mine.out out.flush := (later_send hout).trans (later_flush out)
  have hafter : provider.incarnations[i]? = some { mine with out := out.flush } := by
    rw [hincarnations]
    exact getElem?_set_of_some hmine
  have hmessages : messages out.flush.accepted = messages mine.out.accepted ++ [⟨k, answer⟩] := by
    show messages out.accepted = _
    rw [haccepted, messages, List.filterMap_append]
    rfl
  have hadvance : ∀ (j : ℕ) (other : Incarnation N Response),
      s.provider.incarnations[j]? = some other →
      ∃ after : Incarnation N Response, provider.incarnations[j]? = some after ∧
        Later other.out after.out := by
    intro j other hother
    rcases eq_or_ne j i with rfl | hne
    · obtain rfl := Option.some.inj (hmine.symm.trans hother)
      exact ⟨_, hafter, hlater⟩
    · refine ⟨other, ?_, .refl _⟩
      rw [hincarnations]
      exact getElem?_set_of_ne hne hother
  have hold : ∀ {j : ℕ} {other : Incarnation N Response}, provider.incarnations[j]? = some other →
      (j = i ∧ other = { mine with out := out.flush }) ∨
        s.provider.incarnations[j]? = some other := by
    intro j other hother
    rw [hincarnations] at hother
    exact (getElem?_set_cases hother).imp id And.right
  have hheld :=
    countP_set_of_some hwork { work with phase := .flushing out.flushes.length } Work.held
  have hrunning :=
    countP_set_of_some hwork { work with phase := .flushing out.flushes.length } Work.running
  have hsame :
      (s.works.set k { work with phase := .flushing out.flushes.length }).countP Work.held =
      s.works.countP Work.held :=
    Nat.add_right_cancel hheld
  have hsame' :
      (s.works.set k { work with phase := .flushing out.flushes.length }).countP Work.running =
      s.works.countP Work.running :=
    Nat.add_right_cancel hrunning
  have hlive := hgood.live (by rw [hphase]; nofun)
  refine ⟨?_, ?_, ?_, hi.limited, ?_, ?_, ?_⟩
  · intro other hother
    obtain ⟨j, hj⟩ := List.mem_iff_getElem?.mp hother
    rcases hold hj with ⟨-, rfl⟩ | h
    · exact (hsound.send hout).flush
    · exact hi.sound other (List.mem_of_getElem? h)
  · rw [hsame]
    exact hi.counts
  · rw [hsame']
    exact hi.running
  · intro j other hother
    rcases getElem?_set_cases hother with ⟨rfl, rfl⟩ | ⟨-, h⟩
    · refine ⟨fun i' name' hcommand' => ?_, fun _ => hlive, nofun, fun flush hflush => ?_, nofun⟩
      · obtain ⟨earlier, hearlier⟩ := hgood.stream i' name' hcommand'
        obtain ⟨after, hthis, -⟩ := hadvance i' earlier hearlier
        exact ⟨after, hthis⟩
      · obtain rfl : out.flushes.length = flush := by simpa using hflush
        refine ⟨i, name, _, _, answer, hcommand, hafter, List.getElem?_concat_length, ?_,
          fun hlate => ?_⟩
        · show .message ⟨_, answer⟩ ∈ out.accepted.take out.accepted.length
          rw [List.take_length, haccepted]
          exact List.mem_append_right _ List.mem_cons_self
        · exact ((hsound.send hout).closing hlate).1
    · exact (hi.works j other h).advance hadvance
  · intro j other hother
    rcases hold hother with ⟨rfl, rfl⟩ | h
    · rw [hmessages, List.map_append]
      refine List.nodup_append.mpr ⟨hi.once _ mine hmine, List.nodup_singleton _, ?_⟩
      intro number hnumber number' hnumber' heq
      obtain ⟨response, hresponse, rfl⟩ := List.mem_map.mp hnumber
      obtain ⟨other', name', hother', -, hnot⟩ := hi.own _ mine hmine response hresponse
      have hthis : response.work = k := heq.trans (List.mem_singleton.mp hnumber')
      rw [hthis] at hother'
      obtain rfl := Option.some.inj (hwork.symm.trans hother')
      exact hnot hphase
    · exact hi.once j other h
  · have hset := own_set { work with phase := .flushing out.flushes.length } hi.own hwork rfl nofun
    intro j other hother response hresponse
    rcases hold hother with ⟨rfl, rfl⟩ | h
    · rw [hmessages] at hresponse
      rcases List.mem_append.mp hresponse with hearlier | hnow
      · exact hset _ mine hmine response hearlier
      · obtain rfl := List.mem_singleton.mp hnow
        exact ⟨_, name, getElem?_set_of_some hwork, hcommand, nofun⟩
    · exact hset j other h response hresponse

omit [DecidableEq N] in
/-- The command `k`, which is in no handler's hands any more, is answered on its stream. -/
theorem Inv.respond {name : N} {answer : Answer} (hi : Inv c handlers s)
    (hwork : s.works[k]? = some work) (hphase : work.phase = .handling)
    (hcommand : work.command = some (i, name)) : Inv c handlers (s.respond c k work i answer) := by
  have hgood := hi.works k work hwork
  unfold Bus.respond
  dsimp only
  rcases sendOn_cases c s.provider i ⟨k, answer⟩ with hthrown | ⟨mine, out, hmine, hout, hsent⟩
  · rw [hthrown, if_neg Bool.false_ne_true]
    refine hi.finish hwork (by rw [hphase]; nofun) fun i' name' hcommand' => ?_
    obtain ⟨rfl, rfl⟩ := Prod.mk.inj (Option.some.inj (hcommand.symm.trans hcommand'))
    obtain ⟨mine, hmine⟩ := hgood.stream i name hcommand
    rw [hmine]
    cases hclosed : mine.out.closed with
    | true => exact .inr ⟨mine, rfl, .inl hclosed⟩
    | false => exact .inl (by simp [hclosed])
  · obtain ⟨hincarnations, hget⟩ := answered_incarnations s.provider out hmine
    rw [hsent, if_pos rfl, hget]
    exact hi.answered hwork hphase hcommand hmine hout hincarnations

omit [DecidableEq N] [DecidableEq R] in
/-- A command comes, with the handles it was given. -/
theorem Inv.push (hi : Inv c handlers s) (latch : Latch) (inbound outbound : Admission R)
    (work : Work N R) (hphase : work.phase = .handling)
    (hstream : ∀ (i : ℕ) (name : N), work.command = some (i, name) →
      ∃ mine : Incarnation N Response, s.provider.incarnations[i]? = some mine)
    (hlive : (∀ handle ∈ work.activity, handle.ended = false) ∧ ∀ handle ∈ work.admission,
      handle.ended = false)
    (hcounts : latch.Counts (s.works.countP Work.held + work.held.toNat))
    (hrunning : inbound.active = s.inboundAdmission.active + work.running.toNat)
    (hlimited : inbound.active ≤ handlers ∧ inbound.limit = handlers) :
    Inv c handlers { s with
      latch, inboundAdmission := inbound, outboundAdmission := outbound,
      works := s.works ++ [work] } := by
  have hcount : ∀ p : Work N R → Bool,
      (s.works ++ [work]).countP p = s.works.countP p + (p work).toNat := by
    intro p
    rw [List.countP_append, List.countP_cons, List.countP_nil]
    cases p work <;> rfl
  have hactive := hi.running
  refine ⟨hi.sound, ?_, ?_, hlimited, ?_, hi.once, ?_⟩
  · rw [hcount]
    exact hcounts
  · rw [hrunning, hcount]
    push_cast
    omega
  · intro j other hother
    rcases getElem?_concat_cases hother with ⟨-, rfl⟩ | hold
    · refine ⟨hstream, fun _ => hlive, ?_, ?_, ?_⟩
      · intro h
        rw [hphase] at h
        cases h
      · intro flush h
        rw [hphase] at h
        cases h
      · intro h
        rw [hphase] at h
        cases h
    · exact hi.works j other hold
  · intro j mine hmine response hresponse
    obtain ⟨other, name, hother, hname, hdone⟩ := hi.own j mine hmine response hresponse
    exact ⟨other, name, getElem?_append_of_some hother, hname, hdone⟩

omit [DecidableEq N] in
theorem works_respond (s : Bus N R) (k : ℕ) (work : Work N R) (i : ℕ) (answer : Answer) :
    ∃ after : Work N R, (s.respond c k work i answer).works = s.works.set k after ∧
      after.phase ≠ .handling := by
  unfold Bus.respond
  dsimp only
  split_ifs
  · exact ⟨_, rfl, nofun⟩
  · exact ⟨_, rfl, nofun⟩

omit [DecidableEq N] [DecidableEq R] in
theorem Admitted.set {works : List (Work N R)} {after : Work N R} (h : Admitted works)
    (hphase : after.phase ≠ .handling) :
    Admitted (works.set k after) := by
  intro j other hother hhandling hcommand
  rcases getElem?_set_cases hother with ⟨-, rfl⟩ | ⟨-, hold⟩
  · exact absurd hhandling hphase
  · exact h j other hold hhandling hcommand

omit [DecidableEq N] [DecidableEq R] in
/-- The command that came last is in no handler's hands. -/
theorem Admitted.concat_set {works : List (Work N R)} {after : Work N R} (h : Admitted works)
    (hphase : after.phase ≠ .handling) :
    Admitted ((works ++ [work]).set works.length after) := by
  intro j other hother hhandling hcommand
  rcases getElem?_set_cases hother with ⟨-, rfl⟩ | ⟨hne, hold⟩
  · exact absurd hhandling hphase
  · rcases getElem?_concat_cases hold with ⟨heq, -⟩ | hold
    · exact absurd heq hne
    · exact h j other hold hhandling hcommand

omit [DecidableEq N] [DecidableEq R] in
theorem Admitted.concat {works : List (Work N R)} (h : Admitted works)
    (hwork : work.command.isSome = true → work.running = true) :
    Admitted (works ++ [work]) := by
  intro j other hother hhandling hcommand
  rcases getElem?_concat_cases hother with ⟨-, rfl⟩ | hold
  · exact hwork hcommand
  · exact h j other hold hhandling hcommand

omit [DecidableEq N] in
/-- A command that is over before its handler is called is answered at once. -/
theorem Inv.refuse {name : N} {answer : Answer}
    (hi : Inv c handlers { s with works := s.works ++ [work] }) (ha : Admitted s.works)
    (hphase : work.phase = .handling) (hcommand : work.command = some (i, name)) :
    Inv c handlers (s.refuse c work i answer) ∧ Admitted (s.refuse c work i answer).works := by
  refine ⟨hi.respond List.getElem?_concat_length hphase hcommand, ?_⟩
  obtain ⟨after, hworks, hdone⟩ :=
    works_respond (c := c) { s with works := s.works ++ [work] } s.works.length work i answer
  show Admitted
    (Bus.respond c { s with works := s.works ++ [work] } s.works.length work i answer).works
  rw [hworks]
  exact ha.concat_set hdone

/-- A command comes on a stream that is there. -/
theorem Inv.handleInboundCommand (hi : Inv c handlers s) (ha : Admitted s.works) (i : ℕ) (name : N)
    (decodes : Bool)
    (hstream : ∃ mine : Incarnation N Response, s.provider.incarnations[i]? = some mine) :
    Inv c handlers (s.handleInboundCommand c i name decodes) ∧
      Admitted (s.handleInboundCommand c i name decodes).works := by
  have hthis : ∀ {activity : Option ShutdownLatch.Handle} {admission : Option (Messaging.Handle R)}
      (j : ℕ) (other : N),
      (⟨some (i, name), activity, admission, .handling, false⟩ : Work N R).command =
        some (j, other) →
        ∃ mine : Incarnation N Response, s.provider.incarnations[j]? = some mine := by
    intro _ _ j other hcommand
    obtain ⟨rfl, rfl⟩ := Prod.mk.inj (Option.some.inj hcommand)
    exact hstream
  unfold Bus.handleInboundCommand
  split
  · next hrefused =>
      have hpushed := hi.push s.latch s.inboundAdmission s.outboundAdmission
        ⟨some (i, name), none, none, .handling, false⟩ rfl hthis ⟨nofun, nofun⟩ hi.counts
          (Int.add_zero _).symm hi.limited
      exact hpushed.refuse ha rfl rfl
  · next latch activity hregister =>
      obtain ⟨hcounts, -, rfl⟩ := hi.counts.register hregister
      have hactivity : ∀ handle ∈ some (⟨false⟩ : ShutdownLatch.Handle), handle.ended = false := by
        intro handle hhandle
        exact Option.some.inj hhandle ▸ rfl
      rcases Admission.enter_cases s.inboundAdmission none with
        ⟨refusal, hrefused⟩ | ⟨-, hfree, hadmitted⟩
      · rw [hrefused]
        have hpushed := hi.push latch s.inboundAdmission.refuse s.outboundAdmission
          ⟨some (i, name), some ⟨false⟩, none, .handling, false⟩ rfl hthis ⟨hactivity,
            nofun⟩ hcounts
          (Int.add_zero _).symm hi.limited
        exact Inv.refuse (s := { s with latch, inboundAdmission := s.inboundAdmission.refuse })
          hpushed ha rfl rfl
      · rw [hadmitted]
        have hpushed := hi.push latch
          { s.inboundAdmission with
            identifiers := s.inboundAdmission.identifiers ++ Option.toList none
            active := s.inboundAdmission.active + 1
            accepted := s.inboundAdmission.accepted + 1
            peak := max s.inboundAdmission.peak (s.inboundAdmission.active + 1) }
          s.outboundAdmission ⟨some (i, name), some ⟨false⟩, some ⟨none, false⟩, .handling,
            false⟩ rfl hthis
          ⟨hactivity, fun handle hhandle => Option.some.inj hhandle ▸ rfl⟩ hcounts rfl
            ⟨hi.limited.2 ▸ hfree, hi.limited.2⟩
        dsimp only
        split_ifs
        · exact ⟨hpushed, ha.concat fun _ => rfl⟩
        · exact Inv.refuse (s := { s with latch, inboundAdmission := _ }) hpushed ha rfl rfl
        · exact Inv.refuse (s := { s with latch, inboundAdmission := _ }) hpushed ha rfl rfl

theorem Inv.receive (hi : Inv c handlers s) (ha : Admitted s.works) (i : ℕ) (name : N)
    (decodes instruction stable retryable : Bool) (hreads : s.provider.reads i = true) :
    Inv c handlers (s.receive c i name decodes instruction stable retryable) ∧
      Admitted (s.receive c i name decodes instruction stable retryable).works := by
  have hadvance := Advance.receive hi.sound i instruction stable retryable
  have hreceived := hi.advance hadvance
  unfold Bus.receive
  dsimp only
  split_ifs
  · refine hreceived.handleInboundCommand ha i name decodes ?_
    cases hmine : s.provider.incarnations[i]? with
    | none =>
        rw [Provider.reads, hmine] at hreads
        cases hreads
    | some mine =>
        obtain ⟨later, hlater, -⟩ := hadvance.streams i mine hmine
        exact ⟨later, hlater⟩
  · exact ⟨hreceived, ha⟩

omit [DecidableEq N] in
theorem Inv.dispatch (hi : Inv c handlers s) (ha : Admitted s.works) (identifier : R) :
    Inv c handlers (s.dispatch identifier) ∧ Admitted (s.dispatch identifier).works := by
  have hnone : ∀ {activity : Option ShutdownLatch.Handle} {admission : Option (Messaging.Handle R)}
      (i : ℕ) (name : N),
      (⟨none, activity, admission, .handling, false⟩ : Work N R).command = some (i, name) →
        ∃ mine : Incarnation N Response, s.provider.incarnations[i]? = some mine := by
    intro _ _ i name hcommand
    cases hcommand
  unfold Bus.dispatch
  split
  · exact ⟨hi, ha⟩
  · next latch activity hregister =>
      obtain ⟨hcounts, -, rfl⟩ := hi.counts.register hregister
      have hactivity : ∀ handle ∈ some (⟨false⟩ : ShutdownLatch.Handle), handle.ended = false := by
        intro handle hhandle
        exact Option.some.inj hhandle ▸ rfl
      rcases Admission.enter_cases s.outboundAdmission (some identifier) with
        ⟨refusal, hrefused⟩ | ⟨-, -, hadmitted⟩
      · rw [hrefused]
        have hpushed := hi.push latch s.inboundAdmission s.outboundAdmission.refuse
          ⟨none, some ⟨false⟩, none, .handling, false⟩ rfl hnone ⟨hactivity, nofun⟩ hcounts
          (Int.add_zero _).symm hi.limited
        exact ⟨hpushed.finish List.getElem?_concat_length nofun nofun, ha.concat_set nofun⟩
      · rw [hadmitted]
        have hpushed := hi.push latch s.inboundAdmission
          { s.outboundAdmission with
            identifiers := s.outboundAdmission.identifiers ++ Option.toList (some identifier)
            active := s.outboundAdmission.active + 1
            accepted := s.outboundAdmission.accepted + 1
            peak := max s.outboundAdmission.peak (s.outboundAdmission.active + 1) }
          ⟨none, some ⟨false⟩, some ⟨some identifier, false⟩, .handling, false⟩ rfl hnone
          ⟨hactivity, fun handle hhandle => Option.some.inj hhandle ▸ rfl⟩ hcounts
            (Int.add_zero _).symm hi.limited
        exact ⟨hpushed, ha.concat nofun⟩

omit [DecidableEq N] [DecidableEq R] in
/-- A flush that is settled tells that the answer was read, or that its stream is closed. -/
theorem read_of_flushed (hi : Inv c handlers s) {flush : ℕ} (hwork : s.works[k]? = some work)
    (hphase : work.phase = .flushing flush) {name : N} (hcommand : work.command = some (i, name))
    (hflushed : s.flushed i flush = true) :
    ∃ mine : Incarnation N Response, s.provider.incarnations[i]? = some mine ∧
      (mine.out.closed = true ∨ ∃ answer : Answer, .message ⟨k, answer⟩ ∈ mine.out.delivered) := by
  obtain ⟨i', name', mine, call, answer, hcommand', hmine, hcall, hmem, hlate⟩ :=
    (hi.works k work hwork).flushing flush hphase
  obtain ⟨rfl, rfl⟩ := Prod.mk.inj (Option.some.inj (hcommand.symm.trans hcommand'))
  refine ⟨mine, hmine, ?_⟩
  have hsound := hi.sound mine (List.mem_of_getElem? hmine)
  have htold := hsound.told call (List.mem_of_getElem? hcall)
  rw [Bus.flushed, hmine, Option.any_some, hcall, Option.any_some] at hflushed
  cases hsettled : call.settled with
  | none =>
      rw [hsettled] at hflushed
      cases hflushed
  | some outcome =>
      cases outcome with
      | false => exact .inl (htold.refused hsettled)
      | true =>
          rcases htold.done hsettled with hasked | hcancelled
          · have hread : mine.out.accepted.take call.upTo <+: mine.out.delivered := by
              obtain ⟨rest, hrest⟩ := hsound.order
              rw [← hrest, List.take_append_of_le_length (hasked.trans hsound.requested)]
              exact List.take_prefix _ _
            exact .inr ⟨answer, hread.subset hmem⟩
          · exact .inl (hlate hcancelled)

theorem inv_step {action : Action N R} (hi : Inv c handlers s) (ha : Admitted s.works)
    (h : step c s action = some t) :
    Inv c handlers t ∧ Admitted t.works := by
  cases action with
  | provider action =>
      simp only [step, Option.ite_none_right_eq_some, Option.map_eq_some_iff] at h
      obtain ⟨hexternal, provider, hstep, rfl⟩ := h
      refine ⟨hi.advance (advance_step hi.sound (fun i body heq => ?_) hstep), ha⟩
      rw [heq] at hexternal
      cases hexternal
  | command i name decodes instruction stable retryable =>
      simp only [step, Option.ite_none_right_eq_some, Option.some.injEq] at h
      exact h.2 ▸ hi.receive ha i name decodes instruction stable retryable h.1
  | settled k result =>
      simp only [step] at h
      split at h
      · next i name activity admission overflow hwork =>
          obtain rfl := Option.some.inj h
          refine ⟨hi.respond hwork rfl rfl, ?_⟩
          obtain ⟨after, hworks, hdone⟩ := works_respond (c := c) s k
            ⟨some (i, name), activity, admission, .handling, overflow⟩ i (if result then .result
              else .failed)
          rw [hworks]
          exact ha.set hdone
      · cases h
  | flushed k =>
      simp only [step] at h
      split at h
      · next i name activity admission flush overflow hwork =>
          split_ifs at h with hflushed
          obtain rfl := Option.some.inj h
          refine ⟨hi.finish hwork nofun fun i' name' hcommand => ?_, ha.set nofun⟩
          obtain ⟨rfl, rfl⟩ := Prod.mk.inj (Option.some.inj hcommand)
          exact .inr (read_of_flushed hi hwork rfl rfl hflushed)
      · cases h
  | dispatch identifier => exact Option.some.inj h ▸ hi.dispatch ha identifier
  | dispatched k =>
      simp only [step] at h
      split at h
      · next activity admission overflow hwork =>
          obtain rfl := Option.some.inj h
          exact ⟨hi.finish hwork nofun nofun, ha.set nofun⟩
      · cases h
  | shutdown =>
      obtain rfl := Option.some.inj h
      have hdown : Inv c handlers { s with provider := s.provider.shutdown } :=
        hi.advance (.same hi.sound rfl)
      exact ⟨{ hdown with counts := hi.counts.initiateShutdown }, ha⟩

end Steps

/-- A command bus at the start, with the limits it was given. -/
theorem inv_start [DecidableEq N] [DecidableEq R] (c : Config) {handlers : ℕ}
    {inbound outbound : Admission R} (h : messagingAdmission R handlers = some inbound) :
    Inv c handlers (axonServerCommandBus N inbound outbound) := by
  have hadmission := Admission.inv_start h
  have hfresh : ∀ (i : ℕ) (mine : Incarnation N Response),
      (initial N Response).incarnations[i]? = some mine →
      messages mine.out.accepted = [] := by
    intro i mine hmine
    rw [List.mem_singleton.mp (List.mem_of_getElem? hmine)]
    rfl
  refine ⟨?_, ⟨rfl, nofun⟩, hadmission.active,
    ⟨hadmission.limit ▸ hadmission.bounded, hadmission.limit⟩, nofun, ?_, ?_⟩
  · intro mine hmine
    rw [List.mem_singleton.mp hmine]
    exact OutboundStream.inv_initial c.maxBuffered
  · intro i mine hmine
    rw [hfresh i mine hmine]
    exact List.nodup_nil
  · intro i mine hmine response hresponse
    rw [hfresh i mine hmine] at hresponse
    cases hresponse

theorem inv_of_reach [DecidableEq N] [DecidableEq R] {c : Config} {handlers : ℕ}
    {inbound outbound : Admission R} {s : Bus N R}
    (h : messagingAdmission R handlers = some inbound)
    (hreach : Reach (step c) always (axonServerCommandBus N inbound outbound) s) :
    Inv c handlers s ∧ Admitted s.works :=
  hreach.invariant (I := fun s => Inv c handlers s ∧ Admitted s.works) ⟨inv_start c h, nofun⟩
    fun _ _ _ _ hi _ hs => inv_step hi.1 hi.2 hs

/-- No more commands are in the hands of handlers than the limit allows. An answer is sent for a
command that was taken and is in no handler's hands any more, at most once, and only on the stream
the command came on. -/
theorem commands_are_answered_once_where_they_came [DecidableEq N] [DecidableEq R] (c : Config)
    (handlers : ℕ) (inbound outbound : Admission R)
    (h : messagingAdmission R handlers = some inbound) (s : Bus N R)
    (hreach : Reach (step c) always (axonServerCommandBus N inbound outbound) s) :
    s.works.countP (fun work => work.command.isSome && work.phase == .handling) ≤ handlers ∧
      ∀ (i : ℕ) (mine : Incarnation N Response), s.provider.incarnations[i]? = some mine →
        ((messages mine.out.accepted).map Response.work).Nodup ∧
          ∀ response ∈ messages mine.out.accepted, ∃ (work : Work N R) (name : N),
            s.works[response.work]? = some work ∧ work.command = some (i, name) ∧
              work.phase ≠ .handling := by
  obtain ⟨hi, ha⟩ := inv_of_reach h hreach
  refine ⟨?_, fun i mine hmine => ⟨hi.once i mine hmine, hi.own i mine hmine⟩⟩
  have hle : s.works.countP (fun work => work.command.isSome && work.phase == .handling) ≤
      s.works.countP Work.running := by
    refine List.countP_mono_left fun work hwork hboth => ?_
    obtain ⟨k, hk⟩ := List.mem_iff_getElem?.mp hwork
    obtain ⟨hcommand, hphase⟩ := Bool.and_eq_true_iff.mp hboth
    exact ha k work hk (eq_of_beq hphase) hcommand
  have hrunning := hi.running
  have hlimited := hi.limited.1
  omega

/-- A bus with the limits and the window it has by default. -/
def plainConfig : Config := ⟨5000, 2500, by decide, 4096, 30, true⟩

def plainBus : Bus Char Char :=
  axonServerCommandBus Char ⟨128, [], 0, 0, 0, 0, 0⟩ ⟨1024, [], 0, 0, 0, 0, 0⟩

/-- A command comes, and the shutdown is initiated while its handler runs. -/
def shutdownWhileHandling : List (Action Char Char) :=
  [.provider (.subscribe 'a' true), .provider (.next 0), .provider (.next 0), .provider (.next 0),
    .command 0 'a' true false false true, .shutdown, .settled 0 true]

theorem command_is_answered_after_shutdown :
    ∃ s : Bus Char Char, ∃ mine : Incarnation Char Response,
    s.provider.incarnations[0]? = some mine ∧ messages mine.out.accepted = [⟨0, .result⟩] ∧
      ((messages mine.out.accepted).map Response.work).Nodup := by
  obtain ⟨s, hs, hanswered⟩ := reach_exec_any (s := plainBus)
    (P := fun s =>
      s.provider.incarnations.map (fun mine => messages mine.out.accepted) = [[⟨0, .result⟩]])
    (show ((exec (step plainConfig) plainBus shutdownWhileHandling).any fun s => decide _) = true by
      decide)
  obtain ⟨mine, hmine, hmessages⟩ := List.map_eq_singleton_iff.mp hanswered
  have hfirst : s.provider.incarnations[0]? = some mine := by rw [hmine]; rfl
  exact ⟨s, mine, hfirst, hmessages,
    ((commands_are_answered_once_where_they_came plainConfig 128 _ _ (by decide) s hs).2 0
      mine hfirst).1⟩

/-- Once a promise of the shutdown is resolved, every command and every dispatch that had registered
is over; and of each such command the transport has read the answer, unless its stream was closed or
had no room for it. -/
theorem shutdown_waits_for_answers_to_be_read [DecidableEq N] [DecidableEq R] (c : Config)
    (handlers : ℕ) (inbound outbound : Admission R)
    (h : messagingAdmission R handlers = some inbound) (s : Bus N R)
    (hreach : Reach (step c) always (axonServerCommandBus N inbound outbound) s)
    (hdrained : true ∈ s.latch.drains) (k : ℕ) (work : Work N R) (hwork : s.works[k]? = some work)
    (hregistered : work.activity.isSome = true) :
    work.phase = .ended ∧ ∀ (i : ℕ) (name : N), work.command = some (i, name) →
      work.overflow = true ∨
      ∃ mine : Incarnation N Response, s.provider.incarnations[i]? = some mine ∧
        (mine.out.closed = true ∨ ∃ answer : Answer,
          .message ⟨k, answer⟩ ∈ mine.out.delivered) := by
  obtain ⟨hi, -⟩ := inv_of_reach h hreach
  have hgood := hi.works k work hwork
  have hidle : work.held = false := by
    have hnone := (hi.counts.drained true hdrained).2.mp rfl
    exact Bool.eq_false_iff.mpr (List.countP_eq_zero.mp hnone work (List.mem_of_getElem? hwork))
  have hended : work.phase = .ended := by
    by_contra hphase
    obtain ⟨handle, hhandle⟩ := Option.isSome_iff_exists.mp hregistered
    have hlive := (hgood.live hphase).1 handle hhandle
    rw [Work.held, hhandle, Option.any_some, ShutdownLatch.Handle.live, hlive] at hidle
    cases hidle
  exact ⟨hended, hgood.ended hended⟩

theorem shutdown_waits_for_the_answer_to_be_read : ∃ (s : Bus Char Char) (work : Work Char Char),
    s.latch.drains = [true] ∧ s.works = [work] ∧ work.command = some (0, 'a') ∧
      work.phase = .ended := by
  obtain ⟨s, hs, hdrains, hworks⟩ := reach_exec_any (s := plainBus)
    (P := fun s =>
      s.latch.drains = [true] ∧ s.works.map (fun work => (work.command, work.activity.isSome)) =
      [(some (0, 'a'), true)])
    (show ((exec (step plainConfig) plainBus
      (shutdownWhileHandling ++ [.provider (.next 0), .flushed 0])).any
      fun s => decide _) = true by decide)
  obtain ⟨work, hwork, hboth⟩ := List.map_eq_singleton_iff.mp hworks
  obtain ⟨hcommand, hregistered⟩ := Prod.mk.inj hboth
  have hfirst : s.works[0]? = some work := by rw [hwork]; rfl
  have hover := shutdown_waits_for_answers_to_be_read plainConfig 128 _ _ (by decide) s hs
    (by rw [hdrains]; exact List.mem_cons_self) 0 work hfirst hregistered
  exact ⟨s, work, hdrains, hwork, hcommand, hover.1⟩

end Kronos.AxonServer.CommandBus
