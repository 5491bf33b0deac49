import Mathlib.Data.List.Infix
import Kronos.Lib.Trace
import Kronos.Lib.Transition

/-!
# A subscription the query bus provides

What `drain`, `offer` and `finish` make of one entry of `provided`: the updates
the handlers emit, the permits the subscriber grants, a completion, a
cancellation, and the initial result that comes back some time after. An update
without a permit is held; a terminal event waits behind the held updates.

`fits` says which events a frame can hold: `sendEvent` throws on the others.
When it throws while permits are granted, the handler stream is over and all its
subscriptions with it. Otherwise the caller sees the error. Permits are natural
numbers; those beyond 2^53 are never used up.
-/
namespace Kronos.KronosDb.ProvidedSubscription
open Kronos.Lib.Transition Kronos.Lib.Trace

variable {α : Type}

inductive SubscriptionEvent (α : Type) where
  | initialResult (failed : Bool)
  | update (payload : α)
  | complete
  | completeExceptionally (message : String)
  deriving DecidableEq, Repr

def SubscriptionEvent.terminal : SubscriptionEvent α → Bool
  | .complete => true
  | .completeExceptionally _ => true
  | _ => false

/-- How a subscription is completed. -/
inductive Ending where
  | complete
  | completeExceptionally (message : String)
  deriving DecidableEq, Repr

def Ending.event : Ending → SubscriptionEvent α
  | .complete => .complete
  | .completeExceptionally message => .completeExceptionally message

def maxHeldUpdates : ℕ := 1024

def overflow : SubscriptionEvent α :=
  .completeExceptionally
    "Subscription update buffer overflow: the subscriber is not granting credit"

/-- What leaves and what comes in, in order. -/
inductive Entry (α : Type) where
  | sent (event : SubscriptionEvent α)
  | cancelled
  deriving DecidableEq, Repr

structure Subscription (α : Type) where
  permits : ℕ
  held : List α
  ending : Option Ending
  /-- Whether `provided` has it. -/
  provided : Bool
  /-- The initial result has come back. -/
  answered : Bool
  log : List (Entry α)
  /-- The updates that were sent or held when they were offered. -/
  accepted : List α
  granted : ℕ
  overflowed : Bool
  deriving DecidableEq, Repr

def initial (permits : ℕ) : Subscription α :=
  ⟨permits, [], none, true, false, [], [], permits, false⟩

namespace Subscription
variable (s : Subscription α)

def sendEvent (event : SubscriptionEvent α) : Subscription α :=
  { s with log := s.log ++ [.sent event] }

/-- `drain` after its loop; `true` where it throws. -/
def sendEnding (fits : SubscriptionEvent α → Bool) : Subscription α × Bool :=
  match s.held, s.ending with
  | [], some ending =>
      if fits ending.event then ({ s.sendEvent ending.event with provided := false }, false)
      else (s, true)
  | _, _ => (s, false)

def drainLoop (fits : SubscriptionEvent α → Bool) : List α → Subscription α → Subscription α × Bool
  | [], s => s.sendEnding fits
  | update :: rest, s =>
      if 0 < s.permits then
        let s := { s with permits := s.permits - 1, held := rest }
        if fits (.update update) then drainLoop fits rest (s.sendEvent (.update update))
        else (s, true)
      else s.sendEnding fits

def drain (fits : SubscriptionEvent α → Bool) : Subscription α × Bool := drainLoop fits s.held s

def offer (fits : SubscriptionEvent α → Bool) (update : α) : Subscription α :=
  if s.ending.isSome then s
  else if 0 < s.permits ∧ s.held = [] then
    let s := { s with permits := s.permits - 1 }
    if fits (.update update) then
      { s.sendEvent (.update update) with accepted := s.accepted ++ [update] }
    else s
  else if maxHeldUpdates ≤ s.held.length then
    if fits overflow then { s.sendEvent overflow with provided := false, overflowed := true } else s
  else { s with held := s.held ++ [update], accepted := s.accepted ++ [update] }

def grant (fits : SubscriptionEvent α → Bool) (permits : ℕ) : Subscription α :=
  let result := { s with permits := s.permits + permits, granted := s.granted + permits }.drain fits
  if result.2 then { result.1 with provided := false } else result.1

def finish (fits : SubscriptionEvent α → Bool) (ending : Ending) : Subscription α :=
  ({ s with ending := some ending }.drain fits).1

/-- `handleSubscription` after the initial result came back. -/
def answer (fits : SubscriptionEvent α → Bool) (failed : Bool) : Subscription α :=
  let s := { s with answered := true }
  if s.provided then
    let s := { s with provided := !failed }
    if fits (.initialResult failed) then s.sendEvent (.initialResult failed) else s
  else s

end Subscription

inductive Action (α : Type) where
  | offer (update : α)
  | grant (permits : ℕ)
  | finish (ending : Ending)
  | cancel
  | answer (failed : Bool)
  /-- The handler stream or the bus ends. -/
  | ended
  deriving DecidableEq, Repr

def step (fits : SubscriptionEvent α → Bool) (s : Subscription α) : Action α →
    Option (Subscription α)
  | .offer update => some (if s.provided then s.offer fits update else s)
  | .grant permits => some (if s.provided then s.grant fits permits else s)
  | .finish ending => some (if s.provided then s.finish fits ending else s)
  | .cancel => some { s with provided := false, log := s.log ++ [.cancelled] }
  | .answer failed => if s.answered then none else some (s.answer fits failed)
  | .ended => some { s with provided := false }

/-! ## What holds in every run -/

def updatesIn (log : List (Entry α)) : List α :=
  log.filterMap fun entry =>
    match entry with
    | .sent (.update update) => some update
    | _ => none

def Entry.terminal : Entry α → Bool
  | .sent event => event.terminal
  | .cancelled => false

/-- After a terminal event or a cancellation nothing is sent. -/
def Allowed (before : List (Entry α)) : Entry α → Prop
  | .sent _ => ∀ entry ∈ before, entry.terminal = false ∧ entry ≠ .cancelled
  | .cancelled => True

structure Respects (s : Subscription α) : Prop where
  /-- Updates are sent in the order they were accepted, without gaps. -/
  order : updatesIn s.log <+: s.accepted
  permitted : (updatesIn s.log).length ≤ s.granted
  bounded : s.held.length ≤ maxHeldUpdates
  once : s.log.countP Entry.terminal ≤ 1
  /-- A terminal event comes after every accepted update, unless the buffer overflowed. -/
  ending : ∀ entry ∈ s.log, entry.terminal = true → s.overflowed = false →
    updatesIn s.log = s.accepted
  allowed : Each Allowed s.log

/-- A subscription that is still provided, in the middle of `drain` too. -/
structure Live (s : Subscription α) : Prop where
  provided : s.provided = true
  order : s.accepted = updatesIn s.log ++ s.held
  permitted : (updatesIn s.log).length + s.permits ≤ s.granted
  bounded : s.held.length ≤ maxHeldUpdates
  quiet : ∀ entry ∈ s.log, entry.terminal = false ∧ entry ≠ .cancelled
  allowed : Each Allowed s.log

/-- Between two calls nothing is held that there is a permit for. -/
def Inv (s : Subscription α) : Prop :=
  Live s ∧ (0 < s.permits → s.held = []) ∨ s.provided = false ∧ Respects s

section Steps
variable {fits : SubscriptionEvent α → Bool} {s t : Subscription α}

theorem updatesIn_concat (log : List (Entry α)) (entry : Entry α) :
    updatesIn (log ++ [entry]) = updatesIn log ++ updatesIn [entry] :=
  List.filterMap_append

theorem updatesIn_terminal {event : SubscriptionEvent α} (h : event.terminal = true) :
    updatesIn [Entry.sent event] = [] := by
  cases event with
  | initialResult failed => cases h
  | update update => cases h
  | complete => rfl
  | completeExceptionally message => rfl

theorem Live.respects (h : Live s) : Respects s := by
  refine ⟨?_, ?_, h.bounded, ?_, ?_, h.allowed⟩
  · rw [h.order]
    exact List.prefix_append _ _
  · have hpermitted := h.permitted
    omega
  · rw [List.countP_eq_zero.mpr fun entry hentry => by simp [(h.quiet entry hentry).1]]
    exact Nat.zero_le 1
  · intro entry hentry hterminal
    rw [(h.quiet entry hentry).1] at hterminal
    cases hterminal

theorem Inv.respects (h : Inv s) : Respects s := by
  rcases h with ⟨hlive, -⟩ | ⟨-, hover⟩
  · exact hlive.respects
  · exact hover

/-- The subscription is dropped from `provided`. -/
theorem Respects.drop (h : Respects s) : Inv { s with provided := false } :=
  .inr ⟨rfl, h.order, h.permitted, h.bounded, h.once, h.ending, h.allowed⟩

/-- The next of the accepted updates is sent, one that was held or one that has just been
offered. -/
theorem Live.sendUpdate (h : Live s) {update : α} {accepted rest : List α}
    (hpermits : 0 < s.permits) (horder : accepted = updatesIn s.log ++ update :: rest)
    (hbounded : rest.length ≤ maxHeldUpdates) :
    Live ({ s with permits := s.permits - 1, held := rest, accepted := accepted }.sendEvent
      (.update update)) := by
  have hpermitted := h.permitted
  refine ⟨h.provided, ?_, ?_, hbounded, ?_, each_concat h.allowed h.quiet⟩
  · simp only [Subscription.sendEvent, updatesIn_concat, horder, List.append_assoc]
    rfl
  · simp only [Subscription.sendEvent, updatesIn_concat, List.length_append]
    change _ + 1 + (s.permits - 1) ≤ s.granted
    omega
  · intro entry hentry
    rcases List.mem_append.mp hentry with hold | hnew
    · exact h.quiet entry hold
    · rw [List.mem_singleton.mp hnew]
      exact ⟨rfl, nofun⟩

/-- A terminal event is sent when nothing is held, or the buffer overflowed. -/
theorem Live.terminate (h : Live s) {event : SubscriptionEvent α} (hevent : event.terminal = true)
    (overflowed : Bool) (hheld : overflowed = false → s.held = []) :
    Inv { s.sendEvent event with provided := false, overflowed := overflowed } := by
  have hsame : updatesIn (s.log ++ [Entry.sent event]) = updatesIn s.log := by
    rw [updatesIn_concat, updatesIn_terminal hevent, List.append_nil]
  refine .inr ⟨rfl, ?_, ?_, h.bounded, ?_, ?_, each_concat h.allowed h.quiet⟩
  · simp only [Subscription.sendEvent, hsame, h.order]
    exact List.prefix_append _ _
  · have hpermitted := h.permitted
    simp only [Subscription.sendEvent, hsame]
    omega
  · simp only [Subscription.sendEvent, List.countP_append]
    rw [List.countP_eq_zero.mpr fun entry hentry => by
      simp [(h.quiet entry hentry).1], Nat.zero_add]
    exact List.countP_le_length
  · intro entry hentry hterminal hno
    simp only [Subscription.sendEvent, hsame, h.order, hheld hno, List.append_nil]

theorem Ending.event_terminal (ending : Ending) :
    (ending.event : SubscriptionEvent α).terminal = true := by
  cases ending <;> rfl

/-- After the loop, the terminal event that was waiting. -/
theorem Live.sendEnding (fits : SubscriptionEvent α → Bool) (h : Live s)
    (hdrained : 0 < s.permits → s.held = []) : Inv (s.sendEnding fits).1 := by
  unfold Subscription.sendEnding
  split
  · rename_i ending hheld hending
    split_ifs
    · exact h.terminate ending.event_terminal s.overflowed fun _ => hheld
    · exact .inl ⟨h, hdrained⟩
  · exact .inl ⟨h, hdrained⟩

/-- The loop stops when the permits or the held updates are used up, or throws. -/
theorem Live.drainLoop (fits : SubscriptionEvent α → Bool) {rest : List α} (h : Live s)
    (hheld : s.held = rest) :
    ((Subscription.drainLoop fits rest s).2 = false → Inv (Subscription.drainLoop fits rest s).1) ∧
      Respects (Subscription.drainLoop fits rest s).1 := by
  induction rest generalizing s with
  | nil =>
      rw [Subscription.drainLoop]
      have hend := h.sendEnding fits fun _ => hheld
      exact ⟨fun _ => hend, hend.respects⟩
  | cons update rest ih =>
      rw [Subscription.drainLoop]
      have hbounded : rest.length ≤ maxHeldUpdates := by
        have hall := h.bounded
        rw [hheld] at hall
        exact Nat.le_of_succ_le hall
      split_ifs with hpermits hfits
      · exact ih (h.sendUpdate hpermits (hheld ▸ h.order) hbounded) rfl
      · have hrespects := h.respects
        exact ⟨nofun, hrespects.order, hrespects.permitted, hbounded, hrespects.once,
          hrespects.ending,
          hrespects.allowed⟩
      · have hend := h.sendEnding fits fun hsome => absurd hsome hpermits
        exact ⟨fun _ => hend, hend.respects⟩

theorem Live.drain (fits : SubscriptionEvent α → Bool) (h : Live s) :
    ((s.drain fits).2 = false → Inv (s.drain fits).1) ∧ Respects (s.drain fits).1 :=
  h.drainLoop fits rfl

theorem Live.offer (h : Live s) (hdrained : 0 < s.permits → s.held = []) (update : α) :
    Inv (s.offer fits update) := by
  unfold Subscription.offer
  split_ifs with hending hdirect hfits hfull hfits
  · exact .inl ⟨h, hdrained⟩
  · have horder : s.accepted ++ [update] = updatesIn s.log ++ update :: s.held := by
      rw [h.order, hdirect.2, List.append_nil]
    exact .inl ⟨h.sendUpdate hdirect.1 horder h.bounded, fun _ => hdirect.2⟩
  · have hpermitted := h.permitted
    refine .inl ⟨⟨h.provided, h.order, ?_, h.bounded, h.quiet, h.allowed⟩, fun _ => hdirect.2⟩
    change (updatesIn s.log).length + (s.permits - 1) ≤ s.granted
    omega
  · have hterminal : (overflow : SubscriptionEvent α).terminal = true := rfl
    exact h.terminate hterminal true nofun
  · exact .inl ⟨h, hdrained⟩
  · have hnone : ¬ 0 < s.permits := fun hsome => hdirect ⟨hsome, hdrained hsome⟩
    refine .inl ⟨⟨h.provided, ?_, h.permitted, ?_, h.quiet, h.allowed⟩,
      fun hsome => absurd hsome hnone⟩
    · simp only [h.order, List.append_assoc]
    · simp only [List.length_append, List.length_singleton]
      omega

theorem Live.grant (h : Live s) (permits : ℕ) : Inv (s.grant fits permits) := by
  have hgranted :
      Live { s with permits := s.permits + permits, granted := s.granted + permits } := by
    refine ⟨h.provided, h.order, ?_, h.bounded, h.quiet, h.allowed⟩
    have hpermitted := h.permitted
    simp only
    omega
  obtain ⟨hdrained, hrespects⟩ := hgranted.drain fits
  unfold Subscription.grant
  generalize Subscription.drain { s with
    permits := s.permits + permits, granted := s.granted + permits } fits =
    result at hdrained hrespects
  simp only
  split_ifs with hthrew
  · exact hrespects.drop
  · exact hdrained (by simpa using hthrew)

theorem Live.finish (h : Live s) (hdrained : 0 < s.permits → s.held = []) (ending : Ending) :
    Inv (s.finish fits ending) := by
  have hending : Live { s with ending := some ending } :=
    ⟨h.provided, h.order, h.permitted, h.bounded, h.quiet, h.allowed⟩
  have hend := hending.sendEnding fits hdrained
  unfold Subscription.finish Subscription.drain
  -- with a permit nothing is held, so the loop does nothing
  cases hheld : s.held with
  | nil =>
      simp only [hheld] at hend
      exact hend
  | cons update rest =>
      have hnone : ¬ 0 < s.permits := by
        intro hsome
        rw [hdrained hsome] at hheld
        cases hheld
      rw [Subscription.drainLoop, if_neg hnone]
      simp only [hheld] at hend
      exact hend

theorem Live.answer (h : Live s) (hdrained : 0 < s.permits → s.held = []) (failed : Bool) :
    Inv (s.answer fits failed) := by
  have hinitial : updatesIn [Entry.sent (.initialResult failed : SubscriptionEvent α)] = [] := rfl
  have hsent : Live { s.sendEvent (.initialResult failed) with answered := true } := by
    refine ⟨h.provided, ?_, ?_, h.bounded, ?_, each_concat h.allowed h.quiet⟩
    · simp only [Subscription.sendEvent, updatesIn_concat, hinitial, List.append_nil]
      exact h.order
    · simp only [Subscription.sendEvent, updatesIn_concat, hinitial, List.append_nil]
      exact h.permitted
    · intro entry hentry
      rcases List.mem_append.mp hentry with hold | hnew
      · exact h.quiet entry hold
      · rw [List.mem_singleton.mp hnew]
        exact ⟨rfl, nofun⟩
  have hunsent : Live { s with answered := true } :=
    ⟨h.provided, h.order, h.permitted, h.bounded, h.quiet, h.allowed⟩
  unfold Subscription.answer
  simp only
  rw [if_pos h.provided]
  cases failed with
  | true =>
      split_ifs
      · exact hsent.respects.drop
      · exact hunsent.respects.drop
  | false =>
      have hkept : (!false) = s.provided := h.provided.symm
      split_ifs
      · rw [hkept]
        exact .inl ⟨hsent, hdrained⟩
      · rw [hkept]
        exact .inl ⟨hunsent, hdrained⟩

theorem Respects.cancel (h : Respects s) :
    Inv { s with provided := false, log := s.log ++ [.cancelled] } := by
  have hsame : updatesIn (s.log ++ [.cancelled]) = updatesIn s.log :=
    (updatesIn_concat _ _).trans (List.append_nil _)
  refine .inr ⟨rfl, ?_, ?_, h.bounded, ?_, ?_, each_concat h.allowed trivial⟩
  · simp only [hsame]
    exact h.order
  · simp only [hsame]
    exact h.permitted
  · rw [List.countP_append]
    exact h.once
  · intro entry hentry hterminal
    simp only [hsame]
    rcases List.mem_append.mp hentry with hold | hnew
    · exact h.ending entry hold hterminal
    · rw [List.mem_singleton.mp hnew] at hterminal
      cases hterminal

theorem Inv.step {a : Action α} (h : Inv s) (ht : step fits s a = some t) : Inv t := by
  have hdropped : s.provided = true → Live s ∧ (0 < s.permits → s.held = []) := by
    intro hprovided
    rcases h with hlive | ⟨hgone, -⟩
    · exact hlive
    · rw [hgone] at hprovided
      cases hprovided
  cases a with
  | offer update =>
      simp only [ProvidedSubscription.step, Option.some.injEq] at ht
      split_ifs at ht with hprovided <;> rw [← ht]
      · exact (hdropped hprovided).1.offer (hdropped hprovided).2 update
      · exact h
  | grant permits =>
      simp only [ProvidedSubscription.step, Option.some.injEq] at ht
      split_ifs at ht with hprovided <;> rw [← ht]
      · exact (hdropped hprovided).1.grant permits
      · exact h
  | finish ending =>
      simp only [ProvidedSubscription.step, Option.some.injEq] at ht
      split_ifs at ht with hprovided <;> rw [← ht]
      · exact (hdropped hprovided).1.finish (hdropped hprovided).2 ending
      · exact h
  | cancel =>
      cases ht
      exact h.respects.cancel
  | answer failed =>
      simp only [ProvidedSubscription.step] at ht
      split_ifs at ht
      cases ht
      cases hprovided : s.provided with
      | true => exact (hdropped hprovided).1.answer (hdropped hprovided).2 failed
      | false =>
          have hrespects := h.respects
          unfold Subscription.answer
          simp only [hprovided, Bool.false_eq_true, if_false]
          exact .inr ⟨rfl, hrespects.order, hrespects.permitted, hrespects.bounded, hrespects.once,
            hrespects.ending, hrespects.allowed⟩
  | ended =>
      cases ht
      exact h.respects.drop

theorem inv_initial (permits : ℕ) : Inv (initial permits : Subscription α) :=
  .inl ⟨⟨rfl, rfl, by simp [initial, updatesIn], Nat.zero_le _, nofun, each_nil⟩, fun _ => rfl⟩

end Steps

/-- In every run of a provided subscription its permits are respected. -/
theorem subscription_respects_permits (fits : SubscriptionEvent α → Bool) (permits : ℕ)
    {s : Subscription α} (h : Reach (step fits) always (initial permits) s) : Respects s :=
  (h.invariant (inv_initial permits) fun _ _ _ _ hs _ hst => hs.step hst).respects

/-- One update is sent, one waits for the next permit, and the completion behind both. -/
theorem subscription_respects_permits_completed :
    ∃ s : Subscription Unit,
      Reach (step fun _ => true) always (initial 1) s ∧
        s.log = [.sent (.update ()), .sent (.update ()), .sent .complete] ∧ Respects s := by
  obtain ⟨s, hs, hlog⟩ := reach_exec_any
    (show ((exec (step fun _ => true) (initial 1)
      [.offer (), .offer (), .finish .complete, .offer (), .grant 2]).any
        fun s : Subscription Unit => decide (s.log = [.sent (.update ()), .sent (.update ()),
          .sent .complete])) = true by decide)
  exact ⟨s, hs, hlog, subscription_respects_permits _ 1 hs⟩

end Kronos.KronosDb.ProvidedSubscription
