import Mathlib.Data.Int.Notation
import Mathlib.Data.List.Infix
import Mathlib.Order.Basic
import Kronos.Lib.Transition

/-!
# The flow-controlled sender

A sender of subscription query updates that sends only what it has permits for.
What it has no permits for waits in a buffer, and a completion waits behind the
buffer. The `send` it is made with may throw; `fails k` is what its `k`-th call
throws. Beside the sender the calls of `send`, `onComplete` and `onError` are
recorded, the values that `offer` returned `true` for, and the permits granted.

Numbers that are no integers are refused like the negative ones and left out.
-/
namespace Kronos.AxonServer.FlowControlledSender
open Kronos.Lib.Transition

variable {α : Type}

structure Error where
  message : String
  deriving DecidableEq, Repr

/-- What JavaScript lets one throw. -/
inductive Thrown where
  | error (error : Error)
  | other (text : String)
  deriving DecidableEq, Repr

/-- `error instanceof Error ? error : new Error(String(error))`. -/
def Thrown.toError : Thrown → Error
  | .error e => e
  | .other text => ⟨text⟩

/-- A call of one of the functions the sender was made with. -/
inductive Event (α : Type) where
  | sent (value : α)
  | completed
  | failed (error : Error)
  deriving DecidableEq, Repr

structure Sender (α : Type) where
  buffer : List α
  permits : ℕ
  isActive : Bool
  completionRequested : Bool
  /-- How often `send` was called, also when it threw. -/
  calls : ℕ
  events : List (Event α)
  deriving DecidableEq, Repr

/-- `Number.MAX_SAFE_INTEGER`. -/
def maxSafeInteger : ℤ := 9007199254740991

namespace Sender
variable (s : Sender α)

def fail (error : Error) : Sender α :=
  if s.isActive then
    { s with isActive := false, buffer := [], events := s.events ++ [.failed error] }
  else s

/-- The call of `send`, and what it threw. -/
def sendOne (fails : ℕ → Option Thrown) (value : α) : Sender α × Option Thrown :=
  match fails s.calls with
  | none => ({ s with calls := s.calls + 1, events := s.events ++ [.sent value] }, none)
  | some thrown => ({ s with calls := s.calls + 1 }.fail thrown.toError, some thrown)

def finishIfDrained : Sender α :=
  if s.isActive && s.completionRequested && s.buffer.isEmpty then
    { s with isActive := false, events := s.events ++ [.completed] }
  else s

/-- The loop of `drain` over what is left of the buffer. -/
def drainLoop (fails : ℕ → Option Thrown) : List α → Sender α → Sender α × Option Thrown
  | [], s => (s.finishIfDrained, none)
  | value :: rest, s =>
      if 0 < s.permits ∧ s.isActive = true then
        match { s with buffer := rest, permits := s.permits - 1 }.sendOne fails value with
        | (s, none) => drainLoop fails rest s
        | (s, some thrown) => (s, some thrown)
      else (s.finishIfDrained, none)

def drain (fails : ℕ → Option Thrown) : Sender α × Option Thrown := drainLoop fails s.buffer s

end Sender

/-- How a call ends. -/
inductive Outcome where
  | accepted
  | refused
  | returned
  | rangeError
  | threw (thrown : Thrown)
  deriving DecidableEq, Repr

def Outcome.ofThrown (otherwise : Outcome) : Option Thrown → Outcome
  | none => otherwise
  | some thrown => .threw thrown

inductive Call (α : Type) where
  | offer (value : α)
  | addPermits (count : ℤ)
  | complete
  | completeExceptionally (error : Error)
  deriving DecidableEq, Repr

namespace Sender
variable (s : Sender α)

def offer (fails : ℕ → Option Thrown) (maxBufferSize : ℕ) (value : α) : Sender α × Outcome :=
  if !s.isActive || s.completionRequested then (s, .refused)
  else if 0 < s.permits then
    let result := { s with permits := s.permits - 1 }.sendOne fails value
    (result.1, Outcome.ofThrown .accepted result.2)
  else if maxBufferSize ≤ s.buffer.length then (s, .refused)
  else ({ s with buffer := s.buffer ++ [value] }, .accepted)

def addPermits (fails : ℕ → Option Thrown) (count : ℤ) : Sender α × Outcome :=
  if maxSafeInteger < count ∨ count ≤ 0 ∨ maxSafeInteger < s.permits + count then (s, .rangeError)
  else if !s.isActive then (s, .returned)
  else
    let result := { s with permits := s.permits + count.toNat }.drain fails
    (result.1, Outcome.ofThrown .returned result.2)

def complete : Sender α × Outcome :=
  ({ s with completionRequested := true }.finishIfDrained, .returned)

def completeExceptionally (error : Error) : Sender α × Outcome := (s.fail error, .returned)

def perform (fails : ℕ → Option Thrown) (maxBufferSize : ℕ) : Call α → Sender α × Outcome
  | .offer value => s.offer fails maxBufferSize value
  | .addPermits count => s.addPermits fails count
  | .complete => s.complete
  | .completeExceptionally error => s.completeExceptionally error

end Sender

/-- A sender and what came of the calls so far. -/
structure Run (α : Type) where
  sender : Sender α
  /-- The values for which `offer` returned `true`. -/
  accepted : List α
  granted : ℕ
  deriving DecidableEq, Repr

def initial : Run α := ⟨⟨[], 0, true, false, 0, []⟩, [], 0⟩

def step (fails : ℕ → Option Thrown) (maxBufferSize : ℕ) (r : Run α) (call : Call α) :
    Option (Run α) :=
  let result := r.sender.perform fails maxBufferSize call
  some
    ⟨result.1,
      match call, result.2 with
      | .offer value, .accepted => r.accepted ++ [value]
      | _, _ => r.accepted,
      match call, result.2 with
      | .addPermits _, .rangeError => r.granted
      | .addPermits count, _ => r.granted + count.toNat
      | _, _ => r.granted⟩

/-- The values handed to `send` in calls that returned. -/
def sent (events : List (Event α)) : List α :=
  events.filterMap fun event =>
    match event with
    | .sent value => some value
    | _ => none

/-! ## What holds after every call -/

/-- The end of a stream: a call of `onComplete` or `onError`. -/
def Event.ends : Event α → Bool
  | .sent _ => false
  | _ => true

/-- What the sender promises. -/
structure Faithful (maxBufferSize : ℕ) (r : Run α) : Prop where
  /-- The values sent are the first of the accepted ones, in their order. -/
  order : sent r.sender.events <+: r.accepted
  permitted : (sent r.sender.events).length ≤ r.granted
  bounded : r.sender.buffer.length ≤ maxBufferSize
  drained : 0 < r.sender.permits → r.sender.buffer = []
  once : (r.sender.events.filter Event.ends).length ≤ 1
  completed : Event.completed ∈ r.sender.events → sent r.sender.events = r.accepted
  /-- What ends the stream is the last call. -/
  final : ∀ before last after, r.sender.events = before ++ last :: after →
    last.ends = true → after = []

/-- A stream that has not ended, in the middle of a call too. -/
structure Open (maxBufferSize : ℕ) (s : Sender α) (accepted : List α) (granted : ℕ) : Prop where
  active : s.isActive = true
  sends : ∃ values, s.events = values.map Event.sent ∧ accepted = values ++ s.buffer ∧
    values.length + s.permits ≤ granted
  bounded : s.buffer.length ≤ maxBufferSize

/-- A stream that has ended. -/
structure Over (s : Sender α) (accepted : List α) (granted : ℕ) : Prop where
  inactive : s.isActive = false
  empty : s.buffer = []
  sends : ∃ values last, s.events = values.map Event.sent ++ [last] ∧ last.ends = true ∧
    values <+: accepted ∧ (last = .completed → accepted = values) ∧
      values.length + s.permits ≤ granted

/-- Between two calls nothing waits that there is a permit for. -/
def Inv (maxBufferSize : ℕ) (r : Run α) : Prop :=
  Open maxBufferSize r.sender r.accepted r.granted ∧ (0 < r.sender.permits → r.sender.buffer = []) ∨
    Over r.sender r.accepted r.granted

section Calls
variable {fails : ℕ → Option Thrown} {maxBufferSize granted : ℕ} {s t : Sender α}
    {accepted : List α}

theorem sent_map (values : List α) : sent (values.map Event.sent) = values := by
  induction values with
  | nil => rfl
  | cons value values ih =>
      rw [List.map_cons, sent, List.filterMap_cons]
      exact congrArg (value :: ·) ih

theorem sent_append (events more : List (Event α)) :
    sent (events ++ more) = sent events ++ sent more :=
  List.filterMap_append

theorem sent_end {last : Event α} (hlast : last.ends = true) : sent [last] = [] := by
  cases last with
  | sent value => cases hlast
  | completed => rfl
  | failed error => rfl

theorem Open.fail (h : Open maxBufferSize s accepted granted) (error : Error) :
    Over (s.fail error) accepted granted := by
  obtain ⟨values, hevents, haccepted, hspent⟩ := h.sends
  rw [Sender.fail, if_pos h.active]
  refine ⟨rfl, rfl, values, .failed error, ?_, rfl, ?_, nofun, hspent⟩
  · simp only [hevents]
  · rw [haccepted]
    exact List.prefix_append _ _

theorem Open.finishIfDrained (h : Open maxBufferSize s accepted granted) :
    Open maxBufferSize s.finishIfDrained accepted granted ∧ s.finishIfDrained = s ∨
      Over s.finishIfDrained accepted granted := by
  unfold Sender.finishIfDrained
  split_ifs with hfinish
  · right
    simp only [Bool.and_eq_true, List.isEmpty_iff] at hfinish
    obtain ⟨values, hevents, haccepted, hspent⟩ := h.sends
    rw [hfinish.2, List.append_nil] at haccepted
    refine ⟨rfl, hfinish.2, values, .completed, ?_, rfl, ?_, fun _ => haccepted, hspent⟩
    · simp only [hevents]
    · rw [haccepted]
  · exact .inl ⟨h, rfl⟩

/-- One value is handed to `send`, with the permit for it taken. -/
theorem sendOne_cases (fails : ℕ → Option Thrown) (value : α) {values : List α}
    (hactive : s.isActive = true) (hevents : s.events = values.map Event.sent)
    (hspent : values.length + 1 + s.permits ≤ granted)
    (hbounded : s.buffer.length ≤ maxBufferSize) :
    (∃ t, s.sendOne fails value = (t, none) ∧ t.buffer = s.buffer ∧ t.permits = s.permits ∧
        Open maxBufferSize t (values ++ value :: s.buffer) granted) ∨
      ∃ t thrown, s.sendOne fails value = (t, some thrown) ∧
        ∀ accepted, values <+: accepted → Over t accepted granted := by
  unfold Sender.sendOne
  cases hfails : fails s.calls with
  | none =>
      refine .inl ⟨_, rfl, rfl, rfl, hactive, ⟨values ++ [value], ?_, ?_, ?_⟩, hbounded⟩
      · simp [hevents]
      · simp
      · simp only [List.length_append, List.length_singleton]
        omega
  | some thrown =>
      refine .inr ⟨_, thrown, rfl, ?_⟩
      intro accepted hprefix
      rw [Sender.fail, if_pos hactive]
      refine ⟨rfl, rfl, values, .failed thrown.toError, ?_, rfl, hprefix, nofun, ?_⟩
      · simp only [hevents]
      · change values.length + s.permits ≤ granted
        omega

/-- The loop goes on until the permits or the buffer are used up. -/
theorem Open.drainLoop (fails : ℕ → Option Thrown) (h : Open maxBufferSize s accepted granted)
    {rest : List α} (hrest : s.buffer = rest) :
    Open maxBufferSize (Sender.drainLoop fails rest s).1 accepted granted ∧
        (0 < (Sender.drainLoop fails rest s).1.permits →
          (Sender.drainLoop fails rest s).1.buffer = []) ∨
      Over (Sender.drainLoop fails rest s).1 accepted granted := by
  induction rest generalizing s with
  | nil =>
      rw [Sender.drainLoop]
      rcases h.finishIfDrained with ⟨hopen, hsame⟩ | hover
      · refine .inl ⟨hopen, fun _ => ?_⟩
        rw [hsame, hrest]
      · exact .inr hover
  | cons value rest ih =>
      rw [Sender.drainLoop]
      split_ifs with hgo
      · obtain ⟨values, hevents, haccepted, hspent⟩ := h.sends
        have hbounded := h.bounded
        rw [hrest, List.length_cons] at hbounded
        have hpermits : values.length + 1 + (s.permits - 1) ≤ granted := by omega
        have hroom : rest.length ≤ maxBufferSize := by omega
        rcases sendOne_cases (s := { s with buffer := rest, permits := s.permits - 1 }) fails
          value h.active
          hevents hpermits hroom with ⟨t, hsend, hbuffer, -, hopen⟩ | ⟨t, thrown, hsend, hover⟩
        · rw [hsend]
          simp only at hopen
          rw [← hrest, ← haccepted] at hopen
          exact ih hopen hbuffer
        · rw [hsend]
          refine .inr (hover accepted ?_)
          rw [haccepted]
          exact List.prefix_append _ _
      · rcases h.finishIfDrained with ⟨hopen, hsame⟩ | hover
        · refine .inl ⟨hopen, fun hpermits => ?_⟩
          rw [hsame] at hpermits
          exact absurd ⟨hpermits, h.active⟩ hgo
        · exact .inr hover

theorem Open.drain (fails : ℕ → Option Thrown) (h : Open maxBufferSize s accepted granted) :
    Open maxBufferSize (s.drain fails).1 accepted granted ∧
        (0 < (s.drain fails).1.permits → (s.drain fails).1.buffer = []) ∨
      Over (s.drain fails).1 accepted granted :=
  h.drainLoop fails rfl

theorem Inv.offer {r t : Run α} (h : Inv maxBufferSize r) {value : α}
    (ht : step fails maxBufferSize r (.offer value) = some t) : Inv maxBufferSize t := by
  simp only [step, Sender.perform, Sender.offer, Option.some.injEq] at ht
  split_ifs at ht with hclosed hpermits hfull
  · rw [← ht]
    exact h
  · rcases h with ⟨hopen, hdrained⟩ | hover
    · have hempty : r.sender.buffer = [] := hdrained hpermits
      obtain ⟨values, hevents, haccepted, hspent⟩ := hopen.sends
      have hspent' : values.length + 1 + (r.sender.permits - 1) ≤ r.granted := by omega
      rcases sendOne_cases (s := { r.sender with permits := r.sender.permits - 1 }) fails value
        hopen.active
        hevents hspent' hopen.bounded with ⟨u, hsend, hbuffer, -, hsent⟩ | ⟨u, thrown, hsend, hover⟩
      · rw [hsend] at ht
        simp only [hempty] at hbuffer hsent
        rw [hempty, List.append_nil] at haccepted
        rw [← ht, haccepted]
        exact .inl ⟨hsent, fun _ => hbuffer⟩
      · rw [hsend] at ht
        rw [← ht]
        refine .inr (hover r.accepted ?_)
        rw [haccepted]
        exact List.prefix_append _ _
    · rw [hover.inactive] at hclosed
      exact absurd rfl hclosed
  · rw [← ht]
    exact h
  · rcases h with ⟨hopen, -⟩ | hover
    · obtain ⟨values, hevents, haccepted, hspent⟩ := hopen.sends
      rw [← ht]
      refine .inl ⟨⟨hopen.active, ⟨values, hevents, ?_, hspent⟩, ?_⟩, ?_⟩
      · simp only [haccepted, List.append_assoc]
      · simp only [List.length_append, List.length_singleton]
        omega
      · intro hsome
        exact absurd hsome hpermits
    · rw [hover.inactive] at hclosed
      exact absurd rfl hclosed

theorem Inv.addPermits {r t : Run α} (h : Inv maxBufferSize r) {count : ℤ}
    (ht : step fails maxBufferSize r (.addPermits count) = some t) : Inv maxBufferSize t := by
  simp only [step, Sender.perform, Sender.addPermits, Option.some.injEq] at ht
  split_ifs at ht with hrange hclosed
  · rw [← ht]
    exact h
  · rw [← ht]
    rcases h with ⟨hopen, -⟩ | hover
    · rw [hopen.active] at hclosed
      cases hclosed
    · obtain ⟨values, last, hevents, hends, hprefix, hcompleted, hspent⟩ := hover.sends
      exact .inr ⟨hover.inactive, hover.empty, values, last, hevents, hends, hprefix, hcompleted,
        hspent.trans (Nat.le_add_right _ _)⟩
  · rcases h with ⟨hopen, -⟩ | hover
    · obtain ⟨values, hevents, haccepted, hspent⟩ := hopen.sends
      have hgranted : Open maxBufferSize { r.sender with permits := r.sender.permits + count.toNat }
          r.accepted (r.granted + count.toNat) := by
        refine ⟨hopen.active, ⟨values, hevents, haccepted, ?_⟩, hopen.bounded⟩
        simp only
        omega
      have hdrain := hgranted.drain fails
      rw [← ht]
      generalize Sender.drain { r.sender with permits := r.sender.permits + count.toNat } fails =
        result
        at hdrain
      cases hthrown : result.2 with
      | none => simpa [Inv, Outcome.ofThrown, hthrown] using hdrain
      | some thrown => simpa [Inv, Outcome.ofThrown, hthrown] using hdrain
    · rw [hover.inactive] at hclosed
      exact absurd rfl hclosed

theorem Inv.complete {r t : Run α} (h : Inv maxBufferSize r)
    (ht : step fails maxBufferSize r .complete = some t) : Inv maxBufferSize t := by
  cases ht
  rcases h with ⟨hopen, hdrained⟩ | hover
  · have hrequested :
        Open maxBufferSize { r.sender with completionRequested := true } r.accepted r.granted :=
      ⟨hopen.active, hopen.sends, hopen.bounded⟩
    rcases hrequested.finishIfDrained with ⟨hstill, hsame⟩ | hover
    · refine .inl ⟨hstill, ?_⟩
      simp only [Sender.perform, Sender.complete, hsame]
      exact hdrained
    · exact .inr hover
  · right
    have hsame : Sender.finishIfDrained { r.sender with completionRequested := true } =
        { r.sender with completionRequested := true } := by
      simp [Sender.finishIfDrained, hover.inactive]
    simp only [Sender.perform, Sender.complete, hsame]
    exact ⟨hover.inactive, hover.empty, hover.sends⟩

theorem Inv.completeExceptionally {r t : Run α} (h : Inv maxBufferSize r) {error : Error}
    (ht : step fails maxBufferSize r (.completeExceptionally error) = some t) :
    Inv maxBufferSize t := by
  cases ht
  rcases h with ⟨hopen, -⟩ | hover
  · exact .inr (hopen.fail error)
  · have hsame : r.sender.fail error = r.sender := by
      simp [Sender.fail, hover.inactive]
    simp only [Inv, Sender.perform, Sender.completeExceptionally, hsame]
    exact .inr hover

theorem Inv.step {r t : Run α} {call : Call α} (h : Inv maxBufferSize r)
    (ht : step fails maxBufferSize r call = some t) : Inv maxBufferSize t := by
  cases call with
  | offer value => exact h.offer ht
  | addPermits count => exact h.addPermits ht
  | complete => exact h.complete ht
  | completeExceptionally error => exact h.completeExceptionally ht

theorem inv_initial : Inv maxBufferSize (initial : Run α) :=
  .inl ⟨⟨rfl, ⟨[], rfl, rfl, le_rfl⟩, Nat.zero_le _⟩, fun _ => rfl⟩

theorem Inv.faithful {r : Run α} (h : Inv maxBufferSize r) : Faithful maxBufferSize r := by
  rcases h with ⟨hopen, hdrained⟩ | hover
  · obtain ⟨values, hevents, haccepted, hspent⟩ := hopen.sends
    have hsent : sent r.sender.events = values := by rw [hevents, sent_map]
    have hnone : ∀ event ∈ r.sender.events, event.ends = false := by
      intro event hevent
      rw [hevents] at hevent
      obtain ⟨value, -, rfl⟩ := List.mem_map.mp hevent
      rfl
    refine ⟨?_, ?_, hopen.bounded, hdrained, ?_, ?_, ?_⟩
    · rw [hsent, haccepted]
      exact List.prefix_append _ _
    · rw [hsent]
      omega
    · rw [List.filter_eq_nil_iff.mpr fun event hevent => by simp [hnone event hevent]]
      exact Nat.zero_le _
    · intro hcompleted
      cases hnone _ hcompleted
    · intro before last after heq hlast
      rw [hnone last (by rw [heq]; simp)] at hlast
      cases hlast
  · obtain ⟨values, last, hevents, hends, hprefix, hcompleted, hspent⟩ := hover.sends
    have hsent : sent r.sender.events = values := by
      rw [hevents, sent_append, sent_map, sent_end hends, List.append_nil]
    refine ⟨?_, ?_, ?_, fun _ => hover.empty, ?_, ?_, ?_⟩
    · rw [hsent]
      exact hprefix
    · rw [hsent]
      omega
    · rw [hover.empty]
      exact Nat.zero_le _
    · have hnone : (values.map Event.sent).filter Event.ends = [] := by
        rw [List.filter_eq_nil_iff]
        intro event hevent
        obtain ⟨value, -, rfl⟩ := List.mem_map.mp hevent
        exact Bool.false_ne_true
      rw [hevents, List.filter_append, hnone, List.nil_append]
      exact List.length_filter_le _ _
    · intro hmem
      rw [hevents, List.mem_append, List.mem_singleton] at hmem
      rcases hmem with hmem | heq
      · obtain ⟨value, -, heq⟩ := List.mem_map.mp hmem
        cases heq
      · rw [hsent, hcompleted heq.symm]
    · intro before end' after heq hend
      rw [hevents] at heq
      rcases List.eq_nil_or_concat' after with rfl | ⟨more, final, rfl⟩
      · rfl
      · -- what ends the stream would be among the values sent
        rw [← List.cons_append, ← List.append_assoc] at heq
        have hvalues := (List.append_inj_left' heq rfl).symm
        have hmem : end' ∈ values.map Event.sent := by
          rw [← hvalues]
          simp
        obtain ⟨value, -, rfl⟩ := List.mem_map.mp hmem
        cases hend

end Calls

end Kronos.AxonServer.FlowControlledSender
