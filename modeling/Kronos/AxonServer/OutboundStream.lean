import Mathlib.Data.List.Infix
import Mathlib.Order.Basic
import Kronos.Lib.Slots
import Kronos.Lib.Transition

/-!
# The outbound stream

The bounded queue that feeds the request stream of an RPC. Its one consumer asks for
a frame and gets it at once, or waits for the next one that is sent. `flush` promises
that the consumer has asked for more after every frame sent so far.

Beside the stream are kept all frames accepted and handed out, how many had been
handed out when the consumer last asked, and the promises of `flush`. The calls that
share one promise of the code settle together.
-/
namespace Kronos.AxonServer.OutboundStream
open Kronos.Lib.Slots Kronos.Lib.Transition

variable {α : Type}

/-- A call of `flush`. -/
structure Flush where
  /-- How many frames had been accepted. -/
  upTo : ℕ
  /-- The consumer had cancelled. -/
  late : Bool
  settled : Option Bool
  deriving DecidableEq, Repr

structure Stream (α : Type) where
  queue : List α
  closed : Bool
  claimed : Bool
  handingOff : Bool
  /-- A read waits: `resolve`. -/
  waiting : Bool
  cancelled : Bool
  accepted : List α
  delivered : List α
  requested : ℕ
  /-- A read was told that there is no more. -/
  ended : Bool
  flushes : List Flush
  deriving DecidableEq, Repr

/-- `outboundStream`. -/
def outboundStream : Stream α where
  queue := []
  closed := false
  claimed := false
  handingOff := false
  waiting := false
  cancelled := false
  accepted := []
  delivered := []
  requested := 0
  ended := false
  flushes := []

namespace Stream
variable (s : Stream α)

/-- The promise that is pending settles. -/
def settle (outcome : Bool) : Stream α :=
  { s with
    flushes := s.flushes.map fun call => { call with settled := call.settled.or (some outcome) } }

def acknowledgeRead : Stream α :=
  let s := { s with handingOff := false, requested := s.delivered.length }
  if s.queue.isEmpty then s.settle true else s

def close : Stream α :=
  let s := { s with closed := true }
  let s := if s.queue.isEmpty && !s.handingOff then s.settle true else s
  if s.waiting then { s with waiting := false, ended := true } else s

def flush : Stream α :=
  let settled := if s.queue.isEmpty && !s.handingOff then some true
    else if s.closed then some false else none
  { s with flushes := s.flushes ++ [⟨s.accepted.length, s.cancelled, settled⟩] }

/-- `none` where it throws. -/
def send (maxBuffered : ℕ) (message : α) : Option (Stream α) :=
  if s.closed then none
  else if s.waiting then
    some
      { s with
        waiting := false
        handingOff := true
        accepted := s.accepted ++ [message]
        delivered := s.delivered ++ [message] }
  else if maxBuffered ≤ s.queue.length then none
  else some { s with queue := s.queue ++ [message], accepted := s.accepted ++ [message] }

/-- `[Symbol.asyncIterator]`; `none` where it throws. -/
def iterator : Option (Stream α) := if s.claimed then none else some { s with claimed := true }

/-- `next`. A second read beside one that waits is refused. -/
def next : Stream α :=
  let s := s.acknowledgeRead
  match s.queue with
  | message :: queue => { s with handingOff := true, queue, delivered := s.delivered ++ [message] }
  | [] => if s.closed then { s with ended := true } else { s with waiting := true }

def «return» : Stream α :=
  let s := { s with queue := [], cancelled := true }.settle false
  { s with handingOff := false }.close

end Stream

inductive Action (α : Type) where
  | send (message : α)
  | flush
  | close
  | iterator
  | next
  | return
  deriving DecidableEq, Repr

/-- A call that throws is no step. -/
def step (maxBuffered : ℕ) (s : Stream α) : Action α → Option (Stream α)
  | .send message => s.send maxBuffered message
  | .flush => some s.flush
  | .close => some s.close
  | .iterator => s.iterator
  | .next => if s.claimed then some s.next else none
  | .return => if s.claimed then some s.return else none

/-! ## The invariant -/

/-- What a call of `flush` was told is so. -/
structure Told (s : Stream α) (call : Flush) : Prop where
  bounded : call.upTo ≤ s.accepted.length
  done : call.settled = some true → call.upTo ≤ s.requested ∨ call.late = true
  refused : call.settled = some false → s.closed = true
  pending : call.settled = none → s.cancelled = false ∧ (s.queue ≠ [] ∨ s.handingOff = true)

structure Inv (maxBuffered : ℕ) (s : Stream α) : Prop where
  order : s.delivered <+: s.accepted
  whole : s.cancelled = false → s.accepted = s.delivered ++ s.queue
  closing : s.cancelled = true → s.closed = true ∧ s.queue = [] ∧ s.handingOff = false
  bounded : s.queue.length ≤ maxBuffered
  waiting : s.waiting = true → s.closed = false ∧ s.queue = [] ∧ s.handingOff = false
  requested : s.requested ≤ s.delivered.length
  /-- One frame at most is in the hands of the consumer. -/
  asked : s.cancelled = false → s.requested + s.handingOff.toNat = s.delivered.length
  ended : s.ended = true → s.closed = true ∧ s.queue = []
  told : ∀ call ∈ s.flushes, Told s call

theorem inv_initial (maxBuffered : ℕ) : Inv maxBuffered (outboundStream : Stream α) where
  order := List.prefix_rfl
  whole := fun _ => rfl
  closing := nofun
  bounded := Nat.zero_le _
  waiting := nofun
  requested := le_rfl
  asked := fun _ => rfl
  ended := nofun
  told := nofun

section Steps
variable {s t : Stream α} {maxBuffered : ℕ} {message : α} {outcome : Bool} {call : Flush}

theorem Told.mono (h : Told s call) (haccepted : s.accepted.length ≤ t.accepted.length)
    (hrequested : s.requested ≤ t.requested) (hclosed : s.closed = true → t.closed = true)
    (hpending : call.settled = none → t.cancelled = false ∧ (t.queue ≠ [] ∨ t.handingOff = true)) :
    Told t call where
  bounded := h.bounded.trans haccepted
  done := fun hsettled => (h.done hsettled).imp_left fun hasked => hasked.trans hrequested
  refused := fun hsettled => hclosed (h.refused hsettled)
  pending := hpending

theorem Told.settle (h : Told s call) (haccepted : s.accepted.length ≤ t.accepted.length)
    (hrequested : s.requested ≤ t.requested) (hclosed : s.closed = true → t.closed = true)
    (hdone : outcome = true → call.settled = none → call.upTo ≤ t.requested)
    (hrefused : outcome = false → t.closed = true) :
    Told t { call with settled := call.settled.or (some outcome) } := by
  obtain ⟨upTo, late, settled⟩ := call
  cases settled with
  | none =>
      refine ⟨h.bounded.trans haccepted, fun hsettled => .inl (hdone ?_ rfl),
        fun hsettled => hrefused ?_, nofun⟩
      · exact Option.some.inj hsettled
      · exact Option.some.inj hsettled
  | some earlier => exact h.mono haccepted hrequested hclosed nofun

/-- Once nothing is queued, a pending promise is about frames that were handed out. -/
theorem Inv.upTo_le_delivered (hi : Inv maxBuffered s) (hqueue : s.queue = [])
    (hcall : call ∈ s.flushes) (hpending : call.settled = none) :
    call.upTo ≤ s.delivered.length := by
  have htold := hi.told call hcall
  have hwhole := hi.whole (htold.pending hpending).1
  rw [hqueue, List.append_nil] at hwhole
  exact hwhole ▸ htold.bounded

theorem acknowledgeRead_eq : ∃ flushes, s.acknowledgeRead =
    { s with handingOff := false, requested := s.delivered.length, flushes } := by
  unfold Stream.acknowledgeRead
  dsimp only
  split_ifs
  · exact ⟨_, rfl⟩
  · exact ⟨_, rfl⟩

theorem Inv.acknowledgeRead (hi : Inv maxBuffered s) : Inv maxBuffered s.acknowledgeRead := by
  have htold : ∀ call ∈ s.acknowledgeRead.flushes, Told s.acknowledgeRead call := by
    unfold Stream.acknowledgeRead
    dsimp only
    split_ifs with hqueue
    · intro call hcall
      obtain ⟨earlier, hearlier, rfl⟩ := List.mem_map.mp hcall
      exact (hi.told earlier hearlier).settle le_rfl hi.requested id
        (fun _ hpending => hi.upTo_le_delivered (List.isEmpty_iff.mp hqueue) hearlier hpending)
          nofun
    · intro call hcall
      refine (hi.told call hcall).mono le_rfl hi.requested id fun hpending => ?_
      exact ⟨((hi.told call hcall).pending hpending).1,
        .inl fun hnil => hqueue (List.isEmpty_iff.mpr hnil)⟩
  obtain ⟨flushes, hsame⟩ := acknowledgeRead_eq (s := s)
  rw [hsame] at htold ⊢
  refine ⟨hi.order, hi.whole, ?_, hi.bounded, ?_, le_rfl, fun _ => rfl, hi.ended, htold⟩
  · intro hcancelled
    exact ⟨(hi.closing hcancelled).1, (hi.closing hcancelled).2.1, rfl⟩
  · intro hwaiting
    exact ⟨(hi.waiting hwaiting).1, (hi.waiting hwaiting).2.1, rfl⟩

theorem settle_of_settled (h : ∀ call ∈ s.flushes, call.settled ≠ none) : s.settle outcome = s := by
  have hflushes :
      s.flushes.map (fun call => { call with settled := call.settled.or (some outcome) }) =
      s.flushes := by
    refine (List.map_congr_left fun call hcall => ?_).trans (List.map_id _)
    obtain ⟨upTo, late, settled⟩ := call
    cases settled with
    | none => exact absurd rfl (h _ hcall)
    | some earlier => rfl
  rw [Stream.settle, hflushes]

/-- A promise is pending only while a frame is queued or handed off, so `close` settles none. -/
theorem close_eq
    (hbusy : ∀ call ∈ s.flushes, call.settled = none → s.queue ≠ [] ∨ s.handingOff = true) :
    s.close = { s with closed := true, waiting := false, ended := s.ended || s.waiting } := by
  have hsettle : (s.queue.isEmpty && !s.handingOff) = true →
      { s with closed := true }.settle true = { s with closed := true } := by
    intro hnone
    obtain ⟨hqueue, hhanding⟩ := Bool.and_eq_true_iff.mp hnone
    refine settle_of_settled fun call hcall hpending => ?_
    rcases hbusy call hcall hpending with h | h
    · exact h (List.isEmpty_iff.mp hqueue)
    · rw [h] at hhanding
      cases hhanding
  have hsame :
      (if s.queue.isEmpty && !s.handingOff then { s with closed := true }.settle true
      else { s with closed := true }) =
      { s with closed := true } := by
    split_ifs with hnone
    · exact hsettle hnone
    · rfl
  unfold Stream.close
  dsimp only
  rw [hsame]
  split_ifs with hwaiting
  · rw [hwaiting, Bool.or_true]
  · rw [Bool.eq_false_iff.mpr hwaiting, Bool.or_false]

theorem Inv.close (hi : Inv maxBuffered s) : Inv maxBuffered s.close := by
  rw [close_eq fun call hcall hpending => ((hi.told call hcall).pending hpending).2]
  refine ⟨hi.order, hi.whole, fun h => ⟨rfl, (hi.closing h).2⟩, hi.bounded, nofun, hi.requested,
    hi.asked, ?_, ?_⟩
  · intro hended
    rcases Bool.or_eq_true_iff.mp hended with h | h
    · exact ⟨rfl, (hi.ended h).2⟩
    · exact ⟨rfl, (hi.waiting h).2.1⟩
  · intro call hcall
    exact (hi.told call hcall).mono le_rfl le_rfl (fun _ => rfl) (hi.told call hcall).pending

theorem Inv.flush (hi : Inv maxBuffered s) : Inv maxBuffered s.flush := by
  refine { hi with told := fun call hcall => ?_ }
  rcases List.mem_append.mp hcall with h | h
  · exact (hi.told call h).mono le_rfl le_rfl id (hi.told call h).pending
  · obtain rfl := List.mem_singleton.mp h
    split_ifs with hidle hclosed
    · obtain ⟨hqueue, hhanding⟩ := Bool.and_eq_true_iff.mp hidle
      refine ⟨le_rfl, fun _ => ?_, nofun, nofun⟩
      cases hcancelled : s.cancelled with
      | true => exact .inr rfl
      | false =>
          have hwhole := congrArg List.length (hi.whole hcancelled)
          have hasked := hi.asked hcancelled
          rw [List.isEmpty_iff.mp hqueue, List.append_nil] at hwhole
          rw [(Bool.not_eq_true' _).mp hhanding, Bool.toNat_false, Nat.add_zero] at hasked
          exact .inl (hwhole.trans hasked.symm).le
    · exact ⟨le_rfl, nofun, fun _ => hclosed, nofun⟩
    · have hbusy : s.queue ≠ [] ∨ s.handingOff = true := by
        by_contra hneither
        obtain ⟨hqueue, hhanding⟩ := not_or.mp hneither
        exact hidle (by simpa using And.intro (not_not.mp hqueue) hhanding)
      exact ⟨le_rfl, nofun, nofun,
        fun _ => ⟨Bool.eq_false_iff.mpr fun h => hclosed (hi.closing h).1, hbusy⟩⟩

theorem Inv.send (hi : Inv maxBuffered s) (h : s.send maxBuffered message = some t) :
    Inv maxBuffered t := by
  unfold Stream.send at h
  split_ifs at h with hclosed hwaiting hfull
  · obtain rfl := Option.some.inj h
    obtain ⟨-, hqueue, hhanding⟩ := hi.waiting hwaiting
    have hcancelled : s.cancelled = false := Bool.eq_false_iff.mpr fun h => hclosed (hi.closing h).1
    have hwhole := hi.whole hcancelled
    have hasked := hi.asked hcancelled
    rw [hqueue, List.append_nil] at hwhole
    rw [hhanding, Bool.toNat_false, Nat.add_zero] at hasked
    refine ⟨?_, fun _ => ?_, fun h => ?_, hi.bounded, nofun, ?_, fun _ => ?_, fun h => ?_, ?_⟩
    · rw [hwhole]
    · rw [hwhole, hqueue, List.append_nil]
    · rw [hcancelled] at h
      cases h
    · rw [List.length_append]
      exact hi.requested.trans (Nat.le_add_right _ _)
    · rw [List.length_append, hasked]
      rfl
    · exact absurd (hi.ended h).1 hclosed
    · intro call hcall
      refine (hi.told call hcall).mono ?_ le_rfl id fun hpending => ⟨hcancelled, .inr rfl⟩
      rw [List.length_append]
      exact Nat.le_add_right _ _
  · obtain rfl := Option.some.inj h
    have hcancelled : s.cancelled = false := Bool.eq_false_iff.mpr fun h => hclosed (hi.closing h).1
    refine ⟨hi.order.trans (List.prefix_append _ _), fun _ => ?_, fun h => ?_, ?_, fun h => ?_,
      hi.requested, hi.asked,
      fun h => ?_, ?_⟩
    · rw [hi.whole hcancelled, List.append_assoc]
    · rw [hcancelled] at h
      cases h
    · rw [List.length_append]
      exact Nat.succ_le_of_lt (not_le.mp hfull)
    · exact absurd h hwaiting
    · exact absurd (hi.ended h).1 hclosed
    · intro call hcall
      refine (hi.told call hcall).mono ?_ le_rfl id fun hpending => ⟨hcancelled, .inl ?_⟩
      · rw [List.length_append]
        exact Nat.le_add_right _ _
      · exact List.append_ne_nil_of_right_ne_nil _ (List.cons_ne_nil _ _)

theorem Inv.iterator (hi : Inv maxBuffered s) (h : s.iterator = some t) : Inv maxBuffered t := by
  unfold Stream.iterator at h
  split_ifs at h
  obtain rfl := Option.some.inj h
  refine { hi with told := fun call hcall => ?_ }
  exact (hi.told call hcall).mono le_rfl le_rfl id (hi.told call hcall).pending

theorem Inv.next (hi : Inv maxBuffered s) : Inv maxBuffered s.next := by
  have ha := hi.acknowledgeRead
  have hread : s.acknowledgeRead.handingOff = false ∧
      s.acknowledgeRead.requested = s.acknowledgeRead.delivered.length := by
    obtain ⟨flushes, hsame⟩ := acknowledgeRead_eq (s := s)
    rw [hsame]
    exact ⟨rfl, rfl⟩
  unfold Stream.next
  generalize s.acknowledgeRead = read at ha hread
  obtain ⟨hhanding, hasked⟩ := hread
  dsimp only
  split
  · next message queue hqueue =>
      have hcancelled : read.cancelled = false := by
        refine Bool.eq_false_iff.mpr fun h => ?_
        rw [(ha.closing h).2.1] at hqueue
        cases hqueue
      have hwhole := ha.whole hcancelled
      rw [hqueue] at hwhole
      refine ⟨?_, fun _ => ?_, fun h => ?_, ?_, fun h => ?_, ?_, fun _ => ?_, fun h => ?_,
        fun call hcall => ?_⟩
      · rw [hwhole]
        exact ⟨queue, by rw [List.append_assoc]; rfl⟩
      · rw [hwhole, List.append_assoc]
        rfl
      · rw [hcancelled] at h
        cases h
      · have hbounded := ha.bounded
        rw [hqueue] at hbounded
        exact (Nat.le_succ _).trans hbounded
      · rw [(ha.waiting h).2.1] at hqueue
        cases hqueue
      · rw [List.length_append]
        exact ha.requested.trans (Nat.le_add_right _ _)
      · rw [List.length_append, hasked]
        rfl
      · rw [(ha.ended h).2] at hqueue
        cases hqueue
      · exact (ha.told call hcall).mono le_rfl le_rfl id fun _ => ⟨hcancelled, .inr rfl⟩
  · next hqueue =>
      have htold : ∀ call ∈ read.flushes, call.settled ≠ none := by
        intro call hcall hpending
        rcases ((ha.told call hcall).pending hpending).2 with h | h
        · exact h hqueue
        · rw [hhanding] at h
          cases h
      split_ifs with hclosed
      · refine { ha with ended := fun _ => ⟨hclosed, hqueue⟩, told := fun call hcall => ?_ }
        exact (ha.told call hcall).mono le_rfl le_rfl id fun h => absurd h (htold call hcall)
      · refine { ha with waiting := fun _ => ⟨?_, hqueue, hhanding⟩, told := fun call hcall => ?_ }
        · exact Bool.eq_false_iff.mpr hclosed
        · exact (ha.told call hcall).mono le_rfl le_rfl id fun h => absurd h (htold call hcall)

theorem Inv.return (hi : Inv maxBuffered s) : Inv maxBuffered s.return := by
  have hsettled : ∀ call ∈ (s.settle false).flushes, call.settled ≠ none := by
    intro call hcall
    obtain ⟨⟨upTo, late, settled⟩, -, rfl⟩ := List.mem_map.mp hcall
    cases settled <;> nofun
  have hreturn : s.return =
      { s with
        queue := []
        cancelled := true
        handingOff := false
        closed := true
        waiting := false
        ended := s.ended || s.waiting
        flushes := (s.settle false).flushes } :=
    close_eq fun call hcall hpending => absurd hpending (hsettled call hcall)
  rw [hreturn]
  refine ⟨hi.order, nofun, fun _ => ⟨rfl, rfl, rfl⟩, Nat.zero_le _, nofun, hi.requested, nofun,
    fun _ => ⟨rfl, rfl⟩, ?_⟩
  intro call hcall
  obtain ⟨earlier, hearlier, rfl⟩ := List.mem_map.mp hcall
  exact (hi.told earlier hearlier).settle le_rfl le_rfl (fun _ => rfl) nofun fun _ => rfl

theorem inv_step {action : Action α} (hi : Inv maxBuffered s)
    (h : step maxBuffered s action = some t) : Inv maxBuffered t := by
  cases action with
  | send message => exact hi.send h
  | flush => exact Option.some.inj h ▸ hi.flush
  | close => exact Option.some.inj h ▸ hi.close
  | iterator => exact hi.iterator h
  | next =>
      unfold step at h
      split_ifs at h
      exact Option.some.inj h ▸ hi.next
  | «return» =>
      unfold step at h
      split_ifs at h
      exact Option.some.inj h ▸ hi.return

theorem inv_of_reach (h : Reach (step maxBuffered) always outboundStream s) : Inv maxBuffered s :=
  h.invariant (inv_initial maxBuffered) fun _ _ _ _ hi _ hs => inv_step hi hs

end Steps

/-! ## What a stream keeps -/

/-- `t` is `s` some calls later. -/
structure Later (s t : Stream α) : Prop where
  accepted : s.accepted <+: t.accepted
  delivered : s.delivered <+: t.delivered
  requested : s.requested ≤ t.requested
  closed : s.closed = true → t.closed = true
  flushes : ∀ (k : ℕ) (call : Flush), s.flushes[k]? = some call →
    ∃ later : Flush, t.flushes[k]? = some later ∧ later.upTo = call.upTo ∧ later.late = call.late

section Later
variable {s t u : Stream α} {maxBuffered : ℕ}

theorem Later.refl (s : Stream α) : Later s s :=
  ⟨List.prefix_rfl, List.prefix_rfl, le_rfl, id, fun _ call h => ⟨call, h, rfl, rfl⟩⟩

theorem Later.trans (h : Later s t) (k : Later t u) : Later s u where
  accepted := h.accepted.trans k.accepted
  delivered := h.delivered.trans k.delivered
  requested := h.requested.trans k.requested
  closed := fun hclosed => k.closed (h.closed hclosed)
  flushes := by
    intro n call hcall
    obtain ⟨later, hlater, hupTo, hlate⟩ := h.flushes n call hcall
    obtain ⟨last, hlast, hupTo', hlate'⟩ := k.flushes n later hlater
    exact ⟨last, hlast, hupTo'.trans hupTo, hlate'.trans hlate⟩

theorem later_settle (s : Stream α) (outcome : Bool) : Later s (s.settle outcome) := by
  refine ⟨List.prefix_rfl, List.prefix_rfl, le_rfl, id, fun k call hcall => ?_⟩
  refine ⟨{ call with settled := call.settled.or (some outcome) }, ?_, rfl, rfl⟩
  rw [Stream.settle, List.getElem?_map, hcall]
  rfl

theorem later_close (s : Stream α) : Later s s.close := by
  have hclosed : Later s { s with closed := true } :=
    ⟨List.prefix_rfl, List.prefix_rfl, le_rfl, fun _ => rfl, fun _ call h => ⟨call, h, rfl, rfl⟩⟩
  have hended : ∀ r : Stream α, Later r { r with waiting := false, ended := true } := fun r =>
    ⟨List.prefix_rfl, List.prefix_rfl, le_rfl, id, fun _ call h => ⟨call, h, rfl, rfl⟩⟩
  unfold Stream.close
  dsimp only
  split_ifs
  · exact (hclosed.trans (later_settle _ _)).trans (hended _)
  · exact hclosed.trans (later_settle _ _)
  · exact hclosed.trans (hended _)
  · exact hclosed

theorem later_flush (s : Stream α) : Later s s.flush :=
  ⟨List.prefix_rfl, List.prefix_rfl, le_rfl, id,
    fun _ call h => ⟨call, getElem?_append_of_some h, rfl, rfl⟩⟩

theorem later_return (s : Stream α) : Later s s.return := by
  have hcleared : ∀ r : Stream α, Later r { r with queue := [], cancelled := true } := fun r =>
    ⟨List.prefix_rfl, List.prefix_rfl, le_rfl, id, fun _ call h => ⟨call, h, rfl, rfl⟩⟩
  have hfreed : ∀ r : Stream α, Later r { r with handingOff := false } := fun r =>
    ⟨List.prefix_rfl, List.prefix_rfl, le_rfl, id, fun _ call h => ⟨call, h, rfl, rfl⟩⟩
  exact (((hcleared s).trans (later_settle _ _)).trans (hfreed _)).trans (later_close _)

theorem later_send {message : α} (h : s.send maxBuffered message = some t) : Later s t := by
  unfold Stream.send at h
  split_ifs at h
  · obtain rfl := Option.some.inj h
    exact ⟨List.prefix_append _ _, List.prefix_append _ _, le_rfl, id,
      fun _ call h => ⟨call, h, rfl, rfl⟩⟩
  · obtain rfl := Option.some.inj h
    exact ⟨List.prefix_append _ _, List.prefix_rfl, le_rfl, id, fun _ call h => ⟨call, h, rfl, rfl⟩⟩

theorem later_next (hi : Inv maxBuffered s) : Later s s.next := by
  have hread : Later s s.acknowledgeRead := by
    have hrequested : Later s { s with handingOff := false, requested := s.delivered.length } :=
      ⟨List.prefix_rfl, List.prefix_rfl, hi.requested, id, fun _ call h => ⟨call, h, rfl, rfl⟩⟩
    unfold Stream.acknowledgeRead
    dsimp only
    split_ifs
    · exact hrequested.trans (later_settle _ _)
    · exact hrequested
  unfold Stream.next
  refine hread.trans ?_
  dsimp only
  split
  · exact ⟨List.prefix_rfl, List.prefix_append _ _, le_rfl, id, fun _ call h => ⟨call, h, rfl, rfl⟩⟩
  · split_ifs
    · exact ⟨List.prefix_rfl, List.prefix_rfl, le_rfl, id, fun _ call h => ⟨call, h, rfl, rfl⟩⟩
    · exact ⟨List.prefix_rfl, List.prefix_rfl, le_rfl, id, fun _ call h => ⟨call, h, rfl, rfl⟩⟩

theorem later_iterator (h : s.iterator = some t) : Later s t := by
  unfold Stream.iterator at h
  split_ifs at h
  obtain rfl := Option.some.inj h
  exact ⟨List.prefix_rfl, List.prefix_rfl, le_rfl, id, fun _ call h => ⟨call, h, rfl, rfl⟩⟩

/-- What `send` does to its stream. -/
theorem accepted_of_send {stream later : Stream α} {message : α}
    (h : stream.send maxBuffered message = some later) :
    later.accepted = stream.accepted ++ [message] := by
  unfold Stream.send at h
  split_ifs at h
  · exact Option.some.inj h ▸ rfl
  · exact Option.some.inj h ▸ rfl

theorem accepted_close (stream : Stream α) : stream.close.accepted = stream.accepted := by
  unfold Stream.close
  dsimp only
  split_ifs <;> rfl

theorem accepted_return (stream : Stream α) : stream.return.accepted = stream.accepted :=
  accepted_close _

theorem accepted_next (stream : Stream α) : stream.next.accepted = stream.accepted := by
  obtain ⟨flushes, hread⟩ := acknowledgeRead_eq (s := stream)
  unfold Stream.next
  rw [hread]
  dsimp only
  split
  · rfl
  · split_ifs <;> rfl

theorem accepted_of_iterator {stream later : Stream α} (h : stream.iterator = some later) :
    later.accepted = stream.accepted := by
  unfold Stream.iterator at h
  split_ifs at h
  exact Option.some.inj h ▸ rfl

end Later

/-- The consumer gets the frames accepted, each once and in their order, never more than the bound
wait for it, and none is lost unless it cancels. A flush resolves only after it has asked past every
frame accepted before, or after it cancelled, is refused only once the stream is closed, and stays
pending only while some accepted frame, also a later one, has not been asked past. -/
theorem frames_arrive_in_order_and_flushes_settle (maxBuffered : ℕ) (s : Stream α)
    (h : Reach (step maxBuffered) always outboundStream s) :
    s.delivered <+: s.accepted ∧ s.queue.length ≤ maxBuffered ∧
      (s.cancelled = false → s.accepted = s.delivered ++ s.queue ∧
        (s.ended = true → s.delivered = s.accepted)) ∧
      ∀ call ∈ s.flushes, (call.settled = some true → call.upTo ≤ s.requested ∨ call.late = true) ∧
        (call.settled = some false → s.closed = true) ∧
        (call.settled = none → s.cancelled = false ∧ s.requested < s.accepted.length) := by
  have hi := inv_of_reach h
  refine ⟨hi.order, hi.bounded, fun hcancelled => ⟨hi.whole hcancelled, fun hended => ?_⟩,
    fun call hcall => ?_⟩
  · rw [hi.whole hcancelled, (hi.ended hended).2, List.append_nil]
  · have htold := hi.told call hcall
    refine ⟨htold.done, htold.refused, fun hpending => ?_⟩
    obtain ⟨hcancelled, hbusy⟩ := htold.pending hpending
    have hwhole := congrArg List.length (hi.whole hcancelled)
    have hasked := hi.asked hcancelled
    rw [List.length_append] at hwhole
    refine ⟨hcancelled, ?_⟩
    rcases hbusy with hqueue | hhanding
    · have := List.length_pos_iff.mpr hqueue
      omega
    · rw [hhanding, Bool.toNat_true] at hasked
      omega

theorem read_frame_is_flushed : ∃ s : Stream ℕ, s.flushes = [⟨1, false, some true⟩] ∧
    s.delivered <+: s.accepted ∧
    ∀ call ∈ s.flushes, call.settled = some true → call.upTo ≤ s.requested ∨ call.late = true := by
  obtain ⟨s, hs, hflushes⟩ := reach_exec_any (s := (outboundStream : Stream ℕ))
    (P := fun s => s.flushes = [⟨1, false, some true⟩])
    (show ((exec (step 4096) outboundStream [.iterator, .next, .send 7, .flush, .next]).any fun s =>
      decide _) = true
      by decide)
  have hframes := frames_arrive_in_order_and_flushes_settle 4096 s hs
  exact ⟨s, hflushes, hframes.1, fun call hcall => (hframes.2.2.2 call hcall).1⟩

end Kronos.AxonServer.OutboundStream
