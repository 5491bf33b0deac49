import Mathlib.Algebra.Ring.Nat
import Kronos.QueryHandling.UpdateHandler

/-!
# The credit of a subscription query

The subscriber opens with a window of credit; the server spends one for each
update it sends and may send none without. The subscriber counts the updates it
has put into its buffer and grants that many again each time it has counted a
quarter of the window, whether the consumer has read them or not. Updates and
Credit frames travel for some time.

Of the events of the stream only the updates matter here. All the ways in which
it ends otherwise are `close`: a completion, an error, a payload that cannot be
deserialized, a shutdown, the application's own `close`.
-/
namespace Kronos.KronosDb.SubscriptionQuery
open Kronos.Lib.Transition Kronos.QueryHandling UpdateHandler

variable {α : Type}

/-- `bufferSize`, a positive integer where it is given. -/
structure Config where
  bufferSize : Option ℕ
  valid : ∀ size ∈ bufferSize, 0 < size

namespace Config
variable (cfg : Config)

/-- What `updateHandler` is made with. -/
def size : ℕ := cfg.bufferSize.getD 256

def requested : ℕ :=
  match cfg.bufferSize with
  | some size => if 0 < size then size else 256
  | none => 256

def window : ℕ := min 1024 (max 256 cfg.requested)

def refillBatch : ℕ := max 1 (cfg.window / 4)

end Config

structure State (α : Type) where
  handler : Handler α String
  consumedSinceRefill : ℕ
  subscriptionClosed : Bool
  /-- The subscription ended with the overflow error. -/
  overflowed : Bool
  /-- What the server may still send. -/
  credit : ℕ
  /-- The updates on their way, and the Credit frames. -/
  updates : List α
  credits : List ℕ

def initial (cfg : Config) : State α := ⟨UpdateHandler.initial, 0, false, false, cfg.window, [], []⟩

namespace State
variable (s : State α)

def closeSubscription (error : Option String) : State α :=
  if s.subscriptionClosed then s
  else
    { s with
      subscriptionClosed := true
      handler :=
        match error with
        | some error => s.handler.completeExceptionally error
        | none => s.handler.complete }

/-- The `update` case of the sink. -/
def onUpdate (cfg : Config) (update : α) : State α :=
  if s.subscriptionClosed then s
  else
    let offered := s.handler.offer cfg.size update
    if offered.2 then
      if cfg.refillBatch ≤ s.consumedSinceRefill + 1 then
        { s with
          handler := offered.1
          credits := s.credits ++ [s.consumedSinceRefill + 1]
          consumedSinceRefill := 0 }
      else { s with handler := offered.1, consumedSinceRefill := s.consumedSinceRefill + 1 }
    else
      { { s with handler := offered.1 }.closeSubscription
          (some "Subscription query update buffer overflow") with overflowed := true }

end State

inductive Action (α : Type) where
  /-- The server sends an update, which it needs a credit for. -/
  | send (update : α)
  | updateArrives
  | creditArrives
  /-- The consumer reads. -/
  | next
  | return
  | close (error : Option String)

def step (cfg : Config) (s : State α) : Action α → Option (State α)
  | .send update =>
      if 0 < s.credit then
        some { s with credit := s.credit - 1, updates := s.updates ++ [update] }
      else none
  | .updateArrives =>
      match s.updates with
      | [] => none
      | update :: rest => some ({ s with updates := rest }.onUpdate cfg update)
  | .creditArrives =>
      match s.credits with
      | [] => none
      | credits :: rest => some { s with credit := s.credit + credits, credits := rest }
  | .next => some { s with handler := s.handler.next }
  | .return =>
      let s := s.closeSubscription none
      some { s with handler := s.handler.returns }
  | .close error => some (s.closeSubscription error)

/-- The updates in the buffer that the consumer has not read. -/
def unread (s : State α) : ℕ :=
  (acceptedIn s.handler.trace).length - (yieldedIn s.handler.trace).length

/-- An update arrives only while the consumer has read all but fewer than `bufferSize`. -/
def KeepsUp (cfg : Config) (s : State α) : Action α → Prop
  | .updateArrives => s.subscriptionClosed = false → unread s < cfg.size
  | _ => True

instance (cfg : Config) (s : State α) : ∀ a, Decidable (KeepsUp cfg s a)
  | .updateArrives =>
      inferInstanceAs (Decidable (s.subscriptionClosed = false → unread s < cfg.size))
  | .send _ => .isTrue trivial
  | .creditArrives => .isTrue trivial
  | .next => .isTrue trivial
  | .return => .isTrue trivial
  | .close _ => .isTrue trivial

/-- The subscription is open, the consumer has taken every update that was sent, and
every Credit frame has arrived. -/
def CaughtUp (s : State α) : Prop :=
  s.subscriptionClosed = false ∧ s.updates = [] ∧ unread s = 0 ∧ s.credits = []

/-! ## What holds in every run -/

structure Inv (cfg : Config) (s : State α) : Prop where
  handler : ∃ reads, UpdateHandler.Inv cfg.size reads s.handler
  live : s.subscriptionClosed = false → s.handler.completed = false
  /-- Credit is with the server, with an update, counted, or on its way back. -/
  credit : s.subscriptionClosed = false →
    s.credit + s.updates.length + s.consumedSinceRefill + s.credits.sum = cfg.window
  counted : s.consumedSinceRefill < cfg.refillBatch
  overflow : s.overflowed = true → s.subscriptionClosed = true

section Steps
variable {cfg : Config} {s t : State α}

theorem refillBatch_pos (cfg : Config) : 0 < cfg.refillBatch := Nat.le_max_left _ _

theorem refillBatch_le_window (cfg : Config) : cfg.refillBatch ≤ cfg.window := by
  unfold Config.refillBatch Config.window
  omega

theorem unread_eq {reads : ℕ} (h : UpdateHandler.Inv cfg.size reads s.handler)
    (hlive : s.handler.completed = false) : unread s = s.handler.buffer.length := by
  have hqueue := h.core.queue (h.core.not_ended hlive).2.2
  rw [unread, hqueue, List.length_append, Nat.add_sub_cancel_left]

/-- An open handler refuses an update when its buffer is full, and stays open otherwise. -/
theorem offer_live {handler : Handler α String} {reads : ℕ} (size : ℕ)
    (h : UpdateHandler.Inv size reads handler) (hlive : handler.completed = false) (update : α) :
    (handler.offer size update).2 = decide (handler.buffer.length < size) ∧
      (handler.offer size update).1.completed = false := by
  unfold Handler.offer
  rw [if_neg (by simp [hlive])]
  split_ifs with hfull
  · exact ⟨(decide_eq_false (by omega)).symm, hlive⟩
  · refine ⟨(decide_eq_true (by omega)).symm, ?_⟩
    rw [(h.core.accepts hlive update).wake.completed]
    exact hlive

theorem Inv.closeSubscription (h : Inv cfg s) (error : Option String) :
    Inv cfg (s.closeSubscription error) := by
  unfold State.closeSubscription
  split_ifs with hclosed
  · exact h
  · obtain ⟨reads, hhandler⟩ := h.handler
    refine ⟨⟨reads, ?_⟩, nofun, nofun, h.counted, fun _ => rfl⟩
    cases error with
    | none => exact hhandler.complete
    | some error => exact hhandler.completeExceptionally error

theorem closeSubscription_closed (s : State α) (error : Option String) :
    (s.closeSubscription error).subscriptionClosed = true := by
  unfold State.closeSubscription
  split_ifs with hclosed
  · exact hclosed
  · rfl

theorem closeSubscription_overflowed (s : State α) (error : Option String) :
    (s.closeSubscription error).overflowed = s.overflowed := by
  unfold State.closeSubscription
  split_ifs <;> rfl

/-- The update at the front of what is on its way is received. -/
theorem Inv.onUpdate (h : Inv cfg s) {update : α} {rest : List α}
    (hupdates : s.updates = update :: rest) :
    Inv cfg ({ s with updates := rest }.onUpdate cfg update) := by
  obtain ⟨reads, hhandler⟩ := h.handler
  have hpos := refillBatch_pos cfg
  unfold State.onUpdate
  simp only
  split_ifs with hclosed haccepted hrefill
  · exact ⟨⟨reads, hhandler⟩, h.live,
      fun hopen => (Bool.false_ne_true (hopen.symm.trans hclosed)).elim,
      h.counted, h.overflow⟩
  · have hopen : s.subscriptionClosed = false := by simpa using hclosed
    have hcredit := h.credit hopen
    rw [hupdates, List.length_cons] at hcredit
    refine ⟨⟨reads, hhandler.offer update⟩,
      fun _ => (offer_live _ hhandler (h.live hopen) update).2, ?_, hpos,
      h.overflow⟩
    intro _
    simp only [List.sum_append, List.sum_singleton]
    omega
  · have hopen : s.subscriptionClosed = false := by simpa using hclosed
    have hcredit := h.credit hopen
    rw [hupdates, List.length_cons] at hcredit
    refine ⟨⟨reads, hhandler.offer update⟩,
      fun _ => (offer_live _ hhandler (h.live hopen) update).2, ?_,
      Nat.lt_of_not_le hrefill, h.overflow⟩
    intro _
    simp only
    omega
  · have hopen : s.subscriptionClosed = false := by simpa using hclosed
    unfold State.closeSubscription
    simp only [hopen, Bool.false_eq_true, if_false]
    exact ⟨⟨reads, (hhandler.offer update).completeExceptionally _⟩, nofun, nofun, h.counted,
      fun _ => rfl⟩

theorem next_completed (handler : Handler α String) :
    handler.next.completed = handler.completed := by
  unfold Handler.next
  split
  · rfl
  · split_ifs <;> rfl

theorem Inv.step {a : Action α} (h : Inv cfg s) (ht : step cfg s a = some t) : Inv cfg t := by
  obtain ⟨reads, hhandler⟩ := h.handler
  cases a with
  | send update =>
      simp only [SubscriptionQuery.step] at ht
      split_ifs at ht with hcredit
      cases ht
      refine ⟨⟨reads, hhandler⟩, h.live, ?_, h.counted, h.overflow⟩
      intro hopen
      have hsum := h.credit hopen
      simp only [List.length_append, List.length_singleton]
      omega
  | updateArrives =>
      simp only [SubscriptionQuery.step] at ht
      split at ht
      · cases ht
      · rename_i update rest hupdates
        cases ht
        exact h.onUpdate hupdates
  | creditArrives =>
      simp only [SubscriptionQuery.step] at ht
      split at ht
      · cases ht
      · rename_i credits rest hcredits
        cases ht
        refine ⟨⟨reads, hhandler⟩, h.live, ?_, h.counted, h.overflow⟩
        intro hopen
        have hsum := h.credit hopen
        rw [hcredits, List.sum_cons] at hsum
        simp only
        omega
  | next =>
      cases ht
      refine ⟨⟨reads + 1, hhandler.next⟩, ?_, h.credit, h.counted, h.overflow⟩
      intro hopen
      rw [next_completed]
      exact h.live hopen
  | «return» =>
      cases ht
      have hclosed := h.closeSubscription none
      have hnow := closeSubscription_closed s none
      obtain ⟨reads, hhandler⟩ := hclosed.handler
      exact ⟨⟨reads, hhandler.returns⟩,
        fun hopen => (Bool.false_ne_true (hopen.symm.trans hnow)).elim,
        hclosed.credit, hclosed.counted, hclosed.overflow⟩
  | close error =>
      cases ht
      exact h.closeSubscription error

theorem inv_initial (cfg : Config) : Inv cfg (initial cfg : State α) :=
  ⟨⟨0, UpdateHandler.inv_initial⟩, fun _ => rfl, fun _ => rfl, refillBatch_pos cfg, nofun⟩

theorem Inv.onUpdate_overflowed (h : Inv cfg s) (update : α) (rest : List α) :
    ({ s with updates := rest }.onUpdate cfg update).overflowed = true ↔
      s.overflowed = true ∨ ¬ KeepsUp cfg s .updateArrives := by
  obtain ⟨reads, hhandler⟩ := h.handler
  by_cases hclosed : s.subscriptionClosed = true
  · simp [State.onUpdate, KeepsUp, hclosed]
  · have hopen : s.subscriptionClosed = false := by simpa using hclosed
    have hoffer := (offer_live _ hhandler (h.live hopen) update).1
    rw [KeepsUp, unread_eq hhandler (h.live hopen)]
    by_cases hroom : s.handler.buffer.length < cfg.size
    · have hsame : ({ s with updates := rest }.onUpdate cfg update).overflowed = s.overflowed := by
        unfold State.onUpdate
        simp only [hopen, hoffer, hroom, decide_true, if_true, Bool.false_eq_true, if_false]
        split_ifs <;> rfl
      rw [hsame]
      exact ⟨.inl, fun h => h.resolve_right (not_not_intro fun _ => hroom)⟩
    · have hover : ({ s with updates := rest }.onUpdate cfg update).overflowed = true := by
        unfold State.onUpdate
        simp only [hopen, hoffer, hroom, decide_false, Bool.false_eq_true, if_false]
      rw [hover]
      exact ⟨fun _ => .inr fun hkept => hroom (hkept hopen), fun _ => rfl⟩

/-- An update overflows the buffer of an open subscription when the consumer is behind, and
nothing else does. -/
theorem Inv.overflowed_iff {a : Action α} (h : Inv cfg s)
    (ht : SubscriptionQuery.step cfg s a = some t) :
    t.overflowed = true ↔ s.overflowed = true ∨ ¬ KeepsUp cfg s a := by
  cases a with
  | send update =>
      simp only [SubscriptionQuery.step] at ht
      split_ifs at ht with hcredit
      cases ht
      simp [KeepsUp]
  | updateArrives =>
      simp only [SubscriptionQuery.step] at ht
      split at ht
      · cases ht
      · rename_i update rest hupdates
        cases ht
        exact h.onUpdate_overflowed update rest
  | creditArrives =>
      simp only [SubscriptionQuery.step] at ht
      split at ht
      · cases ht
      · cases ht
        simp [KeepsUp]
  | next =>
      cases ht
      simp [KeepsUp]
  | «return» =>
      cases ht
      simp [KeepsUp, closeSubscription_overflowed]
  | close error =>
      cases ht
      simp [KeepsUp, closeSubscription_overflowed]

end Steps

/-- A subscription query overflows exactly at the first update that finds `bufferSize` unread ones;
and whenever all updates are read and all Credit frames have arrived, the server has credit. -/
theorem overflows_exactly_behind (cfg : Config) :
    (∀ s : State α, Reach (step cfg) (KeepsUp cfg) (initial cfg) s → s.overflowed = false) ∧
      (∀ (s t : State α) a, Reach (step cfg) always (initial cfg) s → step cfg s a = some t →
        ¬ KeepsUp cfg s a → t.overflowed = true) ∧
      (∀ s : State α, Reach (step cfg) always (initial cfg) s → CaughtUp s → 1 ≤ s.credit) := by
  have hinv : ∀ {s : State α}, Reach (step cfg) always (initial cfg) s → Inv cfg s := fun hs =>
    hs.invariant (inv_initial cfg) fun _ _ _ _ hs _ ht => hs.step ht
  refine ⟨?_, ?_, ?_⟩
  · intro s hs
    have hboth : Inv cfg s ∧ s.overflowed = false := by
      refine hs.invariant (I := fun s => Inv cfg s ∧ s.overflowed = false) ⟨inv_initial cfg, rfl⟩ ?_
      rintro s a t - ⟨hs, hkept⟩ hkeeps ht
      refine ⟨hs.step ht, Bool.eq_false_iff.mpr fun hover => ?_⟩
      rcases (hs.overflowed_iff ht).mp hover with hbefore | hbehind
      · exact Bool.false_ne_true (hkept.symm.trans hbefore)
      · exact hbehind hkeeps
    exact hboth.2
  · intro s t a hs ht hbehind
    exact ((hinv hs).overflowed_iff ht).mpr (.inr hbehind)
  · rintro s hs ⟨hopen, hupdates, -, hcredits⟩
    have hsum := (hinv hs).credit hopen
    rw [hupdates, hcredits, List.length_nil, List.sum_nil] at hsum
    have hcounted := (hinv hs).counted
    have hbatch := refillBatch_le_window cfg
    omega

/-- A buffer of one update; the server may send 256. -/
def single : Config := ⟨some 1, fun _ h => Option.some.inj h ▸ Nat.one_pos⟩

/-- A consumer that reads every update before the next one comes. -/
theorem overflows_exactly_behind_read : ∃ s : State ℕ,
    Reach (step single) (KeepsUp single) (initial single) s ∧
      yieldedIn s.handler.trace = [1, 2] ∧ s.overflowed = false ∧ 1 ≤ s.credit := by
  obtain ⟨s, hs, hread, hcaught⟩ := reach_guarded_any
    (P := fun s : State ℕ => yieldedIn s.handler.trace = [1, 2] ∧
      (s.subscriptionClosed = false ∧ s.updates = [] ∧ unread s = 0 ∧ s.credits = []))
    (show ((exec (guarded (step single) (KeepsUp single)) (initial single)
      [.send 1, .updateArrives, .next, .send 2, .updateArrives, .next]).any
        fun s => decide _) = true by decide)
  obtain ⟨hnever, -, hcredit⟩ := overflows_exactly_behind (α := ℕ) single
  exact ⟨s, hs, hread, hnever s hs, hcredit s (hs.weaken fun _ _ _ => trivial) hcaught⟩

/-- The second update finds the first unread. -/
theorem overflows_within_credit :
    ∃ s : State Unit, Reach (step single) always (initial single) s ∧ s.overflowed = true := by
  exact reach_exec_any
    (show ((exec (step single) (initial single)
      [.send (), .updateArrives, .send (), .updateArrives]).any
        fun s : State Unit => decide (s.overflowed = true)) = true by decide)

end Kronos.KronosDb.SubscriptionQuery
