import Mathlib.Data.List.Infix
import Kronos.Lib.Trace
import Kronos.Lib.Transition

/-!
# The update buffer of a subscription query

What `updateHandler` gives the producer of updates and their consumer: a bounded
buffer, one read that may wait, and three ways to end it. A call runs to its end
before the next one. Beside the handler all that happens is recorded in its order:
the offers accepted, how the reads settle, the calls of `onClose`.

More than one iterator shares the one waiting read; a second read meanwhile is
refused.
-/
namespace Kronos.QueryHandling.UpdateHandler
open Kronos.Lib.Transition Kronos.Lib.Trace

variable {α ε : Type}

/-- What ended the handler. -/
inductive How (ε : Type) where
  | complete
  | completeExceptionally (error : ε)
  | return
  deriving DecidableEq, Repr

inductive Event (α ε : Type) where
  | accepted (update : α)
  /-- A read settles: with a value, the end, the error, or refused. -/
  | yielded (update : α)
  | done
  | rejected (error : ε)
  | concurrent
  | completed (how : How ε)
  | onClose
  /-- The consumer called `return`. -/
  | returned
  deriving DecidableEq, Repr

structure Handler (α ε : Type) where
  buffer : List α
  completed : Bool
  error : Option ε
  waiting : Bool
  trace : List (Event α ε)
  deriving DecidableEq, Repr

namespace Handler
variable (s : Handler α ε)

def record (event : Event α ε) : Handler α ε := { s with trace := s.trace ++ [event] }

/-- The end as a read sees it: `if (error) reject(error)`. -/
def ending : Event α ε :=
  match s.error with
  | some error => .rejected error
  | none => .done

def wake : Handler α ε :=
  if s.waiting then
    match s.buffer with
    | update :: rest => { s with waiting := false, buffer := rest }.record (.yielded update)
    | [] => if s.completed then { s with waiting := false }.record s.ending else s
  else s

def offer (bufferSize : ℕ) (update : α) : Handler α ε × Bool :=
  if s.completed then (s, false)
  else if bufferSize ≤ s.buffer.length then (s, false)
  else (({ s with buffer := s.buffer ++ [update] }.record (.accepted update)).wake, true)

def complete : Handler α ε :=
  if s.completed then s
  else ({ s with completed := true }.record (.completed .complete)).wake.record .onClose

def completeExceptionally (error : ε) : Handler α ε :=
  if s.completed then s
  else
    ({ s with error := some error, completed := true }.record
      (.completed (.completeExceptionally error))).wake.record .onClose

def next : Handler α ε :=
  match s.buffer with
  | update :: rest => { s with buffer := rest }.record (.yielded update)
  | [] =>
      if s.completed then s.record s.ending
      else if s.waiting then s.record .concurrent
      else { s with waiting := true }

def returns : Handler α ε :=
  if s.completed then ({ s with buffer := [] }.record .returned).wake
  else
    ((({ s with completed := true, buffer := [] }.record (.completed .return)).record
      .returned).wake).record .onClose

end Handler

inductive Call (α ε : Type) where
  | offer (update : α)
  | complete
  | completeExceptionally (error : ε)
  | next
  | return
  deriving DecidableEq, Repr

def initial : Handler α ε := ⟨[], false, none, false, []⟩

def step (bufferSize : ℕ) (s : Handler α ε) : Call α ε → Option (Handler α ε)
  | .offer update => some (s.offer bufferSize update).1
  | .complete => some s.complete
  | .completeExceptionally error => some (s.completeExceptionally error)
  | .next => some s.next
  | .return => some s.returns

/-! ## What is recorded -/

def acceptedIn (trace : List (Event α ε)) : List α :=
  trace.filterMap fun event =>
    match event with
    | .accepted update => some update
    | _ => none

def yieldedIn (trace : List (Event α ε)) : List α :=
  trace.filterMap fun event =>
    match event with
    | .yielded update => some update
    | _ => none

/-- How often a read has settled. -/
def Event.settles : Event α ε → Bool
  | .yielded _ => true
  | .done => true
  | .rejected _ => true
  | .concurrent => true
  | _ => false

/-- What ended the handler first. -/
def endedBy (trace : List (Event α ε)) : Option (How ε) :=
  trace.findSome? fun event =>
    match event with
    | .completed how => some how
    | _ => none

/-- What may happen after what has happened before. -/
def Right (before : List (Event α ε)) : Event α ε → Prop
  | .accepted _ => endedBy before = none
  | .yielded update => ∃ rest, acceptedIn before = yieldedIn before ++ update :: rest
  | .done => (∃ how, endedBy before = some how ∧ ∀ error, how ≠ .completeExceptionally error) ∧
      (.returned ∉ before → acceptedIn before = yieldedIn before)
  | .rejected error => endedBy before = some (.completeExceptionally error) ∧
      (.returned ∉ before → acceptedIn before = yieldedIn before)
  | .completed _ => endedBy before = none
  | .onClose => .onClose ∉ before ∧ (endedBy before).isSome = true
  | _ => True

def Event.closes : Event α ε → Bool
  | .onClose => true
  | _ => false

/-- What the buffer promises, after `reads` reads were asked for. -/
structure Faithful (bufferSize reads : ℕ) (s : Handler α ε) : Prop where
  /-- Until `return`, the values yielded are the accepted ones in order, and the rest waits. -/
  queue : .returned ∉ s.trace → acceptedIn s.trace = yieldedIn s.trace ++ s.buffer
  bounded : s.buffer.length ≤ bufferSize
  /-- Every end, error and value came in its turn, and nothing was accepted after the end. -/
  right : Each Right s.trace
  /-- No read waits for what is there. -/
  awake : s.waiting = true → s.buffer = [] ∧ s.completed = false
  settled : s.trace.countP Event.settles + s.waiting.toNat = reads
  ended : s.completed = (endedBy s.trace).isSome
  closed : s.trace.countP Event.closes = s.completed.toNat

section Trace
variable {trace : List (Event α ε)} {event : Event α ε}

@[simp] theorem acceptedIn_concat :
    acceptedIn (trace ++ [event]) = acceptedIn trace ++ acceptedIn [event] :=
  List.filterMap_append

@[simp] theorem yieldedIn_concat :
    yieldedIn (trace ++ [event]) = yieldedIn trace ++ yieldedIn [event] :=
  List.filterMap_append

@[simp] theorem endedBy_concat :
    endedBy (trace ++ [event]) = (endedBy trace).or (endedBy [event]) :=
  List.findSome?_append

end Trace

/-- What holds in the middle of a call too. -/
structure Core (s : Handler α ε) : Prop where
  queue : .returned ∉ s.trace → acceptedIn s.trace = yieldedIn s.trace ++ s.buffer
  cleared : .returned ∈ s.trace → s.buffer = [] ∧ s.completed = true
  ended : s.completed = (endedBy s.trace).isSome
  error : ∀ e, s.error = some e ↔ endedBy s.trace = some (.completeExceptionally e)
  right : Each Right s.trace

section Calls
variable {bufferSize reads : ℕ} {s : Handler α ε}

theorem Core.setWaiting (h : Core s) (waiting : Bool) : Core { s with waiting := waiting } :=
  ⟨h.queue, h.cleared, h.ended, h.error, h.right⟩

/-- An event that is neither a value nor an end. -/
def Event.quiet : Event α ε → Bool
  | .accepted _ => false
  | .yielded _ => false
  | .completed _ => false
  | .returned => false
  | _ => true

theorem Event.quiet_alone {event : Event α ε} (h : event.quiet = true) :
    acceptedIn [event] = [] ∧ yieldedIn [event] = [] ∧ endedBy [event] = none := by
  cases event with
  | accepted update => cases h
  | yielded update => cases h
  | completed how => cases h
  | returned => cases h
  | done => exact ⟨rfl, rfl, rfl⟩
  | rejected error => exact ⟨rfl, rfl, rfl⟩
  | concurrent => exact ⟨rfl, rfl, rfl⟩
  | onClose => exact ⟨rfl, rfl, rfl⟩

theorem Core.record (h : Core s) {event : Event α ε} (hquiet : event.quiet = true)
    (hright : Right s.trace event) : Core (s.record event) := by
  obtain ⟨hnone, hnone', hnone''⟩ := Event.quiet_alone hquiet
  have haccepted : acceptedIn (s.record event).trace = acceptedIn s.trace := by
    rw [Handler.record, acceptedIn_concat, hnone, List.append_nil]
  have hyielded : yieldedIn (s.record event).trace = yieldedIn s.trace := by
    rw [Handler.record, yieldedIn_concat, hnone', List.append_nil]
  have hended : endedBy (s.record event).trace = endedBy s.trace := by
    rw [Handler.record, endedBy_concat, hnone'', Option.or_none]
  have hreturned : .returned ∈ (s.record event).trace ↔ .returned ∈ s.trace := by
    rw [Handler.record, List.mem_append, List.mem_singleton]
    refine or_iff_left ?_
    rintro rfl
    cases hquiet
  refine ⟨?_, ?_, ?_, ?_, each_concat h.right hright⟩
  · rw [hreturned, haccepted, hyielded]
    exact h.queue
  · rw [hreturned]
    exact h.cleared
  · rw [hended]
    exact h.ended
  · rw [hended]
    exact h.error

/-- The next value is yielded. -/
theorem Core.yields (h : Core s) {update : α} {rest : List α} (hbuffer : s.buffer = update :: rest)
    (waiting : Bool) :
    Core ({ s with waiting := waiting, buffer := rest }.record (.yielded update)) := by
  have hunreturned : Event.returned ∉ s.trace := by
    intro hreturned
    rw [(h.cleared hreturned).1] at hbuffer
    cases hbuffer
  have hqueue := h.queue hunreturned
  rw [hbuffer] at hqueue
  refine ⟨?_, ?_, ?_, ?_, ?_⟩
  · intro _
    change acceptedIn (s.trace ++ [.yielded update]) =
      yieldedIn (s.trace ++ [.yielded update]) ++ rest
    rw [acceptedIn_concat, yieldedIn_concat, hqueue]
    simp [acceptedIn, yieldedIn]
  · intro hreturned
    simp [Handler.record, hunreturned] at hreturned
  · change s.completed = (endedBy (s.trace ++ [.yielded update])).isSome
    rw [endedBy_concat, h.ended]
    exact congrArg Option.isSome Option.or_none.symm
  · change ∀ e, s.error = some e ↔ endedBy (s.trace ++ [.yielded update]) = _
    rw [endedBy_concat]
    exact fun e =>
      (h.error e).trans
      (by rw [show endedBy [Event.yielded update] = none from rfl, Option.or_none])
  · exact each_concat h.right ⟨rest, hqueue⟩

theorem ending_quiet : s.ending.quiet = true := by
  unfold Handler.ending
  split <;> rfl

/-- A read sees the end when nothing is left. -/
theorem Core.ending_right (h : Core s) (hbuffer : s.buffer = []) (hcompleted : s.completed = true) :
    Right s.trace s.ending := by
  have hall : Event.returned ∉ s.trace → acceptedIn s.trace = yieldedIn s.trace := by
    intro hreturned
    rw [h.queue hreturned, hbuffer, List.append_nil]
  have hended := h.ended
  rw [hcompleted] at hended
  obtain ⟨how, hhow⟩ := Option.isSome_iff_exists.mp hended.symm
  unfold Handler.ending
  cases herror : s.error with
  | none =>
      refine ⟨⟨how, hhow, ?_⟩, hall⟩
      rintro e rfl
      rw [(h.error e).mpr hhow] at herror
      cases herror
  | some e => exact ⟨(h.error e).mp herror, hall⟩

/-- After `wake` no read waits for what is there. -/
structure Woken (s t : Handler α ε) : Prop where
  core : Core t
  awake : t.waiting = true → t.buffer = [] ∧ t.completed = false
  completed : t.completed = s.completed
  shorter : t.buffer.length ≤ s.buffer.length
  settled :
    t.trace.countP Event.settles + t.waiting.toNat = s.trace.countP Event.settles + s.waiting.toNat
  closed : t.trace.countP Event.closes = s.trace.countP Event.closes
  ended : endedBy t.trace = endedBy s.trace

theorem Core.wake (h : Core s) : Woken s s.wake := by
  unfold Handler.wake
  by_cases hwaiting : s.waiting = true
  · rw [if_pos hwaiting]
    split
    · rename_i update rest hbuffer
      refine ⟨h.yields hbuffer false, nofun, rfl, ?_, ?_, ?_, ?_⟩
      · rw [hbuffer]
        exact Nat.le_succ _
      · simp [Handler.record, Event.settles, hwaiting]
      · simp [Handler.record, Event.closes]
      · exact endedBy_concat.trans Option.or_none
    · rename_i hbuffer
      split_ifs with hcompleted
      · have hquiet := ending_quiet (s := s)
        refine ⟨(h.setWaiting false).record hquiet (h.ending_right hbuffer hcompleted), nofun,
          rfl, le_rfl,
          ?_, ?_, ?_⟩
        · unfold Handler.ending
          split <;> simp [Handler.record, Event.settles, hwaiting]
        · unfold Handler.ending
          split <;> simp [Handler.record, Event.closes]
        · unfold Handler.ending
          split <;> exact endedBy_concat.trans Option.or_none
      · exact ⟨h, fun _ => ⟨hbuffer, by simpa using hcompleted⟩, rfl, le_rfl, rfl, rfl, rfl⟩
  · rw [if_neg hwaiting]
    exact ⟨h, fun hw => absurd hw hwaiting, rfl, le_rfl, rfl, rfl, rfl⟩

theorem Core.not_ended (h : Core s) (hopen : s.completed = false) :
    endedBy s.trace = none ∧ s.error = none ∧ Event.returned ∉ s.trace := by
  have hended : endedBy s.trace = none := by
    have hnone := h.ended
    rw [hopen] at hnone
    exact Option.not_isSome_iff_eq_none.mp (by rw [← hnone]; exact Bool.false_ne_true)
  refine ⟨hended, ?_, ?_⟩
  · rw [Option.eq_none_iff_forall_not_mem]
    intro e he
    rw [(h.error e).mp he] at hended
    cases hended
  · intro hreturned
    rw [(h.cleared hreturned).2] at hopen
    cases hopen

/-- An update goes into the buffer. -/
theorem Core.accepts (h : Core s) (hopen : s.completed = false) (update : α) :
    Core ({ s with buffer := s.buffer ++ [update] }.record (.accepted update)) := by
  obtain ⟨hended, herror, hunreturned⟩ := h.not_ended hopen
  have hended' : endedBy (s.trace ++ [.accepted update]) = none := by
    rw [endedBy_concat, hended]
    rfl
  refine ⟨?_, ?_, ?_, ?_, each_concat h.right hended⟩
  · intro _
    change acceptedIn (s.trace ++ [.accepted update]) =
      yieldedIn (s.trace ++ [.accepted update]) ++ (s.buffer ++ [update])
    rw [acceptedIn_concat, yieldedIn_concat, h.queue hunreturned]
    simp [acceptedIn, yieldedIn]
  · intro hreturned
    simp [Handler.record, hunreturned] at hreturned
  · change s.completed = (endedBy (s.trace ++ [.accepted update])).isSome
    rw [hended', hopen]
    rfl
  · intro e
    change s.error = some e ↔ endedBy (s.trace ++ [.accepted update]) = _
    rw [herror, hended']
    exact ⟨nofun, nofun⟩

/-- What a read after the end is rejected with. -/
def How.error : How ε → Option ε
  | .completeExceptionally e => some e
  | _ => none

theorem Core.completes (h : Core s) (hopen : s.completed = false) (how : How ε) :
    Core ({ s with error := how.error, completed := true }.record (.completed how)) := by
  obtain ⟨hended, -, hunreturned⟩ := h.not_ended hopen
  have hended' : endedBy (s.trace ++ [.completed how]) = some how := by
    rw [endedBy_concat, hended]
    rfl
  refine ⟨?_, ?_, ?_, ?_, each_concat h.right hended⟩
  · intro _
    change acceptedIn (s.trace ++ [.completed how]) =
      yieldedIn (s.trace ++ [.completed how]) ++ s.buffer
    rw [acceptedIn_concat, yieldedIn_concat, h.queue hunreturned]
    simp [acceptedIn, yieldedIn]
  · intro hreturned
    simp [Handler.record, hunreturned] at hreturned
  · change true = (endedBy (s.trace ++ [.completed how])).isSome
    rw [hended']
    rfl
  · intro e
    change how.error = some e ↔ endedBy (s.trace ++ [.completed how]) = _
    rw [hended']
    cases how with
    | completeExceptionally e' => simp [How.error]
    | complete => exact ⟨nofun, nofun⟩
    | «return» => exact ⟨nofun, nofun⟩

/-- What is left is dropped. -/
theorem Core.clears (h : Core s) (hcompleted : s.completed = true) :
    Core ({ s with buffer := [] }.record .returned) := by
  have hended : endedBy (s.trace ++ [.returned]) = endedBy s.trace :=
    endedBy_concat.trans Option.or_none
  refine ⟨?_, fun _ => ⟨rfl, hcompleted⟩, ?_, ?_, each_concat h.right trivial⟩
  · intro hreturned
    exact absurd (List.mem_append_right _ (List.mem_singleton_self _)) hreturned
  · change s.completed = (endedBy (s.trace ++ [.returned])).isSome
    rw [hended]
    exact h.ended
  · change ∀ e, s.error = some e ↔ endedBy (s.trace ++ [.returned]) = _
    rw [hended]
    exact h.error

/-- What holds between two calls. -/
structure Inv (bufferSize reads : ℕ) (s : Handler α ε) : Prop where
  core : Core s
  bounded : s.buffer.length ≤ bufferSize
  awake : s.waiting = true → s.buffer = [] ∧ s.completed = false
  settled : s.trace.countP Event.settles + s.waiting.toNat = reads
  closed : s.trace.countP Event.closes = s.completed.toNat

theorem Inv.faithful (h : Inv bufferSize reads s) : Faithful bufferSize reads s :=
  ⟨h.core.queue, h.bounded, h.core.right, h.awake, h.settled, h.core.ended, h.closed⟩

theorem Inv.offer (h : Inv bufferSize reads s) (update : α) :
    Inv bufferSize reads (s.offer bufferSize update).1 := by
  unfold Handler.offer
  split_ifs with hcompleted hfull
  · exact h
  · exact h
  · have hopen : s.completed = false := by simpa using hcompleted
    obtain ⟨hcore, hawake, hsame, hshorter, hsettled, hclosed, -⟩ :=
      (h.core.accepts hopen update).wake
    refine ⟨hcore, ?_, hawake, ?_, ?_⟩
    · refine hshorter.trans ?_
      simp only [Handler.record, List.length_append, List.length_singleton]
      omega
    · rw [hsettled]
      simpa [Handler.record, Event.settles] using h.settled
    · rw [hclosed, hsame]
      simpa [Handler.record, Event.closes] using h.closed

/-- The handler ends, a read that waits is settled, and `onClose` is called. -/
theorem Inv.closes {t : Handler α ε} (hcore : Core t) (hbounded : t.buffer.length ≤ bufferSize)
    (hcompleted : t.completed = true)
    (hsettled : t.trace.countP Event.settles + t.waiting.toNat = reads)
    (hunclosed : t.trace.countP Event.closes = 0) :
    Inv bufferSize reads (t.wake.record .onClose) := by
  obtain ⟨hwoken, hawake, hsame, hshorter, hsettled', hclosed, hended⟩ := hcore.wake
  rw [hunclosed] at hclosed
  have hnone : Event.onClose ∉ t.wake.trace := by
    intro hmem
    exact absurd rfl (List.countP_eq_zero.mp hclosed _ hmem)
  have hsome : (endedBy t.wake.trace).isSome = true := by
    rw [hended, ← hcore.ended, hcompleted]
  refine ⟨hwoken.record rfl ⟨hnone, hsome⟩, hshorter.trans hbounded, hawake, ?_, ?_⟩
  · rw [← hsettled, ← hsettled']
    simp [Handler.record, Event.settles]
  · simp [Handler.record, Event.closes, hclosed, hsame, hcompleted]

theorem Inv.complete (h : Inv bufferSize reads s) : Inv bufferSize reads s.complete := by
  unfold Handler.complete
  split_ifs with hcompleted
  · exact h
  · have hopen : s.completed = false := by simpa using hcompleted
    have hcore := h.core.completes hopen .complete
    rw [show (.complete : How ε).error = s.error from (h.core.not_ended hopen).2.1.symm] at hcore
    refine Inv.closes hcore h.bounded rfl ?_ ?_
    · simpa [Handler.record, Event.settles] using h.settled
    · simpa [Handler.record, Event.closes, hopen] using h.closed

theorem Inv.completeExceptionally (h : Inv bufferSize reads s) (error : ε) :
    Inv bufferSize reads (s.completeExceptionally error) := by
  unfold Handler.completeExceptionally
  split_ifs with hcompleted
  · exact h
  · have hopen : s.completed = false := by simpa using hcompleted
    refine Inv.closes (h.core.completes hopen (.completeExceptionally error)) h.bounded rfl ?_ ?_
    · simpa [Handler.record, Event.settles] using h.settled
    · simpa [Handler.record, Event.closes, hopen] using h.closed

theorem Inv.next (h : Inv bufferSize reads s) : Inv bufferSize (reads + 1) s.next := by
  unfold Handler.next
  split
  · rename_i update rest hbuffer
    have hidle : s.waiting = false := by
      cases hwaiting : s.waiting with
      | false => rfl
      | true =>
          rw [(h.awake hwaiting).1] at hbuffer
          cases hbuffer
    have hbounded := h.bounded
    rw [hbuffer, List.length_cons] at hbounded
    refine ⟨h.core.yields hbuffer s.waiting, by simp only [Handler.record]; omega, ?_, ?_, ?_⟩
    · intro hwaiting
      rw [Handler.record, hidle] at hwaiting
      cases hwaiting
    · rw [← h.settled]
      simp [Handler.record, Event.settles, hidle]
    · simpa [Handler.record, Event.closes] using h.closed
  · rename_i hbuffer
    split_ifs with hcompleted hwaiting
    · refine ⟨h.core.record ending_quiet (h.core.ending_right hbuffer hcompleted), h.bounded,
        h.awake, ?_, ?_⟩
      · rw [← h.settled]
        unfold Handler.ending
        split <;> simp [Handler.record, Event.settles] <;> omega
      · rw [Handler.record, List.countP_append, h.closed]
        unfold Handler.ending
        split <;> rfl
    · refine ⟨h.core.record rfl trivial, h.bounded, h.awake, ?_, ?_⟩
      · rw [← h.settled]
        simp [Handler.record, Event.settles]
        omega
      · simpa [Handler.record, Event.closes] using h.closed
    · refine ⟨h.core.setWaiting true, h.bounded, fun _ => ⟨hbuffer, by simpa using hcompleted⟩,
        ?_, h.closed⟩
      rw [← h.settled]
      simp [hwaiting]

theorem Inv.returns (h : Inv bufferSize reads s) : Inv bufferSize reads s.returns := by
  unfold Handler.returns
  split_ifs with hcompleted
  · obtain ⟨hcore, hawake, hsame, hshorter, hsettled, hclosed, -⟩ := (h.core.clears hcompleted).wake
    refine ⟨hcore, hshorter.trans (Nat.zero_le _), hawake, ?_, ?_⟩
    · rw [hsettled]
      simpa [Handler.record, Event.settles] using h.settled
    · rw [hclosed, hsame]
      simpa [Handler.record, Event.closes] using h.closed
  · have hopen : s.completed = false := by simpa using hcompleted
    have hcore := h.core.completes hopen .return
    rw [show (.return : How ε).error = s.error from (h.core.not_ended hopen).2.1.symm] at hcore
    refine Inv.closes (hcore.clears rfl) (Nat.zero_le _) rfl ?_ ?_
    · simpa [Handler.record, Event.settles] using h.settled
    · simpa [Handler.record, Event.closes, hopen] using h.closed

end Calls

/-! ## What a call adds -/

section Added
variable {h t : Handler α ε}

/-- A call that neither accepts an update nor ends the handler. -/
structure Kept (h t : Handler α ε) : Prop where
  completed : t.completed = h.completed
  trace : h.trace <+: t.trace
  accepted : acceptedIn t.trace = acceptedIn h.trace
  ended : endedBy t.trace = endedBy h.trace

theorem Kept.refl (h : Handler α ε) : Kept h h := ⟨rfl, List.prefix_rfl, rfl, rfl⟩

theorem Kept.trans {u : Handler α ε} (hk : Kept h t) (hk' : Kept t u) : Kept h u :=
  ⟨hk'.completed.trans hk.completed, hk.trace.trans hk'.trace, hk'.accepted.trans hk.accepted,
    hk'.ended.trans hk.ended⟩

/-- Fields that leave no trace. -/
theorem Kept.of_trace (hk : Kept h t) {h' t' : Handler α ε} (hh : h'.trace = h.trace)
    (ht : t'.trace = t.trace) (hcompleted : t'.completed = h'.completed) : Kept h' t' := by
  refine ⟨hcompleted, ?_, ?_, ?_⟩
  · rw [hh, ht]
    exact hk.trace
  · rw [hh, ht]
    exact hk.accepted
  · rw [hh, ht]
    exact hk.ended

theorem kept_record (event : Event α ε) (haccepted : acceptedIn [event] = [])
    (hended : endedBy [event] = none) : Kept h (h.record event) := by
  refine ⟨rfl, List.prefix_append _ _, ?_, ?_⟩
  · rw [Handler.record, acceptedIn_concat, haccepted, List.append_nil]
  · rw [Handler.record, endedBy_concat, hended, Option.or_none]

theorem kept_ending : Kept h (h.record h.ending) := by
  unfold Handler.ending
  split
  · exact kept_record _ rfl rfl
  · exact kept_record _ rfl rfl

theorem kept_wake : Kept h h.wake := by
  unfold Handler.wake
  by_cases hwaiting : h.waiting = true
  · rw [if_pos hwaiting]
    split
    · rename_i update rest _
      exact (kept_record (h := h) (.yielded update) rfl rfl).of_trace rfl rfl rfl
    · split_ifs
      · exact (kept_ending (h := h)).of_trace rfl rfl rfl
      · exact .refl h
  · rw [if_neg hwaiting]
    exact .refl h

theorem kept_next : Kept h h.next := by
  unfold Handler.next
  split
  · rename_i update rest _
    exact (kept_record (h := h) (.yielded update) rfl rfl).of_trace rfl rfl rfl
  · split_ifs
    · exact kept_ending
    · exact kept_record _ rfl rfl
    · exact (Kept.refl h).of_trace rfl rfl rfl

/-- An update is accepted, or the handler is as it was and is over or full. -/
theorem offer_cases (h : Handler α ε) (bufferSize : ℕ) (update : α) :
    (h.completed = false ∧ h.buffer.length < bufferSize ∧
      (h.offer bufferSize update).2 = true ∧ (h.offer bufferSize update).1.completed = h.completed ∧
      acceptedIn (h.offer bufferSize update).1.trace = acceptedIn h.trace ++ [update] ∧
      endedBy (h.offer bufferSize update).1.trace = endedBy h.trace) ∨
    (h.completed = true ∨ bufferSize ≤ h.buffer.length) ∧
      h.offer bufferSize update = (h, false) := by
  unfold Handler.offer
  split_ifs with hcompleted hfull
  · exact .inr ⟨.inl hcompleted, rfl⟩
  · exact .inr ⟨.inr hfull, rfl⟩
  · refine .inl ⟨Bool.eq_false_iff.mpr hcompleted, Nat.lt_of_not_le hfull, rfl, kept_wake.completed,
      ?_, ?_⟩
    · rw [kept_wake.accepted, Handler.record, acceptedIn_concat]
      rfl
    · rw [kept_wake.ended, Handler.record, endedBy_concat]
      exact Option.or_none

/-- A call that leaves the handler ended, by `how` if it was not before. -/
structure Ends (how : How ε) (h t : Handler α ε) : Prop where
  completed : t.completed = true
  trace : h.trace <+: t.trace
  accepted : acceptedIn t.trace = acceptedIn h.trace
  ended : endedBy t.trace = (endedBy h.trace).or (if h.completed then none else some how)

theorem Ends.of_completed {how : How ε} (hcompleted : h.completed = true) : Ends how h h := by
  refine ⟨hcompleted, List.prefix_rfl, rfl, ?_⟩
  rw [if_pos hcompleted, Option.or_none]

/-- `u` is the handler with fields set that leave no trace. -/
theorem ends_record {how : How ε} {u : Handler α ε} (hopen : h.completed = false)
    (htrace : u.trace = h.trace) (hcompleted : u.completed = true) :
    Ends how h (u.record (.completed how)) := by
  refine ⟨hcompleted, ?_, ?_, ?_⟩
  · rw [Handler.record, htrace]
    exact List.prefix_append _ _
  · rw [Handler.record, acceptedIn_concat, htrace]
    exact List.append_nil _
  · rw [Handler.record, endedBy_concat, htrace, hopen]
    rfl

theorem Ends.kept {how : How ε} {u : Handler α ε} (he : Ends how h t) (hk : Kept t u) :
    Ends how h u :=
  ⟨hk.completed.trans he.completed, he.trace.trans hk.trace, hk.accepted.trans he.accepted,
    hk.ended.trans he.ended⟩

/-- What has ended the handler after the call had before, or is the call. -/
theorem Ends.cases {how how' : How ε} (he : Ends how h t) (hended : endedBy t.trace = some how') :
    endedBy h.trace = some how' ∨ how' = how := by
  rw [he.ended] at hended
  rcases Option.or_eq_some_iff.mp hended with hbefore | ⟨-, hnow⟩
  · exact .inl hbefore
  · split_ifs at hnow
    exact .inr (Option.some.inj hnow).symm

/-- The first to end a handler is the one that ended it. -/
theorem Ends.first {how : How ε} (he : Ends how h t) (hcore : Core h) :
    endedBy t.trace = (endedBy h.trace).or (some how) := by
  rw [he.ended]
  split_ifs with hcompleted
  · rw [hcore.ended] at hcompleted
    obtain ⟨first, hfirst⟩ := Option.isSome_iff_exists.mp hcompleted
    rw [hfirst]
    rfl
  · rfl

theorem ends_complete : Ends .complete h h.complete := by
  unfold Handler.complete
  split_ifs with hcompleted
  · exact .of_completed hcompleted
  · have hrecord : Ends .complete h ({ h with completed := true }.record (.completed .complete)) :=
      ends_record (Bool.eq_false_iff.mpr hcompleted) rfl rfl
    exact (hrecord.kept kept_wake).kept (kept_record _ rfl rfl)

theorem ends_completeExceptionally (error : ε) :
    Ends (.completeExceptionally error) h (h.completeExceptionally error) := by
  unfold Handler.completeExceptionally
  split_ifs with hcompleted
  · exact .of_completed hcompleted
  · have hrecord : Ends (.completeExceptionally error) h
        ({ h with error := some error, completed := true }.record
          (.completed (.completeExceptionally error))) :=
      ends_record (Bool.eq_false_iff.mpr hcompleted) rfl rfl
    exact (hrecord.kept kept_wake).kept (kept_record _ rfl rfl)

theorem ends_returns : Ends .return h h.returns := by
  unfold Handler.returns
  split_ifs with hcompleted
  · have hreturned : Kept h ({ h with buffer := [] }.record .returned) :=
      (kept_record (h := h) .returned rfl rfl).of_trace rfl rfl rfl
    exact (Ends.of_completed hcompleted).kept (hreturned.trans kept_wake)
  · have hrecord : Ends .return h
        ({ h with completed := true, buffer := [] }.record (.completed .return)) :=
      ends_record (Bool.eq_false_iff.mpr hcompleted) rfl rfl
    exact ((hrecord.kept (kept_record _ rfl rfl)).kept kept_wake).kept (kept_record _ rfl rfl)

/-- The end is recorded before a read that waits learns of it. -/
theorem completeExceptionally_trace (hopen : h.completed = false) (error : ε) :
    h.trace ++ [.completed (.completeExceptionally error)] <+:
      (h.completeExceptionally error).trace := by
  unfold Handler.completeExceptionally
  rw [if_neg (Bool.eq_false_iff.mp hopen)]
  have hwake := kept_wake (h := { h with error := some error, completed := true }.record
    (.completed (.completeExceptionally error)))
  exact hwake.trace.trans (List.prefix_append _ _)

theorem returned_record {event : Event α ε} :
    Event.returned ∈ (h.record event).trace ↔ Event.returned ∈ h.trace ∨ .returned = event := by
  rw [Handler.record, List.mem_append, List.mem_singleton]

theorem returned_ending : Event.returned ∈ (h.record h.ending).trace ↔
    Event.returned ∈ h.trace := by
  rw [returned_record]
  unfold Handler.ending
  split <;> simp

theorem returned_wake : Event.returned ∈ h.wake.trace ↔ Event.returned ∈ h.trace := by
  unfold Handler.wake
  by_cases hwaiting : h.waiting = true
  · rw [if_pos hwaiting]
    split
    · simp [returned_record]
    · split_ifs
      · exact returned_ending (h := h)
      · rfl
  · rw [if_neg hwaiting]

end Added

/-- What a call ends the handler by. -/
def Call.ends : Call α ε → Option (How ε)
  | .complete => some .complete
  | .completeExceptionally error => some (.completeExceptionally error)
  | .return => some .return
  | _ => none

/-- Whether a call asks for the next value. -/
def Call.reads : Call α ε → Bool
  | .next => true
  | _ => false

section Steps
variable {bufferSize reads : ℕ} {s t : Handler α ε} {call : Call α ε}

theorem Inv.step (h : Inv bufferSize reads s) (hstep : step bufferSize s call = some t) :
    Inv bufferSize (reads + call.reads.toNat) t := by
  cases call with
  | offer update =>
      cases hstep
      exact h.offer update
  | complete =>
      cases hstep
      exact h.complete
  | completeExceptionally error =>
      cases hstep
      exact h.completeExceptionally error
  | next =>
      cases hstep
      exact h.next
  | «return» =>
      cases hstep
      exact h.returns

theorem Core.step_ended (h : Core s) (hstep : step bufferSize s call = some t) :
    endedBy t.trace = (endedBy s.trace).or call.ends := by
  cases call with
  | offer update =>
      cases hstep
      refine Eq.trans ?_ Option.or_none.symm
      rcases offer_cases s bufferSize update with ⟨-, -, -, -, -, hended⟩ | ⟨-, hrefused⟩
      · exact hended
      · rw [hrefused]
  | complete =>
      cases hstep
      exact ends_complete.first h
  | completeExceptionally error =>
      cases hstep
      exact (ends_completeExceptionally error).first h
  | next =>
      cases hstep
      exact kept_next.ended.trans Option.or_none.symm
  | «return» =>
      cases hstep
      exact ends_returns.first h

theorem step_returned (hstep : step bufferSize s call = some t) :
    Event.returned ∈ t.trace ↔ Event.returned ∈ s.trace ∨ call = .return := by
  cases call with
  | offer update =>
      cases hstep
      unfold Handler.offer
      split_ifs <;> simp [returned_wake, returned_record]
  | complete =>
      cases hstep
      unfold Handler.complete
      split_ifs <;> simp [returned_wake, returned_record]
  | completeExceptionally error =>
      cases hstep
      unfold Handler.completeExceptionally
      split_ifs <;> simp [returned_wake, returned_record]
  | next =>
      cases hstep
      unfold Handler.next
      split
      · simp [returned_record]
      · split_ifs
        · simp [returned_ending]
        · simp [returned_record]
        · simp
  | «return» =>
      cases hstep
      unfold Handler.returns
      split_ifs <;> simp [returned_wake, returned_record]

end Steps

/-! ## The next call -/

/-- What a call adds to the accepted updates. -/
def Handler.takes (s : Handler α ε) (bufferSize : ℕ) : Call α ε → List α
  | .offer update => if (s.offer bufferSize update).2 then [update] else []
  | _ => []

/-- What happens at a call that comes while a read waits. -/
def Call.settling : Call α ε → List (Event α ε)
  | .offer update => [.accepted update, .yielded update]
  | .complete => [.completed .complete, .done, .onClose]
  | .completeExceptionally error =>
      [.completed (.completeExceptionally error), .rejected error, .onClose]
  | .next => [.concurrent]
  | .return => [.completed .return, .returned, .done, .onClose]

def Event.refuses : Event α ε → Bool
  | .concurrent => true
  | _ => false

/-- What the next call does, whatever came before it. -/
structure Answers (bufferSize : ℕ) (s : Handler α ε) : Prop where
  /-- An offer is accepted exactly while the handler is open and has room. -/
  offered : ∀ update, (s.offer bufferSize update).2 = true ↔
    s.completed = false ∧ s.buffer.length < bufferSize
  accepted : ∀ call t, step bufferSize s call = some t →
    acceptedIn t.trace = acceptedIn s.trace ++ s.takes bufferSize call
  /-- A read that waits is settled by any call but another read. -/
  settles : s.waiting = true → 0 < bufferSize → ∀ call t, step bufferSize s call = some t →
    t.trace = s.trace ++ call.settling ∧ (t.waiting = true ↔ call = .next)
  /-- A read is not refused while no other waits. -/
  alone : s.waiting = false → ∀ t, step bufferSize s .next = some t →
    t.trace.countP Event.refuses = s.trace.countP Event.refuses

section Answers
variable {bufferSize reads : ℕ} {s t : Handler α ε} {call : Call α ε}

theorem offer_iff (update : α) : (s.offer bufferSize update).2 = true ↔
    s.completed = false ∧ s.buffer.length < bufferSize := by
  rcases offer_cases s bufferSize update with ⟨hopen, hroom, htook, -⟩ | ⟨hover, hrefused⟩
  · exact ⟨fun _ => ⟨hopen, hroom⟩, fun _ => htook⟩
  · rw [hrefused]
    refine ⟨fun hfalse => absurd hfalse Bool.false_ne_true, fun ⟨hopen, hroom⟩ => ?_⟩
    rcases hover with hcompleted | hfull
    · rw [hopen] at hcompleted
      cases hcompleted
    · exact absurd hroom (Nat.not_lt.mpr hfull)

theorem step_accepted (hstep : step bufferSize s call = some t) :
    acceptedIn t.trace = acceptedIn s.trace ++ s.takes bufferSize call := by
  cases call with
  | offer update =>
      cases hstep
      rcases offer_cases s bufferSize update with ⟨-, -, htook, -, haccepted, -⟩ | ⟨-, hrefused⟩
      · rw [haccepted, Handler.takes, if_pos htook]
      · rw [Handler.takes, hrefused, if_neg Bool.false_ne_true, List.append_nil]
  | complete =>
      cases hstep
      exact ends_complete.accepted.trans (List.append_nil _).symm
  | completeExceptionally error =>
      cases hstep
      exact (ends_completeExceptionally error).accepted.trans (List.append_nil _).symm
  | next =>
      cases hstep
      exact kept_next.accepted.trans (List.append_nil _).symm
  | «return» =>
      cases hstep
      exact ends_returns.accepted.trans (List.append_nil _).symm

/-- While a read waits the handler is open and its buffer is empty. -/
theorem Inv.step_settles (h : Inv bufferSize reads s) (hwaiting : s.waiting = true)
    (hsize : 0 < bufferSize) (hstep : UpdateHandler.step bufferSize s call = some t) :
    t.trace = s.trace ++ call.settling ∧ (t.waiting = true ↔ call = .next) := by
  obtain ⟨hbuffer, hopen⟩ := h.awake hwaiting
  have herror := (h.core.not_ended hopen).2.1
  obtain ⟨buffer, completed, error, waiting, trace⟩ := s
  dsimp only at hbuffer hopen herror hwaiting
  subst hbuffer hopen herror hwaiting
  cases call with
  | offer update =>
      cases hstep
      have hroom : ¬ bufferSize ≤ 0 := Nat.not_le.mpr hsize
      simp [Handler.offer, Handler.wake, Handler.record, Call.settling, hroom]
  | complete =>
      cases hstep
      simp [Handler.complete, Handler.wake, Handler.ending, Handler.record, Call.settling]
  | completeExceptionally error =>
      cases hstep
      simp [Handler.completeExceptionally, Handler.wake, Handler.ending, Handler.record,
        Call.settling]
  | next =>
      cases hstep
      simp [Handler.next, Handler.record, Call.settling]
  | «return» =>
      cases hstep
      simp [Handler.returns, Handler.wake, Handler.ending, Handler.record, Call.settling]

theorem next_alone (hidle : s.waiting = false) :
    s.next.trace.countP Event.refuses = s.trace.countP Event.refuses := by
  unfold Handler.next
  split
  · simp [Handler.record, Event.refuses]
  · simp only [hidle, Bool.false_eq_true, if_false]
    split_ifs with hcompleted
    · unfold Handler.ending
      split <;> simp [Handler.record, Event.refuses]
    · rfl

theorem Inv.answers (h : Inv bufferSize reads s) : Answers bufferSize s where
  offered := offer_iff
  accepted := fun _ _ => step_accepted
  settles := fun hwaiting hsize _ _ => h.step_settles hwaiting hsize
  alone := by
    intro hidle t hstep
    cases hstep
    exact next_alone hidle

end Answers

theorem inv_initial {bufferSize : ℕ} : Inv bufferSize 0 (initial : Handler α ε) := by
  exact ⟨⟨fun _ => rfl, nofun, rfl, fun _ => ⟨nofun, nofun⟩, each_nil⟩, Nat.zero_le _,
    nofun, rfl, rfl⟩

/-- Over a run the first call that ends the handler is the one that does. -/
theorem exec_inv {bufferSize reads : ℕ} {s : Handler α ε} (h : Inv bufferSize reads s)
    (calls : List (Call α ε)) :
    ∃ t, exec (step bufferSize) s calls = some t ∧
      Inv bufferSize (reads + calls.countP Call.reads) t ∧
        endedBy t.trace = (endedBy s.trace).or (calls.findSome? Call.ends) ∧
          (Event.returned ∈ t.trace ↔ Event.returned ∈ s.trace ∨ Call.return ∈ calls) := by
  induction calls generalizing reads s with
  | nil => exact ⟨s, rfl, h, Option.or_none.symm, by simp⟩
  | cons call calls ih =>
      obtain ⟨u, hstep⟩ : ∃ u, step bufferSize s call = some u := by
        cases call <;> exact ⟨_, rfl⟩
      obtain ⟨t, ht, hinv, hended, hreturned⟩ := ih (h.step hstep)
      refine ⟨t, ?_, ?_, ?_, ?_⟩
      · rw [exec, hstep]
        exact ht
      · have hcount : (call :: calls).countP Call.reads =
            call.reads.toNat + calls.countP Call.reads := by
          rw [List.countP_cons, Nat.add_comm]
          cases call.reads <;> rfl
        rw [hcount, ← Nat.add_assoc]
        exact hinv
      · rw [hended, h.core.step_ended hstep, Option.or_assoc, List.findSome?_cons]
        congr 1
        cases call.ends <;> rfl
      · rw [hreturned, step_returned hstep, List.mem_cons, or_assoc]
        exact or_congr_right (or_congr_left eq_comm)

/-- After any calls in any order the buffer is a faithful queue: what ended it is the first call
that does, and the next call is answered by what it brings. -/
theorem update_buffer_faithful (bufferSize : ℕ) (calls : List (Call α ε)) :
    ∃ s, exec (step bufferSize) initial calls = some s ∧
      Faithful bufferSize (calls.countP Call.reads) s ∧
        endedBy s.trace = calls.findSome? Call.ends ∧
          (Event.returned ∈ s.trace ↔ Call.return ∈ calls) ∧ Answers bufferSize s := by
  obtain ⟨s, hs, hinv, hended, hreturned⟩ := exec_inv inv_initial calls
  rw [Nat.zero_add] at hinv
  exact ⟨s, hs, hinv.faithful, hended, hreturned.trans (by simp [initial]), hinv.answers⟩

/-- Of two values one is read before the producer fails, and one after that. -/
theorem update_buffer_faithful_failing : ∃ s : Handler ℕ String,
    exec (step 2) initial [.offer 1, .next, .next] = some s ∧
      (s.completeExceptionally "down").trace = [.accepted 1, .yielded 1,
        .completed (.completeExceptionally "down"), .rejected "down", .onClose] ∧
      (s.offer 2 5).1.trace = [.accepted 1, .yielded 1, .accepted 5, .yielded 5] := by
  obtain ⟨s, hs, -, -, -, hanswers⟩ :=
    update_buffer_faithful (α := ℕ) (ε := String) 2 [.offer 1, .next, .next]
  have hstate : exec (step 2) (initial : Handler ℕ String) [.offer 1, .next, .next] =
      some ⟨[], false, none, true, [.accepted 1, .yielded 1]⟩ := rfl
  obtain rfl := Option.some.inj (hstate.symm.trans hs)
  exact ⟨_, rfl, (hanswers.settles rfl (by decide) (.completeExceptionally "down") _ rfl).1,
    (hanswers.settles rfl (by decide) (.offer 5) _ rfl).1⟩

end Kronos.QueryHandling.UpdateHandler
