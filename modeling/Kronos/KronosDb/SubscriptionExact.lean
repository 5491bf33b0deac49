import Kronos.KronosDb.Subscription
import Kronos.Lib.Transition
import Mathlib.Data.List.Basic

/-!
# The bookkeeping of a subscription

`queued`, `received` and the positions held back count records; `taken` and the
credits count events. Where every record is an event the two agree, and the
subscription reports exactly what it holds. A record that is not an event is
counted when it arrives and never counted off.
-/
namespace Kronos.KronosDb.Subscription
open NativeTransport Kronos.Lib.Transition

section Decoded
variable {E : Type} (readEventBody : Bytes → Option (E × Bytes))

/-- The events of `left` records. -/
def decoded : ℕ → Bytes → List (SequencedEvent E)
  | 0, _ => []
  | left + 1, bytes =>
      match readRecordAt readEventBody bytes with
      | none => []
      | some (some event, rest) => event :: decoded left rest
      | some (none, rest) => decoded left rest

/-- Each of `left` records is an event, and can be read. -/
def onlyEvents : ℕ → Bytes → Bool
  | 0, _ => true
  | left + 1, bytes =>
      match readRecordAt readEventBody bytes with
      | some (some _, rest) => onlyEvents left rest
      | _ => false

namespace RawBatch

def events (batch : RawBatch) : List (SequencedEvent E) :=
  decoded readEventBody batch.left batch.bytes

def onlyEvents (batch : RawBatch) : Bool :=
  Subscription.onlyEvents readEventBody batch.left batch.bytes

end RawBatch

/-- The events that arrived, in order. -/
def eventsIn (log : List Arrival) : List (SequencedEvent E) :=
  log.flatMap fun
    | .batch batch => batch.events readEventBody
    | .progress _ => []

end Decoded

/-- How many records arrived. -/
def recordsIn (log : List Arrival) : ℕ :=
  (log.map fun
    | .batch batch => batch.left
    | .progress _ => 0).sum

/-- The actions under which the counts agree: a frame holds nothing but events, and
the subscription is not closed on a position that is reached and was not asked for. -/
def steady {E : Type} (readEventBody : Bytes → Option (E × Bytes)) (s : State E) : Action → Bool
  | .frame kind _ body =>
      s.completed || kind != 0x8102 ||
        (rawBatch body).all fun batch => batch.onlyEvents readEventBody
  | .close => s.held.head?.all fun mark => s.taken < mark.after
  | _ => true

/-- What a subscription promises. -/
structure Exact {E : Type} (readEventBody : Bytes → Option (E × Bytes)) (s : State E) : Prop where
  available : s.hasNextAvailable = true ↔ (s.next readEventBody).2.isSome = true
  inOrder : s.handed <+: eventsIn readEventBody s.log
  /-- `next` returns the first event that was not handed out, until the consumer closes. -/
  complete : s.closed = false →
    (s.next readEventBody).2 = (eventsIn readEventBody s.log)[s.handed.length]?
  /-- What arrived before a position that is reported was handed out. -/
  behind : ∀ position, s.reached.2 = some position →
    ∃ before after, s.log = before ++ .progress position :: after ∧
      eventsIn readEventBody before <+: s.handed
  /-- With a server that sends nothing below a position after it, the position
  reported is not past an event still to be handed out. -/
  notAhead : (∀ before position after, s.log = before ++ .progress position :: after →
      ∀ event ∈ eventsIn readEventBody after, position ≤ event.sequence) →
    ∀ position, s.reached.2 = some position →
      ∀ event ∈ (eventsIn readEventBody s.log).drop s.handed.length, position ≤ event.sequence
  /-- The latest position before which everything was handed out is the one reported. -/
  latest : ∀ before position after, s.log = before ++ .progress position :: after →
    eventsIn readEventBody before <+: s.handed →
    (∀ between later rest, after = between ++ .progress later :: rest →
      ¬ eventsIn readEventBody (before ++ between) <+: s.handed) →
    s.reached.2 = some position
  /-- A consumer that has taken everything leaves the server a credit. -/
  credit : s.completed = false → s.handed = eventsIn readEventBody s.log →
    (recordsIn s.log : ℤ) < s.granted

/-! ## Records that are events -/

section Batches
variable {E : Type} {readEventBody : Bytes → Option (E × Bytes)}

theorem length_decoded {left : ℕ} {bytes : Bytes} (h : onlyEvents readEventBody left bytes = true) :
    (decoded readEventBody left bytes).length = left := by
  induction left generalizing bytes with
  | zero => rfl
  | succ left ih =>
      simp only [onlyEvents] at h
      split at h
      case h_1 event rest hread =>
        simp only [decoded, hread, List.length_cons]
        rw [ih h]
      case h_2 => cases h

theorem take_onlyEvents {batch : RawBatch} (h : batch.onlyEvents readEventBody = true) :
    (batch.take readEventBody = .spent ∧ batch.events readEventBody = []) ∨
      ∃ event rest, batch.take readEventBody = .item event rest ∧
        rest.onlyEvents readEventBody = true ∧
        batch.events readEventBody = event :: rest.events readEventBody := by
  obtain ⟨left, bytes⟩ := batch
  cases left with
  | zero => exact .inl ⟨rfl, rfl⟩
  | succ left =>
      refine .inr ?_
      simp only [RawBatch.onlyEvents, onlyEvents] at h
      split at h
      case h_1 event rest hread =>
        refine ⟨event, ⟨left, rest⟩, ?_, h, ?_⟩
        · simp only [RawBatch.take, takeRecord, hread]
        · simp only [RawBatch.events, decoded, hread]
      case h_2 => cases h

theorem pullFrom_onlyEvents {batches : List RawBatch}
    (h : ∀ batch ∈ batches, batch.onlyEvents readEventBody = true) :
    (pullFrom readEventBody batches = some (none, []) ∧
      batches.flatMap (RawBatch.events readEventBody) = []) ∨
      ∃ event rest, pullFrom readEventBody batches = some (some event, rest) ∧
        (∀ batch ∈ rest, batch.onlyEvents readEventBody = true) ∧
        batches.flatMap (RawBatch.events readEventBody) =
          event :: rest.flatMap (RawBatch.events readEventBody) := by
  induction batches with
  | nil => exact .inl ⟨rfl, rfl⟩
  | cons batch batches ih =>
      rw [List.forall_mem_cons] at h
      rcases take_onlyEvents h.1 with ⟨htake, hevents⟩ | ⟨event, rest, htake, hrest, hevents⟩
      · simp only [pullFrom, htake, List.flatMap_cons, hevents, List.nil_append]
        exact ih h.2
      · refine .inr ⟨event, rest :: batches, ?_, ?_, ?_⟩
        · simp only [pullFrom, htake]
        · exact List.forall_mem_cons.mpr ⟨hrest, h.2⟩
        · simp only [List.flatMap_cons, hevents, List.cons_append]

theorem eventsIn_append (log later : List Arrival) :
    eventsIn readEventBody (log ++ later) =
      eventsIn readEventBody log ++ eventsIn readEventBody later :=
  List.flatMap_append

theorem eventsIn_progress (before after : List Arrival) (position : ℕ) :
    eventsIn readEventBody (before ++ .progress position :: after) =
      eventsIn readEventBody before ++ eventsIn readEventBody after := by
  rw [eventsIn_append]
  rfl

theorem recordsIn_append (log : List Arrival) (arrival : Arrival) :
    recordsIn (log ++ [arrival]) = recordsIn log + recordsIn [arrival] := by
  simp [recordsIn]

end Batches

/-! ## Positions that were reported -/

section Marks
variable {E : Type} (readEventBody : Bytes → Option (E × Bytes))

/-- The positions of a log that begins behind `n` events. -/
def marksFrom : ℕ → List Arrival → List Held
  | _, [] => []
  | n, .batch batch :: log => marksFrom (n + (batch.events readEventBody).length) log
  | n, .progress position :: log => ⟨position, n⟩ :: marksFrom n log

variable {readEventBody}

theorem marksFrom_append (n : ℕ) (log later : List Arrival) :
    marksFrom readEventBody n (log ++ later) =
      marksFrom readEventBody n log ++
        marksFrom readEventBody (n + (eventsIn readEventBody log).length) later := by
  induction log generalizing n with
  | nil => rfl
  | cons arrival log ih =>
      cases arrival with
      | batch batch =>
          simp only [List.cons_append, marksFrom, ih]
          simp [eventsIn, Nat.add_assoc]
      | progress position =>
          simp only [List.cons_append, marksFrom, ih]
          simp [eventsIn]

theorem mem_marksFrom {n : ℕ} {log : List Arrival} {mark : Held}
    (h : mark ∈ marksFrom readEventBody n log) :
    ∃ before after, log = before ++ .progress mark.position :: after ∧
      mark.after = n + (eventsIn readEventBody before).length := by
  induction log generalizing n with
  | nil => cases h
  | cons arrival log ih =>
      cases arrival with
      | batch batch =>
          obtain ⟨before, after, rfl, hcount⟩ := ih h
          refine ⟨.batch batch :: before, after, rfl, ?_⟩
          rw [hcount, Nat.add_assoc]
          simp [eventsIn]
      | progress position =>
          rcases List.mem_cons.mp h with rfl | hlater
          · exact ⟨[], log, rfl, rfl⟩
          · obtain ⟨before, after, rfl, hcount⟩ := ih hlater
            exact ⟨.progress position :: before, after, rfl, hcount⟩

/-- Positions are held in the order in which they fall due. -/
theorem pairwise_marksFrom (n : ℕ) (log : List Arrival) :
    (marksFrom readEventBody n log).Pairwise fun mark later => mark.after ≤ later.after := by
  induction log generalizing n with
  | nil => exact .nil
  | cons arrival log ih =>
      cases arrival with
      | batch batch => exact ih _
      | progress position =>
          refine .cons ?_ (ih n)
          intro later hlater
          obtain ⟨before, after, -, hcount⟩ := mem_marksFrom hlater
          rw [hcount]
          exact Nat.le_add_right n _

theorem passHeld_eq (taken : ℕ) (held : List Held) (settled : Option ℕ) :
    ∃ passed, held = passed ++ (passHeld taken held settled).1 ∧
      (passHeld taken held settled).2 = (passed.getLast?.map Held.position).or settled ∧
      (∀ mark ∈ passed, mark.after ≤ taken) ∧
      ((passHeld taken held settled).1.head?.all fun mark => taken < mark.after) = true := by
  induction held generalizing settled with
  | nil => exact ⟨[], rfl, rfl, by simp, rfl⟩
  | cons mark held ih =>
      by_cases hdue : mark.after ≤ taken
      · obtain ⟨passed, hheld, hsettled, hpassed, hrest⟩ := ih (some mark.position)
        simp only [passHeld, hdue, if_true]
        refine ⟨mark :: passed, congrArg (mark :: ·) hheld, ?_, ?_, hrest⟩
        · rw [hsettled]
          cases passed with
          | nil => rfl
          | cons first passed => simp [List.getLast?_cons]
        · exact List.forall_mem_cons.mpr ⟨hdue, hpassed⟩
      · simp only [passHeld, hdue, if_false]
        exact ⟨[], rfl, rfl, by simp, by simpa using hdue⟩

end Marks

/-! ## The invariant -/

section Invariant
variable {E : Type} (readEventBody : Bytes → Option (E × Bytes))

def State.waiting (s : State E) : List (SequencedEvent E) :=
  s.batches.flatMap (RawBatch.events readEventBody)

/-- The positions that were handed over and those still to come. -/
structure Marked (s : State E) (passed rest : List Held) : Prop where
  split : marksFrom readEventBody 0 s.log = passed ++ rest
  settled : s.settled = passed.getLast?.map Held.position
  due : ∀ mark ∈ passed, mark.after ≤ s.taken
  held : s.closed = false → s.held = rest
  dropped : s.closed = true → ∀ mark ∈ rest, s.taken < mark.after

structure Inv (s : State E) : Prop where
  credits : 0 < s.credits
  whole : ∀ batch ∈ s.batches, batch.onlyEvents readEventBody = true
  queued : s.queued = (s.waiting readEventBody).length
  received : s.received = (eventsIn readEventBody s.log).length
  records : s.received = recordsIn s.log
  taken : s.taken = s.handed.length
  inOrder : s.handed <+: eventsIn readEventBody s.log
  order : s.closed = false →
    eventsIn readEventBody s.log = s.handed ++ (s.peeked.toList ++ s.waiting readEventBody)
  closed : s.closed = true →
    s.completed = true ∧ s.batches = [] ∧ s.peeked = none ∧ s.held = []
  marked : ∃ passed rest, Marked readEventBody s passed rest
  granted : s.completed = false → s.granted = s.outstanding + s.taken
  margin : s.completed = false → (s.credits / 4 : ℕ) < s.outstanding
  silent : s.completed = false → s.stream = false → s.log = []

variable {readEventBody} {s : State E}

theorem inv_initial {credits : ℕ} (h : 0 < credits) : Inv readEventBody (initial E credits) where
  credits := h
  whole := by simp [initial]
  queued := rfl
  received := rfl
  records := rfl
  taken := rfl
  inOrder := List.nil_prefix
  order := fun _ => rfl
  closed := by simp [initial]
  marked := ⟨[], [], rfl, rfl, by simp, fun _ => rfl, by simp⟩
  granted := fun _ => by simp [initial]
  margin := fun _ => by
    simp only [initial]
    exact_mod_cast Nat.div_lt_self h (by decide)
  silent := fun _ _ => rfl

theorem Inv.finish (hi : Inv readEventBody s) (error : Bool) :
    Inv readEventBody (s.finish error) := by
  unfold State.finish
  split_ifs with hcompleted
  · exact hi
  · exact
      { hi with
        closed := fun hclosed => ⟨rfl, (hi.closed hclosed).2⟩
        marked := by
          obtain ⟨passed, rest, h⟩ := hi.marked
          exact ⟨passed, rest, h.split, h.settled, h.due, h.held, h.dropped⟩
        granted := nofun
        margin := nofun
        silent := nofun }

theorem Inv.opened (hi : Inv readEventBody s) : Inv readEventBody { s with stream := true } :=
  { hi with
    marked := by
      obtain ⟨passed, rest, h⟩ := hi.marked
      exact ⟨passed, rest, h.split, h.settled, h.due, h.held, h.dropped⟩
    silent := nofun }

theorem Inv.open_of_not_completed (hi : Inv readEventBody s) (h : s.completed = false) :
    s.closed = false := by
  cases hclosed : s.closed with
  | false => rfl
  | true =>
      rw [(hi.closed hclosed).1] at h
      cases h

theorem Inv.batch (hi : Inv readEventBody s) (hrunning : s.completed = false)
    (hstream : s.stream = true) {next : RawBatch} (hevents : next.onlyEvents readEventBody = true) :
    Inv readEventBody
      { s with
        batches := s.batches ++ [next]
        queued := s.queued + next.left
        received := s.received + next.left
        log := s.log ++ [.batch next] } := by
  have hopen : s.closed = false := hi.open_of_not_completed hrunning
  have hcount : (next.events readEventBody).length = next.left := length_decoded hevents
  have hlog : eventsIn readEventBody (s.log ++ [.batch next]) =
      eventsIn readEventBody s.log ++ next.events readEventBody := by
    rw [eventsIn_append]
    simp [eventsIn]
  refine
    { hi with
      whole := ?_, queued := ?_, received := ?_, records := ?_, inOrder := ?_, order :=
        ?_, closed := ?_,
      marked := ?_, silent := ?_ }
  · intro batch hbatch
    rcases List.mem_append.mp hbatch with hold | hnew
    · exact hi.whole batch hold
    · rw [List.mem_singleton.mp hnew]
      exact hevents
  · rw [hi.queued]
    simp [State.waiting, hcount]
  · rw [hlog, List.length_append, hi.received, hcount]
  · rw [recordsIn_append, hi.records]
    rfl
  · rw [hlog]
    exact hi.inOrder.trans (List.prefix_append _ _)
  · intro _
    rw [hlog, hi.order hopen]
    simp [State.waiting]
  · intro hclosed
    rw [hopen] at hclosed
    cases hclosed
  · obtain ⟨passed, rest, h⟩ := hi.marked
    refine ⟨passed, rest, ?_, h.settled, h.due, h.held, h.dropped⟩
    rw [marksFrom_append, h.split]
    simp [marksFrom]
  · intro _ hnone
    rw [hstream] at hnone
    cases hnone

theorem Inv.position (hi : Inv readEventBody s) (hrunning : s.completed = false)
    (hstream : s.stream = true) (position : ℕ) :
    Inv readEventBody
      { s with
        held := s.held ++ [⟨position, s.received⟩]
        log := s.log ++ [.progress position] } := by
  have hopen : s.closed = false := hi.open_of_not_completed hrunning
  have hlog : eventsIn readEventBody (s.log ++ [.progress position]) =
      eventsIn readEventBody s.log := by
    rw [eventsIn_progress]
    exact List.append_nil _
  refine
    { hi with
      received := ?_, records := ?_, inOrder := ?_, order := ?_, closed := ?_, marked :=
        ?_, silent := ?_ }
  · rw [hlog]
    exact hi.received
  · rw [recordsIn_append, hi.records]
    rfl
  · rw [hlog]
    exact hi.inOrder
  · rw [hlog]
    exact hi.order
  · intro hclosed
    rw [hopen] at hclosed
    cases hclosed
  · obtain ⟨passed, rest, h⟩ := hi.marked
    refine ⟨passed, rest ++ [⟨position, s.received⟩], ?_, h.settled, h.due, ?_, ?_⟩
    · rw [marksFrom_append, h.split, List.append_assoc, hi.received]
      simp [marksFrom]
    · intro _
      rw [← h.held hopen]
    · intro hclosed
      rw [hopen] at hclosed
      cases hclosed
  · intro _ hnone
    rw [hstream] at hnone
    cases hnone

theorem Inv.frame (hi : Inv readEventBody s) {kind flags : ℕ} {body : Bytes}
    (htravels : (s.stream || s.completed) = true)
    (hok : steady readEventBody s (.frame kind flags body) = true) :
    Inv readEventBody ((s.onFrame kind flags body).getD (s.finish true)) := by
  have hended : ∀ t : State E, Inv readEventBody t →
      Inv readEventBody (if flags % 2 = 1 then t.finish false else t) := by
    intro t ht
    split_ifs
    · exact ht.finish false
    · exact ht
  unfold State.onFrame
  dsimp only
  split
  · exact hi
  case isFalse hcompleted =>
    have hrunning : s.completed = false := Bool.eq_false_iff.mpr hcompleted
    have hstream : s.stream = true := by simpa [hrunning] using htravels
    split
    case isTrue hkind =>
      cases hbatch : rawBatch body with
      | none => exact hi.finish true
      | some next =>
          have hevents : next.onlyEvents readEventBody = true := by
            simpa only [steady, hrunning, hkind, hbatch, bne_self_eq_false, Bool.false_or,
              Option.all_some] using hok
          simp only [Option.map_some, Option.getD_some]
          apply hended
          split_ifs
          · exact hi.batch hrunning hstream hevents
          · exact hi
    case isFalse =>
      split
      · cases hposition : readU64 body with
        | none => exact hi.finish true
        | some position =>
            simp only [Option.map_some, Option.getD_some]
            exact hended _ (hi.position hrunning hstream position.1)
      · exact hi.finish true

/-- What `peek` does: it leaves the next event in `peeked`. -/
theorem Inv.peek (hi : Inv readEventBody s) :
    Inv readEventBody (s.peek readEventBody).1 ∧
      (s.peek readEventBody).2 = (s.peeked.toList ++ s.waiting readEventBody).head? := by
  unfold State.peek
  cases hpeeked : s.peeked with
  | some event => exact ⟨hi, rfl⟩
  | none =>
      dsimp only
      rcases pullFrom_onlyEvents hi.whole with
        ⟨hpull, hnone⟩ | ⟨event, rest, hpull, hwhole, hwaiting⟩
      · have hwaiting : s.waiting readEventBody = [] := hnone
        simp only [State.pull, hpull, Option.toList_none, List.nil_append, hwaiting, List.head?_nil,
          and_true]
        obtain ⟨passed, rest, h⟩ := hi.marked
        refine
          { hi with
            whole := by simp, queued := ?_, order := ?_, closed := ?_,
            marked := ⟨passed, rest, h.split, h.settled, h.due, h.held, h.dropped⟩ }
        · rw [hi.queued, hwaiting]
          rfl
        · intro hopen
          rw [hi.order hopen, hpeeked, hwaiting]
          rfl
        · intro hclosed
          exact ⟨(hi.closed hclosed).1, rfl, rfl, (hi.closed hclosed).2.2.2⟩
      · have hwaiting :
            s.waiting readEventBody = event :: rest.flatMap (RawBatch.events readEventBody) :=
          hwaiting
        have hopen : s.closed = false := by
          cases hclosed : s.closed with
          | false => rfl
          | true =>
              rw [(hi.closed hclosed).2.1] at hpull
              cases hpull
        simp only [State.pull, hpull, Option.toList_none, List.nil_append, hwaiting,
          List.head?_cons,
          and_true]
        obtain ⟨passed, later, h⟩ := hi.marked
        refine
          { hi with
            whole := hwhole, queued := ?_, order := ?_, closed := ?_,
            marked := ⟨passed, later, h.split, h.settled, h.due, h.held, h.dropped⟩ }
        · rw [hi.queued, hwaiting]
          rfl
        · intro _
          rw [hi.order hopen, hpeeked, hwaiting]
          rfl
        · intro hclosed
          rw [hopen] at hclosed
          cases hclosed

/-- The peeked event is taken. -/
def State.takePeeked (s : State E) (event : SequencedEvent E) : State E :=
  { s with peeked := none, taken := s.taken + 1, handed := s.handed ++ [event] }.onConsumed

/-- `next` takes what `peek` shows. -/
theorem next_eq_peek (s : State E) :
    s.next readEventBody =
      match (s.peek readEventBody).2 with
      | none => s.peek readEventBody
      | some event => ((s.peek readEventBody).1.takePeeked event, some event) := by
  unfold State.next State.peek
  cases hpeeked : s.peeked with
  | some event => rfl
  | none =>
      unfold State.pull
      cases hpull : pullFrom readEventBody s.batches with
      | none =>
          dsimp only
          unfold State.finish
          split_ifs
          · rfl
          · rfl
      | some pulled =>
          obtain ⟨item, batches⟩ := pulled
          cases item with
          | none =>
              dsimp only
              rw [← hpeeked]
          | some event =>
              dsimp only
              simp only [State.takePeeked, hpeeked]

theorem Inv.takePeeked (hi : Inv readEventBody s) {event : SequencedEvent E}
    (hpeeked : s.peeked = some event) : Inv readEventBody (s.takePeeked event) := by
  have hopen : s.closed = false := by
    cases hclosed : s.closed with
    | false => rfl
    | true =>
        rw [(hi.closed hclosed).2.2.1] at hpeeked
        cases hpeeked
  have horder : eventsIn readEventBody s.log =
      (s.handed ++ [event]) ++ s.waiting readEventBody := by
    rw [hi.order hopen, hpeeked, List.append_assoc]
    rfl
  have htaken : Inv readEventBody
      { s with
        peeked := none, taken := s.taken + 1, handed := s.handed ++ [event]
        outstanding := s.outstanding - 1, completed := true } := by
    obtain ⟨passed, rest, h⟩ := hi.marked
    refine
      { hi with
        taken := ?_, inOrder := ?_, order := fun _ => horder, closed := ?_, granted := nofun
        margin := nofun, silent := nofun
        marked := ⟨passed, rest, h.split, h.settled, ?_, h.held, ?_⟩ }
    · rw [hi.taken, List.length_append]
      rfl
    · rw [horder]
      exact List.prefix_append _ _
    · intro hclosed
      exact ⟨rfl, (hi.closed hclosed).2.1, rfl, (hi.closed hclosed).2.2.2⟩
    · intro mark hmark
      exact Nat.le_succ_of_le (h.due mark hmark)
    · intro hclosed
      rw [hopen] at hclosed
      cases hclosed
  have hstream : s.completed = false → s.stream = true := by
    intro hrunning
    cases hstream : s.stream with
    | true => rfl
    | false =>
        rw [hi.silent hrunning hstream] at horder
        exact absurd (congrArg List.length horder) (by simp [eventsIn])
  obtain ⟨passed, rest, h⟩ := htaken.marked
  unfold State.takePeeked State.onConsumed
  dsimp only
  split_ifs with hrefill hsent
  · have hrunning : s.completed = false := hrefill.2
    exact
      { htaken with
        closed := fun hclosed => by rw [hopen] at hclosed; cases hclosed
        marked := ⟨passed, rest, h.split, h.settled, h.due, h.held, h.dropped⟩
        granted := fun _ => by
          have hgranted := hi.granted hrunning
          push_cast
          omega
        margin := fun _ => by
          have hless : s.credits / 4 < s.credits := Nat.div_lt_self hi.credits (by decide)
          push_cast
          omega
        silent := fun _ hnone => by rw [hsent] at hnone; cases hnone }
  · exact absurd (hstream hrefill.2) hsent
  · exact
      { htaken with
        closed := fun hclosed => by rw [hopen] at hclosed; cases hclosed
        marked := ⟨passed, rest, h.split, h.settled, h.due, h.held, h.dropped⟩
        granted := fun hrunning => by
          have hgranted := hi.granted hrunning
          push_cast
          omega
        margin := fun hrunning => by
          have hnot := not_and.mp hrefill
          have hless : ¬ s.outstanding - 1 ≤ (s.credits / 4 : ℕ) := fun hle => hnot hle hrunning
          exact not_le.mp hless
        silent := hi.silent }

theorem Inv.next (hi : Inv readEventBody s) : Inv readEventBody (s.next readEventBody).1 := by
  rw [next_eq_peek]
  cases hpeek : (s.peek readEventBody).2 with
  | none => exact hi.peek.1
  | some event =>
      refine hi.peek.1.takePeeked ?_
      rw [← hpeek]
      unfold State.peek
      cases hpeeked : s.peeked with
      | none => rfl
      | some event => exact hpeeked

theorem Inv.reached (hi : Inv readEventBody s) : Inv readEventBody s.reached.1 := by
  obtain ⟨passed, rest, h⟩ := hi.marked
  obtain ⟨due, hheld, hsettled, hdue, -⟩ := passHeld_eq s.taken s.held s.settled
  refine
    { hi with
      closed := ?_
      marked := ?_ }
  · intro hclosed
    obtain ⟨hcompleted, hbatches, hpeeked, hnone⟩ := hi.closed hclosed
    refine ⟨hcompleted, hbatches, hpeeked, ?_⟩
    simp only [State.reached, hnone, passHeld]
  · cases hclosed : s.closed with
    | true =>
        have hnone : s.held = [] := (hi.closed hclosed).2.2.2
        refine ⟨passed, rest, h.split, ?_, h.due, (fun hopen => nomatch hclosed.symm.trans hopen),
          fun _ => h.dropped hclosed⟩
        simp only [State.reached, hnone, passHeld]
        exact h.settled
    | false =>
        refine ⟨passed ++ due, (passHeld s.taken s.held s.settled).1, ?_, ?_, ?_, fun _ => rfl,
          fun hshut => nomatch hclosed.symm.trans hshut⟩
        · rw [List.append_assoc, ← hheld, h.held hclosed]
          exact h.split
        · rw [List.getLast?_append, Option.map_or, ← h.settled]
          exact hsettled
        · intro mark hmark
          rcases List.mem_append.mp hmark with hold | hnew
          · exact h.due mark hold
          · exact hdue mark hnew

theorem Inv.close (hi : Inv readEventBody s) (hok : steady readEventBody s .close = true) :
    Inv readEventBody s.close := by
  obtain ⟨passed, rest, h⟩ := hi.marked
  refine
    { hi with
      whole := by simp [State.close, State.discard], queued := rfl, order := nofun
      closed := fun _ => ⟨rfl, rfl, rfl, rfl⟩, granted := nofun, margin := nofun, silent := nofun
      marked := ⟨passed, rest, h.split, h.settled, h.due, nofun, fun _ => ?_⟩ }
  cases hclosed : s.closed with
  | true => exact h.dropped hclosed
  | false =>
      have hsorted : (marksFrom readEventBody 0 s.log).Pairwise
          fun mark later => mark.after ≤ later.after := pairwise_marksFrom 0 s.log
      rw [h.split, List.pairwise_append] at hsorted
      rw [← h.held hclosed] at hsorted ⊢
      cases hheld : s.held with
      | nil => nofun
      | cons mark held =>
          rw [hheld] at hsorted
          have hfirst : s.taken < mark.after := by simpa [steady, hheld] using hok
          refine List.forall_mem_cons.mpr ⟨hfirst, ?_⟩
          intro later hlater
          exact lt_of_lt_of_le hfirst ((List.pairwise_cons.mp hsorted.2.1).1 later hlater)

theorem Inv.step (hi : Inv readEventBody s) {a : Action} {t : State E}
    (hok : steady readEventBody s a = true) (h : step readEventBody s a = some t) :
    Inv readEventBody t := by
  cases a with
  | opened =>
      simp only [Subscription.step] at h
      split_ifs at h
      · cases h
        exact hi
      · cases h
        exact hi.opened
  | frame kind flags body =>
      simp only [Subscription.step] at h
      split_ifs at h with htravels
      cases h
      exact hi.frame htravels hok
  | fail =>
      cases h
      exact hi.finish true
  | next =>
      cases h
      exact hi.next
  | peek =>
      cases h
      exact hi.peek.1
  | progress =>
      cases h
      exact hi.reached
  | close =>
      cases h
      exact hi.close hok

/-! ## What the invariant promises -/

theorem Inv.next_eq (hi : Inv readEventBody s) :
    (s.next readEventBody).2 = (s.peeked.toList ++ s.waiting readEventBody).head? := by
  rw [← hi.peek.2, next_eq_peek]
  cases hpeek : (s.peek readEventBody).2 with
  | none => exact hpeek
  | some event => rfl

theorem Inv.available (hi : Inv readEventBody s) :
    s.hasNextAvailable = true ↔ (s.next readEventBody).2.isSome = true := by
  rw [hi.next_eq, State.hasNextAvailable, hi.queued]
  cases s.peeked with
  | some event => simp
  | none =>
      cases s.waiting readEventBody with
      | nil => simp
      | cons event events => simp

theorem Inv.complete (hi : Inv readEventBody s) (hopen : s.closed = false) :
    (s.next readEventBody).2 = (eventsIn readEventBody s.log)[s.handed.length]? := by
  rw [hi.next_eq, hi.order hopen, List.getElem?_append_right le_rfl, Nat.sub_self,
    List.head?_eq_getElem?]

/-- The position reported is the last of those that are due. -/
theorem Inv.reached_eq (hi : Inv readEventBody s) :
    s.reached.2 = (((marksFrom readEventBody 0 s.log).filter fun mark =>
      mark.after ≤ s.handed.length).getLast?).map Held.position := by
  obtain ⟨passed, rest, h⟩ := hi.marked
  obtain ⟨due, hheld, hsettled, hdue, hfirst⟩ := passHeld_eq s.taken s.held s.settled
  have hsorted : (marksFrom readEventBody 0 s.log).Pairwise
      fun mark later => mark.after ≤ later.after := pairwise_marksFrom 0 s.log
  have hkeep : ∀ marks : List Held, (∀ mark ∈ marks, mark.after ≤ s.taken) →
      marks.filter (fun mark => mark.after ≤ s.handed.length) = marks := by
    intro marks hmarks
    refine List.filter_eq_self.mpr fun mark hmark => decide_eq_true ?_
    rw [← hi.taken]
    exact hmarks mark hmark
  have hdrop : ∀ marks : List Held, (∀ mark ∈ marks, s.taken < mark.after) →
      marks.filter (fun mark => mark.after ≤ s.handed.length) = [] := by
    intro marks hmarks
    refine List.filter_eq_nil_iff.mpr fun mark hmark => ?_
    rw [decide_eq_true_eq, ← hi.taken]
    exact not_le.mpr (hmarks mark hmark)
  change (passHeld s.taken s.held s.settled).2 = _
  cases hclosed : s.closed with
  | true =>
      rw [h.split, List.filter_append, hkeep passed h.due, hdrop rest (h.dropped hclosed),
        List.append_nil, ← h.settled, (hi.closed hclosed).2.2.2]
      rfl
  | false =>
      rw [h.split, ← h.held hclosed, hheld, ← List.append_assoc, List.pairwise_append] at hsorted
      have hrest : ∀ mark ∈ (passHeld s.taken s.held s.settled).1, s.taken < mark.after := by
        cases hlater : (passHeld s.taken s.held s.settled).1 with
        | nil => nofun
        | cons mark later =>
            rw [hlater] at hfirst hsorted
            have hmark : s.taken < mark.after := by simpa using hfirst
            refine List.forall_mem_cons.mpr ⟨hmark, ?_⟩
            intro other hother
            exact lt_of_lt_of_le hmark ((List.pairwise_cons.mp hsorted.2.1).1 other hother)
      have hmarks : marksFrom readEventBody 0 s.log =
          passed ++ (due ++ (passHeld s.taken s.held s.settled).1) := by
        rw [← hheld, h.held hclosed]
        exact h.split
      rw [hmarks, List.filter_append, List.filter_append, hkeep passed h.due, hkeep due hdue,
        hdrop _ hrest, List.append_nil, List.getLast?_append, Option.map_or, ← h.settled]
      exact hsettled

theorem Inv.behind (hi : Inv readEventBody s) {position : ℕ} (h : s.reached.2 = some position) :
    ∃ before after, s.log = before ++ .progress position :: after ∧
      eventsIn readEventBody before <+: s.handed := by
  rw [hi.reached_eq] at h
  obtain ⟨mark, hlast, rfl⟩ := Option.map_eq_some_iff.mp h
  obtain ⟨hmark, hdue⟩ := List.mem_filter.mp (List.mem_of_getLast? hlast)
  obtain ⟨before, after, hlog, hcount⟩ := mem_marksFrom hmark
  refine ⟨before, after, hlog, ?_⟩
  have hbefore : eventsIn readEventBody before <+: eventsIn readEventBody s.log := by
    rw [hlog, eventsIn_progress]
    exact List.prefix_append _ _
  refine List.prefix_of_prefix_length_le hbefore hi.inOrder ?_
  rw [hcount, Nat.zero_add] at hdue
  exact of_decide_eq_true hdue

theorem Inv.latest (hi : Inv readEventBody s) {before after : List Arrival} {position : ℕ}
    (hlog : s.log = before ++ .progress position :: after)
    (hbefore : eventsIn readEventBody before <+: s.handed)
    (hlater : ∀ between later rest, after = between ++ .progress later :: rest →
      ¬ eventsIn readEventBody (before ++ between) <+: s.handed) :
    s.reached.2 = some position := by
  have hnone : (marksFrom readEventBody (0 + (eventsIn readEventBody before).length) after).filter
      (fun mark => mark.after ≤ s.handed.length) = [] := by
    refine List.filter_eq_nil_iff.mpr fun mark hmark hdue => ?_
    obtain ⟨between, rest, hafter, hcount⟩ := mem_marksFrom hmark
    refine hlater between mark.position rest hafter ?_
    have hwithin : eventsIn readEventBody (before ++ between) <+: eventsIn readEventBody s.log := by
      rw [hlog, hafter, eventsIn_progress, eventsIn_progress, eventsIn_append, ← List.append_assoc]
      exact List.prefix_append _ _
    refine List.prefix_of_prefix_length_le hwithin hi.inOrder ?_
    rw [eventsIn_append, List.length_append]
    rw [decide_eq_true_eq, hcount, Nat.zero_add] at hdue
    exact hdue
  have hdue : decide (0 + (eventsIn readEventBody before).length ≤ s.handed.length) = true := by
    rw [Nat.zero_add]
    exact decide_eq_true hbefore.length_le
  rw [hi.reached_eq, hlog, marksFrom_append, marksFrom, List.filter_append, List.filter_cons,
    if_pos hdue,
    hnone, List.getLast?_concat]
  rfl

theorem Inv.exact (hi : Inv readEventBody s) : Exact readEventBody s where
  available := hi.available
  inOrder := hi.inOrder
  complete := hi.complete
  behind := fun _ h => hi.behind h
  notAhead := by
    intro hserver position hposition event hevent
    obtain ⟨before, after, hlog, hbefore⟩ := hi.behind hposition
    refine hserver before position after hlog event ?_
    rw [hlog, eventsIn_progress, List.drop_append, List.drop_eq_nil_of_le hbefore.length_le,
      List.nil_append] at hevent
    exact List.mem_of_mem_drop hevent
  latest := fun _ _ _ => hi.latest
  credit := by
    intro hrunning hall
    rw [← hi.records, hi.received, ← hall, ← hi.taken, hi.granted hrunning]
    have hmargin := hi.margin hrunning
    omega

end Invariant

/-- In every run in which the frames hold only events, and no position is lost by
closing, the bookkeeping is exact. -/
theorem bookkeeping_exact {E : Type} (readEventBody : Bytes → Option (E × Bytes)) {credits : ℕ}
    (hcredits : 0 < credits) {s : State E}
    (h : Reach (step readEventBody) (fun s a => steady readEventBody s a = true)
      (initial E credits) s) :
    Exact readEventBody s :=
  (h.invariant (inv_initial hcredits) fun _ _ _ _ hi hok hstep => hi.step hok hstep).exact

/-- A body of one byte. -/
def readByte (bytes : Bytes) : Option (ℕ × Bytes) := readU8 bytes

/-- A record: its length, its flags, and behind them a position and a byte. -/
def recordBytes (flags sequence value : UInt8) : Bytes :=
  [10, 0, 0, 0, flags, sequence, 0, 0, 0, 0, 0, 0, 0, value]

/-- Two events arrive and a position behind them; one is peeked at, and both are
taken. The credits are granted again, and the position is reported. -/
theorem exact_after_two :
    ∃ s, Exact readByte s ∧ s.reached.2 = some 9 ∧ s.hasNextAvailable = false := by
  obtain ⟨s, hs, hreached, hnone⟩ := reach_guarded_any (s := initial ℕ 2)
    (P := fun s => s.reached.2 = some 9 ∧ s.hasNextAvailable = false)
    (show ((exec (guarded (step readByte) fun s a => steady readByte s a = true) (initial ℕ 2)
      [.opened, .frame 0x8102 0 ([2, 0, 0, 0] ++ recordBytes 0 3 1 ++ recordBytes 0 5 2),
        .frame 0x8103 0 [9, 0, 0, 0, 0, 0, 0, 0], .peek, .progress, .next, .next]).any
          fun s => decide _) = true by decide +kernel)
  exact ⟨s, bookkeeping_exact readByte (by decide) hs, hreached, hnone⟩

/-- One record that is not an event: `hasNextAvailable` says there is an event, `next`
returns none and `hasNextAvailable` says so again. The position that arrived behind
the record is not reported, and the credit spent on it is not granted again. -/
theorem other_record_waits_for_ever :
    ∃ s, Reach (step readByte) always (initial ℕ 1) s ∧ s.hasNextAvailable = true ∧
      (s.next readByte).2 = none ∧ (s.next readByte).1.hasNextAvailable = true ∧
      s.log = [.batch ⟨1, recordBytes 1 3 1⟩, .progress 9] ∧ s.reached.2 = none ∧
      s.completed = false ∧ s.granted = recordsIn s.log := by
  obtain ⟨s, hs, hp⟩ := reach_exec_any (s := initial ℕ 1)
    (P := fun s => s.hasNextAvailable = true ∧
      (s.next readByte).2 = none ∧ (s.next readByte).1.hasNextAvailable = true ∧
      s.log = [.batch ⟨1, recordBytes 1 3 1⟩, .progress 9] ∧ s.reached.2 = none ∧
      s.completed = false ∧ s.granted = recordsIn s.log)
    (show ((exec (step readByte) (initial ℕ 1)
      [.opened, .frame 0x8102 0 ([1, 0, 0, 0] ++ recordBytes 1 3 1),
        .frame 0x8103 0 [9, 0, 0, 0, 0, 0, 0, 0], .next]).any fun s => decide _) = true by
      decide +kernel)
  exact ⟨s, hs, hp⟩

end Kronos.KronosDb.Subscription
