import Kronos.EventSourcing.InMemoryStreams

/-!
# Staged appends over one in-memory log

Any number of append transactions, plain appends, reads and open streams share
one log. An event is known by the call that made it and its place in that call,
so two events of equal content stay apart. `visible` collects every entry that
was committed, plainly appended or returned to a reader.

Staging writes into the shared log, so a reader can meet what is not committed
and a rollback can pop what others wrote. `undisturbed` says when neither
happens; the two exact conditions are compared with `Isolated` step by step.
-/
namespace Kronos.EventSourcing.StagedAppends
open Kronos.Lib.Transition

variable {P : Type}

/-- The content of an event with the call that made it. -/
structure Staged (P : Type) where
  call : ℕ
  index : ℕ
  content : P
  deriving DecidableEq

def stamp (call : ℕ) (newEvents : List (EventMessage P)) : List (EventMessage (Staged P)) :=
  newEvents.mapIdx fun index event => ⟨event.name, event.tags, ⟨call, index, event.content⟩⟩

def callOf (entry : Entry (Staged P)) : ℕ := entry.event.content.call

structure State (P : Type) where
  store : InMemoryEventStore (Staged P)
  /-- The calls that wrote: a transaction, or nothing for a plain append. -/
  calls : List (Option AppendTransaction)
  streams : List MessageStream
  visible : List (Entry (Staged P))

def initial : State P := ⟨⟨[], 0⟩, [], [], []⟩

inductive Action (P : Type) where
  | appendEvents (newEvents : List (EventMessage P)) (condition : Option AppendCondition)
  | commit (i : ℕ)
  | rollback (i : ℕ)
  | append (newEvents : List (EventMessage P)) (condition : Option AppendCondition)
  | source (query : EventQuery) (start : Option ℕ)
  | openStream (query : Option EventQuery) (position : ℕ)
  | next (j : ℕ)
  | peek (j : ℕ)
  | close (j : ℕ)

namespace State
variable (s : State P)

def transaction (i : ℕ) : Option AppendTransaction := s.calls[i]?.join

/-- Committed, or appended without a transaction. -/
def durable (call : ℕ) : Bool :=
  match s.transaction call with
  | some transaction => transaction.committed
  | none => true

def entriesOf (call : ℕ) : List (Entry (Staged P)) :=
  s.store.events.filter fun entry => decide (callOf entry = call)

/-- The entries whose events an action hands to its caller. -/
def returned : Action P → List (Entry (Staged P))
  | .source query start =>
      match compileQuery query with
      | .error _ => []
      | .ok criteria =>
          (s.store.events.filter fun entry => decide (start.getD 0 ≤ entry.position)).filter
          fun entry => matchesCriteria entry.event criteria
  | .next j => (s.streams[j]?.bind fun stream => (stream.next s.store).1).toList
  | .peek j => (s.streams[j]?.bind fun stream => stream.peek s.store).toList
  | _ => []

/-- What the action returns has been seen. -/
def deliver (a : Action P) : State P := { s with visible := s.visible ++ s.returned a }

/-- The entries of a call are there for good. -/
def publish (call : ℕ) : State P := { s with visible := s.visible ++ s.entriesOf call }

end State

def step (s : State P) : Action P → Option (State P)
  | .appendEvents newEvents condition =>
      let result := s.store.appendEvents (stamp s.calls.length newEvents) condition
      match result.1 with
      | .error _ => some s
      | .ok transaction =>
          some { s with store := result.2, calls := s.calls ++ [some transaction] }
  | .commit i => (s.transaction i).map fun transaction =>
      State.publish { s with calls := s.calls.set i (some transaction.commit) } i
  | .rollback i => (s.transaction i).map fun transaction =>
      { s with store := transaction.rollback s.store }
  | .append newEvents condition =>
      let result := s.store.append (stamp s.calls.length newEvents) condition
      match result.1 with
      | .error _ => some s
      | .ok _ =>
          some (State.publish { s with
            store := result.2, calls := s.calls ++ [none] } s.calls.length)
  | .source query start => some (s.deliver (.source query start))
  | .openStream query position =>
      match openStream query position with
      | .error _ => some s
      | .ok stream => some { s with streams := s.streams ++ [stream] }
  | .next j => s.streams[j]?.map fun stream =>
      { s.deliver (.next j) with streams := s.streams.set j (stream.next s.store).2 }
  | .peek j => s.streams[j]?.map fun _ => s.deliver (.peek j)
  | .close j => s.streams[j]?.map fun stream => { s with streams := s.streams.set j stream.close }

/-- What one step owes the others. -/
structure Isolated (s : State P) (a : Action P) (t : State P) : Prop where
  /-- A rollback removes its own staged events and no others. -/
  rollback_exact : ∀ i, a = .rollback i → t.store.events =
    s.store.events.filter fun entry => s.durable i || decide (callOf entry ≠ i)
  durable_kept : ∀ entry ∈ s.store.events, s.durable (callOf entry) = true → entry ∈ t.store.events
  returned_durable : ∀ entry ∈ s.returned a, s.durable (callOf entry) = true
  positions_unique : ∀ entry ∈ t.visible, ∀ entry' ∈ t.visible,
    entry.position = entry'.position → entry = entry'

/-- A stream that would find a staged event first finds a durable one before it. -/
def clear (s : State P) (stream : MessageStream) : Bool :=
  stream.closed || s.store.events.all fun entry =>
    !stream.wants entry || s.durable (callOf entry) || s.store.events.any fun earlier =>
      decide (earlier.position < entry.position) && stream.wants earlier &&
        s.durable (callOf earlier)

/-- No read matches a staged event, and a rollback finds only its own above its start. -/
def undisturbed (s : State P) : Action P → Bool
  | .rollback i => (s.transaction i).all fun transaction =>
      transaction.committed || s.store.events.all fun entry =>
        decide (entry.position < transaction.startPosition) || decide (callOf entry = i)
  | .source query start =>
      match compileQuery query with
      | .error _ => true
      | .ok criteria => s.store.events.all fun entry =>
          !(decide (start.getD 0 ≤ entry.position) && matchesCriteria entry.event criteria) ||
            s.durable (callOf entry)
  | .next j => s.streams[j]?.all (clear s)
  | .peek j => s.streams[j]?.all (clear s)
  | _ => true

/-- What is returned is what the store's own `source` answers with. -/
theorem source_returned {s : State P} {query : EventQuery} {start : Option ℕ}
    {result : SourcingResult (Staged P)} (h : s.store.source query start = .ok result) :
    result.events = (s.returned (.source query start)).map Entry.event := by
  unfold InMemoryEventStore.source at h
  cases hq : compileQuery query with
  | error e =>
      rw [hq] at h
      cases h
  | ok criteria =>
      rw [hq] at h
      cases h
      simp only [State.returned, hq]

variable {s t : State P} {a : Action P}

theorem clear_iff (h : s.store.Rising) (stream : MessageStream) :
    clear s stream = true ↔
      ∀ entry ∈ (stream.findNext s.store).toList, s.durable (callOf entry) = true := by
  unfold clear MessageStream.findNext
  cases hclosed : stream.closed with
  | true => simp
  | false =>
      simp only [Bool.false_or, Bool.false_eq_true, if_false, List.all_eq_true, Bool.or_eq_true,
        Bool.not_eq_true', List.any_eq_true, Bool.and_eq_true, decide_eq_true_eq, Option.mem_toList]
      constructor
      · intro hclear first hfirst
        obtain ⟨hwants, before, after, hevents, hskipped⟩ := List.find?_eq_some_iff_append.mp hfirst
        have hmem : first ∈ s.store.events := by
          rw [hevents]
          exact List.mem_append_right _ List.mem_cons_self
        rcases hclear first hmem with (hno | hdurable) | ⟨earlier, hearlier, ⟨hlt, hw⟩, -⟩
        · rw [hwants] at hno
          cases hno
        · exact hdurable
        · -- what stands below the first find was passed over
          have hinc := h.increasing
          rw [hevents] at hearlier hinc
          obtain ⟨-, htail, -⟩ := List.pairwise_append.mp hinc
          rcases List.mem_append.mp hearlier with hbefore | htl
          · have hnot := hskipped earlier hbefore
            rw [hw] at hnot
            cases hnot
          · rcases List.mem_cons.mp htl with rfl | hafter
            · exact absurd hlt (Nat.lt_irrefl _)
            · exact absurd hlt (Nat.lt_asymm ((List.pairwise_cons.mp htail).1 earlier hafter))
      · intro hfound entry hentry
        cases hwants : stream.wants entry with
        | false => exact Or.inl (Or.inl rfl)
        | true =>
            cases hdurable : s.durable (callOf entry) with
            | true => exact Or.inl (Or.inr rfl)
            | false =>
                refine Or.inr ?_
                cases hfirst : s.store.events.find? stream.wants with
                | none =>
                    have hnone := List.find?_eq_none.mp hfirst entry hentry
                    exact absurd hwants hnone
                | some first =>
                    have hd := hfound first hfirst
                    obtain ⟨hw, before, after, hevents, hskipped⟩ :=
                      List.find?_eq_some_iff_append.mp hfirst
                    refine ⟨first, List.mem_of_find?_eq_some hfirst, ⟨?_, hw⟩, hd⟩
                    have hinc := h.increasing
                    rw [hevents] at hentry hinc
                    obtain ⟨-, htail, -⟩ := List.pairwise_append.mp hinc
                    rcases List.mem_append.mp hentry with hbefore | htl
                    · have hnot := hskipped entry hbefore
                      rw [hwants] at hnot
                      cases hnot
                    · rcases List.mem_cons.mp htl with rfl | hafter
                      · rw [hd] at hdurable
                        cases hdurable
                      · exact (List.pairwise_cons.mp htail).1 entry hafter

/-- A read is undisturbed exactly when all it returns is durable. -/
theorem undisturbed_source_iff (query : EventQuery) (start : Option ℕ) :
    undisturbed s (.source query start) = true ↔
      ∀ entry ∈ s.returned (.source query start), s.durable (callOf entry) = true := by
  simp only [undisturbed, State.returned]
  cases compileQuery query with
  | error e => simp
  | ok criteria =>
      simp only [List.all_eq_true, Bool.or_eq_true, Bool.not_eq_true', List.mem_filter]
      constructor
      · rintro h entry ⟨⟨hentry, hstart⟩, hmatches⟩
        rcases h entry hentry with hno | hdurable
        · rw [hstart, hmatches] at hno
          cases hno
        · exact hdurable
      · intro h entry hentry
        cases hread :
          (decide (start.getD 0 ≤ entry.position) && matchesCriteria entry.event criteria) with
        | false => exact Or.inl rfl
        | true =>
            obtain ⟨hstart, hmatches⟩ := Bool.and_eq_true_iff.mp hread
            exact Or.inr (h entry ⟨⟨hentry, hstart⟩, hmatches⟩)

theorem next_fst (stream : MessageStream) (store : InMemoryEventStore P) :
    (stream.next store).1 = stream.findNext store := by
  unfold MessageStream.next
  cases stream.findNext store with
  | none => rfl
  | some item => rfl

theorem undisturbed_next_iff (h : s.store.Rising) (j : ℕ) : undisturbed s (.next j) = true ↔
    ∀ entry ∈ s.returned (.next j), s.durable (callOf entry) = true := by
  simp only [undisturbed, State.returned]
  cases s.streams[j]? with
  | none => simp
  | some stream =>
      rw [Option.bind_some, next_fst]
      exact clear_iff h stream

theorem undisturbed_peek_iff (h : s.store.Rising) (j : ℕ) : undisturbed s (.peek j) = true ↔
    ∀ entry ∈ s.returned (.peek j), s.durable (callOf entry) = true := by
  simp only [undisturbed, State.returned]
  cases s.streams[j]? with
  | none => simp
  | some stream => exact clear_iff h stream

/-- What holds of every state reached by undisturbed steps. -/
structure Inv (s : State P) : Prop where
  rising : s.store.Rising
  made : ∀ entry ∈ s.store.events, callOf entry < s.calls.length
  started : ∀ entry ∈ s.store.events, ∀ transaction,
    s.transaction (callOf entry) = some transaction → transaction.startPosition ≤ entry.position
  kept : ∀ entry ∈ s.visible, entry ∈ s.store.events ∧ s.durable (callOf entry) = true

theorem inv_initial : Inv (initial : State P) where
  rising := InMemoryEventStore.rising_empty
  made := by
    intro entry hentry
    cases hentry
  started := by
    intro entry hentry
    cases hentry
  kept := by
    intro entry hentry
    cases hentry

theorem stamp_call {call : ℕ} {newEvents : List (EventMessage P)} {event : EventMessage (Staged P)}
    (h : event ∈ stamp call newEvents) : event.content.call = call := by
  obtain ⟨i, hi, rfl⟩ := List.mem_mapIdx.mp h
  rfl

/-- A call that wrote does not change what earlier calls are. -/
theorem transaction_append {calls : List (Option AppendTransaction)} {i : ℕ}
    (hi : i < s.calls.length) (hcalls : t.calls = s.calls ++ calls) :
    t.transaction i = s.transaction i := by
  unfold State.transaction
  rw [hcalls, List.getElem?_append_left hi]

theorem durable_congr {i : ℕ} (h : t.transaction i = s.transaction i) :
    t.durable i = s.durable i := by
  unfold State.durable
  rw [h]

/-- A call adds its entries at the end, whether in a transaction or not. -/
theorem Inv.grow (h : Inv s) {newEvents : List (EventMessage P)} {call : Option AppendTransaction}
    (hcall : ∀ transaction, call = some transaction →
      transaction.startPosition = s.store.nextPosition)
    (hstore : t.store = (stamp s.calls.length newEvents).foldl InMemoryEventStore.push s.store)
    (hcalls : t.calls = s.calls ++ [call]) (hvisible : t.visible = s.visible) : Inv t := by
  obtain ⟨hrising, added, hevents, hadded⟩ :=
    InMemoryEventStore.push_all (stamp s.calls.length newEvents) h.rising
  rw [← hstore] at hrising hevents
  have hnew : ∀ entry ∈ added, callOf entry = s.calls.length :=
    fun entry hentry => stamp_call (hadded entry hentry).2
  refine ⟨hrising, ?_, ?_, ?_⟩
  · intro entry hentry
    rw [hcalls, List.length_append, List.length_singleton]
    rw [hevents] at hentry
    rcases List.mem_append.mp hentry with hold | hadd
    · exact Nat.lt_succ_of_lt (h.made entry hold)
    · rw [hnew entry hadd]
      exact Nat.lt_succ_self _
  · intro entry hentry transaction htransaction
    rw [hevents] at hentry
    rcases List.mem_append.mp hentry with hold | hadd
    · rw [transaction_append (h.made entry hold) hcalls] at htransaction
      exact h.started entry hold transaction htransaction
    · have hlast : t.transaction (callOf entry) = call := by
        unfold State.transaction
        rw [hcalls, hnew entry hadd, List.getElem?_concat_length]
        rfl
      rw [hcall transaction (hlast.symm.trans htransaction)]
      exact (hadded entry hadd).1
  · intro entry hentry
    rw [hvisible] at hentry
    obtain ⟨hmem, hdurable⟩ := h.kept entry hentry
    refine ⟨by rw [hevents]; exact List.mem_append_left _ hmem, ?_⟩
    rw [durable_congr (transaction_append (h.made entry hmem) hcalls)]
    exact hdurable

/-- Adding durable entries of the log to what was seen. -/
theorem Inv.see (h : Inv s) {entries : List (Entry (Staged P))}
    (hentries : ∀ entry ∈ entries, entry ∈ s.store.events ∧ s.durable (callOf entry) = true) :
    Inv { s with visible := s.visible ++ entries } where
  rising := h.rising
  made := h.made
  started := h.started
  kept := by
    intro entry hentry
    rcases List.mem_append.mp hentry with hold | hnew
    · exact h.kept entry hold
    · exact hentries entry hnew

theorem Inv.publish (h : Inv s) {call : ℕ} (hcall : s.durable call = true) :
    Inv (s.publish call) := by
  refine h.see ?_
  intro entry hentry
  obtain ⟨hmem, hof⟩ := List.mem_filter.mp hentry
  refine ⟨hmem, ?_⟩
  rw [of_decide_eq_true hof]
  exact hcall

theorem mem_of_returned {entry : Entry (Staged P)} (h : entry ∈ s.returned a) :
    entry ∈ s.store.events := by
  have hfind : ∀ stream : MessageStream, ∀ entry ∈ stream.findNext s.store,
      entry ∈ s.store.events := by
    intro stream entry hentry
    unfold MessageStream.findNext at hentry
    split_ifs at hentry
    · cases hentry
    · exact List.mem_of_find?_eq_some hentry
  cases a with
  | source query start =>
      simp only [State.returned] at h
      split at h
      · cases h
      · exact (List.mem_filter.mp (List.mem_filter.mp h).1).1
  | next j =>
      obtain ⟨stream, -, hnext⟩ := Option.bind_eq_some_iff.mp (Option.mem_toList.mp h)
      rw [next_fst] at hnext
      exact hfind stream entry hnext
  | peek j =>
      obtain ⟨stream, -, hpeek⟩ := Option.bind_eq_some_iff.mp (Option.mem_toList.mp h)
      exact hfind stream entry hpeek
  | appendEvents newEvents condition => cases h
  | commit i => cases h
  | rollback i => cases h
  | append newEvents condition => cases h
  | openStream query position => cases h
  | close j => cases h

theorem transaction_lt {i : ℕ} {transaction : AppendTransaction}
    (h : s.transaction i = some transaction) : i < s.calls.length := by
  have hcall : s.calls[i]? = some (some transaction) := Option.join_eq_some_iff.mp h
  exact (List.getElem?_eq_some_iff.mp hcall).1

theorem transaction_set {i : ℕ} (hi : i < s.calls.length)
    (transaction : AppendTransaction) (j : ℕ) :
    ({ s with calls := s.calls.set i (some transaction) } : State P).transaction j =
      if i = j then some transaction else s.transaction j := by
  unfold State.transaction
  rw [List.getElem?_set]
  split_ifs with hij
  · rfl
  · rfl

theorem durable_of_transaction {i : ℕ} {transaction : AppendTransaction}
    (h : s.transaction i = some transaction) : s.durable i = transaction.committed := by
  unfold State.durable
  rw [h]

/-- A commit moves no entry and keeps what was durable. -/
theorem Inv.commit (h : Inv s) {i : ℕ} {transaction : AppendTransaction}
    (hi : s.transaction i = some transaction) :
    Inv (State.publish { s with calls := s.calls.set i (some transaction.commit) } i) := by
  have hlook := transaction_set (transaction_lt hi) transaction.commit
  have hdone : Inv { s with calls := s.calls.set i (some transaction.commit) } := by
    refine ⟨h.rising, ?_, ?_, ?_⟩
    · intro entry hentry
      rw [List.length_set]
      exact h.made entry hentry
    · intro entry hentry other hother
      rw [hlook] at hother
      split_ifs at hother with heq
      · cases hother
        exact h.started entry hentry transaction (by rw [← heq, hi])
      · exact h.started entry hentry other hother
    · intro entry hentry
      obtain ⟨hmem, hdurable⟩ := h.kept entry hentry
      refine ⟨hmem, ?_⟩
      by_cases heq : i = callOf entry
      · rw [durable_of_transaction ((hlook _).trans (if_pos heq))]
        rfl
      · rw [durable_congr ((hlook _).trans (if_neg heq))]
        exact hdurable
  refine hdone.publish ?_
  rw [durable_of_transaction ((hlook i).trans (if_pos rfl))]
  rfl

/-- What a rollback leaves in the log. -/
theorem rollback_events (h : s.store.Rising) (transaction : AppendTransaction) :
    (transaction.rollback s.store).events = s.store.events.filter fun entry =>
      transaction.committed || decide (entry.position < transaction.startPosition) := by
  unfold AppendTransaction.rollback
  cases transaction.committed with
  | true => simp
  | false =>
      rw [if_neg Bool.false_ne_true, InMemoryEventStore.rdropWhile_eq_filter h.increasing]
      rfl

/-- What is durable is not what a rollback takes for its own. -/
theorem durable_or_other {entry : Entry (Staged P)} (i : ℕ)
    (h : s.durable (callOf entry) = true) : (s.durable i || decide (callOf entry ≠ i)) = true := by
  by_cases hcall : callOf entry = i
  · rw [← hcall, h]
    rfl
  · rw [decide_eq_true hcall, Bool.or_true]

/-- A rollback removes its own events and no others exactly when undisturbed. -/
theorem rollback_exact_iff (h : Inv s) {i : ℕ} {transaction : AppendTransaction}
    (hi : s.transaction i = some transaction) :
    (transaction.rollback s.store).events =
        (s.store.events.filter fun entry => s.durable i || decide (callOf entry ≠ i)) ↔
      undisturbed s (.rollback i) = true := by
  rw [rollback_events h.rising, InMemoryEventStore.filter_eq_filter_iff, durable_of_transaction hi]
  simp only [undisturbed, hi, Option.all_some]
  cases transaction.committed with
  | true => simp
  | false =>
      simp only [Bool.false_or, List.all_eq_true, Bool.or_eq_true, decide_eq_true_eq,
        decide_eq_decide]
      refine forall₂_congr ?_
      intro entry hentry
      constructor
      · intro hiff
        by_cases hcall : callOf entry = i
        · exact Or.inr hcall
        · exact Or.inl (hiff.mpr hcall)
      · rintro hor
        constructor
        · intro hlt hcall
          rw [← hcall] at hi
          exact absurd (h.started entry hentry transaction hi) (Nat.not_le.mpr hlt)
        · intro hcall
          exact hor.resolve_right hcall

/-- An undisturbed rollback. -/
theorem Inv.rollback (h : Inv s) {i : ℕ} {transaction : AppendTransaction}
    (hi : s.transaction i = some transaction) (hok : undisturbed s (.rollback i) = true) :
    Inv { s with store := transaction.rollback s.store } := by
  have hevents := (rollback_exact_iff h hi).mpr hok
  have hsub : ∀ entry ∈ (transaction.rollback s.store).events, entry ∈ s.store.events := by
    intro entry hentry
    rw [hevents] at hentry
    exact (List.mem_filter.mp hentry).1
  refine ⟨⟨?_, ?_⟩, fun entry hentry => h.made entry (hsub entry hentry),
    fun entry hentry => h.started entry (hsub entry hentry), ?_⟩
  · change (transaction.rollback s.store).events.Pairwise _
    rw [hevents]
    exact h.rising.increasing.filter _
  · intro entry hentry
    have hpos := hentry
    change entry ∈ (transaction.rollback s.store).events at hpos
    rw [rollback_events h.rising] at hpos
    have htest := (List.mem_filter.mp hpos).2
    change entry.position < (transaction.rollback s.store).nextPosition
    unfold AppendTransaction.rollback
    cases hcommitted : transaction.committed with
    | true => exact h.rising.below entry (hsub entry hentry)
    | false =>
        rw [hcommitted, Bool.false_or] at htest
        exact of_decide_eq_true htest
  · intro entry hentry
    obtain ⟨hmem, hdurable⟩ := h.kept entry hentry
    refine ⟨?_, hdurable⟩
    change entry ∈ (transaction.rollback s.store).events
    rw [hevents]
    exact List.mem_filter.mpr ⟨hmem, durable_or_other i hdurable⟩

/-- The state with the events of one more call at the end of the log. -/
def State.grown (s : State P) (newEvents : List (EventMessage P))
    (call : Option AppendTransaction) :
    State P :=
  { s with
    store := (stamp s.calls.length newEvents).foldl InMemoryEventStore.push s.store
    calls := s.calls ++ [call] }

/-- What a step can do. -/
inductive Effect (s : State P) : Action P → State P → Prop
  | rolledBack {i : ℕ} {transaction : AppendTransaction} (hi : s.transaction i = some transaction) :
      Effect s (.rollback i) { s with store := transaction.rollback s.store }
  | committed {i : ℕ} {transaction : AppendTransaction} (hi : s.transaction i = some transaction) :
      Effect s (.commit i)
        (State.publish { s with calls := s.calls.set i (some transaction.commit) } i)
  | staged {newEvents : List (EventMessage P)} {condition : Option AppendCondition}
      {transaction : AppendTransaction}
      (hstart : transaction.startPosition = s.store.nextPosition) :
      Effect s (.appendEvents newEvents condition) (s.grown newEvents (some transaction))
  | appended {newEvents : List (EventMessage P)} {condition : Option AppendCondition} :
      Effect s (.append newEvents condition) ((s.grown newEvents none).publish s.calls.length)
  | read {a : Action P} {streams : List MessageStream} (ha : ∀ i, a ≠ .rollback i) :
      Effect s a { s.deliver a with streams := streams }

/-- A step that returns nothing and leaves the log alone. -/
theorem effect_idle {streams : List MessageStream} (ha : ∀ i, a ≠ .rollback i)
    (hreturned : s.returned a = []) : Effect s a { s with streams := streams } := by
  have h : Effect s a { s.deliver a with streams := streams } := .read ha
  unfold State.deliver at h
  rw [hreturned, List.append_nil] at h
  exact h

theorem step_effect (hstep : step s a = some t) : Effect s a t := by
  cases a with
  | appendEvents newEvents condition =>
      simp only [step, InMemoryEventStore.appendEvents] at hstep
      cases hcheck : s.store.checkCondition condition with
      | error e =>
          rw [hcheck] at hstep
          cases hstep
          exact effect_idle (fun i h => by cases h) rfl
      | ok u =>
          rw [hcheck] at hstep
          cases hstep
          exact .staged rfl
  | commit i =>
      obtain ⟨transaction, hi, rfl⟩ := Option.map_eq_some_iff.mp hstep
      exact .committed hi
  | rollback i =>
      obtain ⟨transaction, hi, rfl⟩ := Option.map_eq_some_iff.mp hstep
      exact .rolledBack hi
  | append newEvents condition =>
      simp only [step, InMemoryEventStore.append] at hstep
      cases hcheck : s.store.checkCondition condition with
      | error e =>
          rw [hcheck] at hstep
          cases hstep
          exact effect_idle (fun i h => by cases h) rfl
      | ok u =>
          rw [hcheck] at hstep
          cases hstep
          exact .appended
  | source query start =>
      cases hstep
      exact .read fun i h => by cases h
  | openStream query position =>
      simp only [step] at hstep
      split at hstep
      · cases hstep
        exact effect_idle (fun i h => by cases h) rfl
      · cases hstep
        exact effect_idle (fun i h => by cases h) rfl
  | next j =>
      obtain ⟨stream, -, rfl⟩ := Option.map_eq_some_iff.mp hstep
      exact .read fun i h => by cases h
  | peek j =>
      obtain ⟨stream, -, rfl⟩ := Option.map_eq_some_iff.mp hstep
      exact .read fun i h => by cases h
  | close j =>
      obtain ⟨stream, -, rfl⟩ := Option.map_eq_some_iff.mp hstep
      exact effect_idle (fun i h => by cases h) rfl

/-- Outside rollbacks the condition is that all that is returned is durable. -/
theorem undisturbed_iff (h : s.store.Rising) (ha : ∀ i, a ≠ .rollback i) :
    undisturbed s a = true ↔ ∀ entry ∈ s.returned a, s.durable (callOf entry) = true := by
  cases a with
  | source query start => exact undisturbed_source_iff query start
  | next j => exact undisturbed_next_iff h j
  | peek j => exact undisturbed_peek_iff h j
  | rollback i => exact absurd rfl (ha i)
  | appendEvents newEvents condition => simp [undisturbed, State.returned]
  | commit i => simp [undisturbed, State.returned]
  | append newEvents condition => simp [undisturbed, State.returned]
  | openStream query position => simp [undisturbed, State.returned]
  | close j => simp [undisturbed, State.returned]

theorem Inv.step (h : Inv s) (hok : undisturbed s a = true) (hstep : step s a = some t) :
    Inv t := by
  cases step_effect hstep with
  | rolledBack hi => exact h.rollback hi hok
  | committed hi => exact h.commit hi
  | staged hstart =>
      refine h.grow ?_ rfl rfl rfl
      intro other hother
      cases hother
      exact hstart
  | @appended newEvents =>
      have hgrown : Inv (s.grown newEvents none) :=
        h.grow (fun _ hnone => by cases hnone) rfl rfl rfl
      refine hgrown.publish ?_
      unfold State.durable State.transaction State.grown
      rw [List.getElem?_concat_length]
      rfl
  | @read _ streams ha =>
      have hseen := h.see fun entry hentry =>
        ⟨mem_of_returned hentry, (undisturbed_iff h.rising ha).mp hok entry hentry⟩
      exact ⟨hseen.rising, hseen.made, hseen.started, hseen.kept⟩

/-- Outside rollbacks nothing leaves the log. -/
theorem kept_of_not_rollback (h : Inv s) (ha : ∀ i, a ≠ .rollback i) (hstep : step s a = some t)
    {entry : Entry (Staged P)} (hentry : entry ∈ s.store.events) : entry ∈ t.store.events := by
  have hgrown : ∀ newEvents call, entry ∈ (s.grown newEvents call).store.events := by
    intro newEvents call
    obtain ⟨-, added, hevents, -⟩ :=
      InMemoryEventStore.push_all (stamp s.calls.length newEvents) h.rising
    unfold State.grown
    rw [hevents]
    exact List.mem_append_left _ hentry
  cases step_effect hstep with
  | rolledBack hi => exact absurd rfl (ha _)
  | committed hi => exact hentry
  | staged hstart => exact hgrown _ _
  | appended => exact hgrown _ none
  | read ha => exact hentry

theorem inv_of_reach (h : Reach step (fun s a => undisturbed s a = true) (initial : State P) s) :
    Inv s :=
  h.invariant inv_initial fun _ _ _ _ hinv hok hstep => hinv.step hok hstep

/-- In a run of undisturbed steps every step isolates the others, and a step
that is disturbed does not. -/
theorem staged_appends_isolated_iff
    (h : Reach step (fun s a => undisturbed s a = true) (initial : State P) s)
    (hstep : step s a = some t) : Isolated s a t ↔ undisturbed s a = true := by
  have hinv := inv_of_reach h
  constructor
  · intro hiso
    cases step_effect hstep with
    | @rolledBack i transaction hi =>
        exact (rollback_exact_iff hinv hi).mp (hiso.rollback_exact i rfl)
    | committed hi => rfl
    | staged hstart => rfl
    | appended => rfl
    | read ha => exact (undisturbed_iff hinv.rising ha).mpr hiso.returned_durable
  · intro hok
    have hafter := hinv.step hok hstep
    have hunique : ∀ entry ∈ t.visible, ∀ entry' ∈ t.visible,
        entry.position = entry'.position → entry = entry' := fun entry hentry entry' hentry' hpos =>
      hafter.rising.position_injective (hafter.kept entry hentry).1
        (hafter.kept entry' hentry').1 hpos
    by_cases ha : ∃ i, a = .rollback i
    · obtain ⟨i, rfl⟩ := ha
      obtain ⟨transaction, hi, rfl⟩ := Option.map_eq_some_iff.mp hstep
      have hexact := (rollback_exact_iff hinv hi).mpr hok
      refine ⟨?_, ?_, ?_, hunique⟩
      · intro j hj
        cases hj
        exact hexact
      · intro entry hentry hdurable
        change entry ∈ (transaction.rollback s.store).events
        rw [hexact]
        exact List.mem_filter.mpr ⟨hentry, durable_or_other i hdurable⟩
      · intro entry hentry
        cases hentry
    · have hne : ∀ i, a ≠ .rollback i := fun i hi => ha ⟨i, hi⟩
      exact ⟨fun i hi => absurd hi (hne i),
        fun entry hentry _ => kept_of_not_rollback hinv hne hstep hentry,
        (undisturbed_iff hinv.rising hne).mp hok, hunique⟩

/-- An event with no tags, of one type. -/
def opened : EventMessage Unit := ⟨⟨"shop", "Opened"⟩, [], ()⟩

def everything : EventQuery := .item ⟨none, none⟩

/-- A committed event is read, and a transaction above it rolls back. -/
theorem staged_appends_isolated_rollback : ∃ s t : State Unit,
    Reach step (fun s a => undisturbed s a = true) initial s ∧ step s (.rollback 1) = some t ∧
      s.store.events.length = 2 ∧ t.store.events.length = 1 ∧ Isolated s (.rollback 1) t := by
  obtain ⟨s, hs, hlength, hstep⟩ := reach_guarded_any
    (show ((exec (guarded step fun s a => undisturbed s a = true) (initial : State Unit)
      [.appendEvents [opened] none, .commit 0, .source everything none, .openStream none 0,
        .next 0, .appendEvents [opened] none]).any fun s => decide (s.store.events.length = 2 ∧
          (step s (.rollback 1)).any (fun t => decide (t.store.events.length = 1 ∧
            undisturbed s (.rollback 1) = true)) = true)) = true by decide +kernel)
  obtain ⟨t, ht, hone, hok⟩ := exists_of_any hstep
  exact ⟨s, t, hs, ht, hlength, hone, (staged_appends_isolated_iff hs ht).mpr hok⟩

/-- A read returns a staged event; a rollback removes a plainly appended one. -/
theorem staged_appends_not_isolated :
    (∃ s t : State Unit, Reach step always initial s ∧
      step s (.source everything none) = some t ∧ ¬ Isolated s (.source everything none) t) ∧
    ∃ s t : State Unit, Reach step always initial s ∧
      step s (.rollback 0) = some t ∧ ¬ Isolated s (.rollback 0) t := by
  constructor
  · obtain ⟨s, hs, hread⟩ := reach_exec_any
      (show ((exec step (initial : State Unit) [.appendEvents [opened] none]).any fun s =>
        decide ((s.returned (.source everything none)).any (fun e => !s.durable (callOf e)) = true))
          = true by decide +kernel)
    refine ⟨s, _, hs, rfl, ?_⟩
    intro hiso
    obtain ⟨entry, hentry, hpending⟩ := List.any_eq_true.mp hread
    rw [hiso.returned_durable entry hentry] at hpending
    cases hpending
  · obtain ⟨s, hs, hstep⟩ := reach_exec_any
      (show ((exec step (initial : State Unit)
        [.appendEvents [opened] none, .append [opened] none]).any fun s =>
          decide ((step s (.rollback 0)).any (fun t => decide (t.store.events.length = 0 ∧
            s.store.events.any (fun e => s.durable (callOf e)) = true)) = true)) = true by
              decide +kernel)
    obtain ⟨t, ht, hempty, hdurable⟩ := exists_of_any hstep
    refine ⟨s, t, hs, ht, ?_⟩
    intro hiso
    obtain ⟨entry, hentry, hd⟩ := List.any_eq_true.mp hdurable
    have hmem := hiso.durable_kept entry hentry hd
    rw [List.length_eq_zero_iff.mp hempty] at hmem
    cases hmem

end Kronos.EventSourcing.StagedAppends
