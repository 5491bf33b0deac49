import Mathlib.Data.List.DropRight
import Mathlib.Data.List.Pairwise
import Kronos.EventSourcing.InMemory

/-!
# Append transactions and streams of the in-memory store

`appendEvents` pushes what it stages straight into the log and remembers where
it began; a rollback pops from the end down to that place. A stream holds a
cursor and finds the first matching entry at or above it on every call.

Listeners and their callbacks carry no events and are left out.
-/
namespace Kronos.EventSourcing

variable {P : Type}

structure AppendTransaction where
  startPosition : ℕ
  endPosition : ℤ
  committed : Bool
  deriving DecidableEq, Repr

namespace AppendTransaction
variable (transaction : AppendTransaction)

def commit : AppendTransaction := { transaction with committed := true }

def afterCommit : ℤ := transaction.endPosition

/-- Nothing happens once the transaction is committed. -/
def rollback (store : InMemoryEventStore P) : InMemoryEventStore P :=
  if transaction.committed then store
  else ⟨store.events.rdropWhile fun entry => decide (transaction.startPosition ≤ entry.position),
    transaction.startPosition⟩

end AppendTransaction

def InMemoryEventStore.appendEvents (store : InMemoryEventStore P)
    (newEvents : List (EventMessage P)) (condition : Option AppendCondition) :
    Except String AppendTransaction × InMemoryEventStore P :=
  match store.checkCondition condition with
  | .error e => (.error e, store)
  | .ok () =>
      let after := newEvents.foldl InMemoryEventStore.push store
      (.ok ⟨store.nextPosition, after.nextPosition - 1, false⟩, after)

structure MessageStream where
  cursor : ℕ
  criteria : Option EventCriteria
  closed : Bool

/-- `open`: a query that does not compile throws. -/
def openStream (query : Option EventQuery) (position : ℕ) : Except String MessageStream :=
  match query with
  | none => .ok ⟨position, none, false⟩
  | some query => do return ⟨position, some (← compileQuery query), false⟩

namespace MessageStream
variable (stream : MessageStream)

/-- Whether the stream is after this entry. -/
def wants (entry : Entry P) : Bool :=
  decide (stream.cursor ≤ entry.position) &&
    match stream.criteria with
    | none => true
    | some criteria => matchesCriteria entry.event criteria

def findNext (store : InMemoryEventStore P) : Option (Entry P) :=
  if stream.closed then none else store.events.find? stream.wants

def next (store : InMemoryEventStore P) : Option (Entry P) × MessageStream :=
  match stream.findNext store with
  | some item => (some item, { stream with cursor := item.position + 1 })
  | none => (none, stream)

def peek (store : InMemoryEventStore P) : Option (Entry P) := stream.findNext store

def close : MessageStream := { stream with closed := true }

end MessageStream

namespace InMemoryEventStore

/-- Positions rise along the log and the next one is above them all. -/
structure Rising (store : InMemoryEventStore P) : Prop where
  increasing : store.events.Pairwise fun a b => a.position < b.position
  below : ∀ entry ∈ store.events, entry.position < store.nextPosition

variable {store : InMemoryEventStore P}

theorem rising_empty : Rising (⟨[], 0⟩ : InMemoryEventStore P) where
  increasing := .nil
  below := by
    intro entry hentry
    cases hentry

theorem Rising.push (h : store.Rising) (event : EventMessage P) : (store.push event).Rising where
  increasing := by
    refine List.pairwise_append.mpr ⟨h.increasing, List.pairwise_singleton _ _, ?_⟩
    intro a ha b hb
    rw [List.mem_singleton.mp hb]
    exact h.below a ha
  below := by
    intro entry hentry
    rcases List.mem_append.mp hentry with hold | hnew
    · exact Nat.lt_succ_of_lt (h.below entry hold)
    · rw [List.mem_singleton.mp hnew]
      exact Nat.lt_succ_self _

theorem Rising.position_injective (h : store.Rising) {a b : Entry P} (ha : a ∈ store.events)
    (hb : b ∈ store.events) (hpos : a.position = b.position) : a = b := by
  by_contra hne
  have hdiff : store.events.Pairwise fun a b => a.position ≠ b.position :=
    h.increasing.imp fun hab => Nat.ne_of_lt hab
  have : Std.Symm fun a b : Entry P => a.position ≠ b.position := ⟨fun _ _ hab => hab.symm⟩
  exact hdiff.forall ha hb hne hpos

/-- What pushing a list of events adds: one entry each, from the next position on. -/
theorem push_all (newEvents : List (EventMessage P)) (h : store.Rising) :
    (newEvents.foldl InMemoryEventStore.push store).Rising ∧
      ∃ added, (newEvents.foldl InMemoryEventStore.push store).events = store.events ++ added ∧
        ∀ entry ∈ added, store.nextPosition ≤ entry.position ∧ entry.event ∈ newEvents := by
  induction newEvents generalizing store with
  | nil =>
      refine ⟨h, [], (List.append_nil _).symm, ?_⟩
      intro entry hentry
      cases hentry
  | cons event newEvents ih =>
      obtain ⟨hrising, added, hevents, hadded⟩ := ih (h.push event)
      refine ⟨hrising, ⟨store.nextPosition, event⟩::added, ?_, ?_⟩
      · rw [List.foldl_cons, hevents, InMemoryEventStore.push, List.append_assoc,
          List.singleton_append]
      · intro entry hentry
        rcases List.mem_cons.mp hentry with rfl | hmem
        · exact ⟨le_refl _, List.mem_cons_self⟩
        · obtain ⟨hpos, hevent⟩ := hadded entry hmem
          exact ⟨Nat.le_of_succ_le hpos, List.mem_cons_of_mem _ hevent⟩

theorem filter_eq_filter_iff {α : Type} {p q : α → Bool} {l : List α} :
    l.filter p = l.filter q ↔ ∀ a ∈ l, p a = q a := by
  constructor
  · intro h a ha
    have hiff : a ∈ l.filter p ↔ a ∈ l.filter q := by rw [h]
    rw [List.mem_filter, List.mem_filter, and_iff_right ha, and_iff_right ha] at hiff
    exact Bool.eq_iff_iff.mpr hiff
  · exact List.filter_congr

/-- Popping down to a position leaves what stands below it. -/
theorem rdropWhile_eq_filter {events : List (Entry P)}
    (h : events.Pairwise fun a b => a.position < b.position) (start : ℕ) :
    events.rdropWhile (fun entry => decide (start ≤ entry.position)) =
      events.filter fun entry => decide (entry.position < start) := by
  induction events using List.reverseRecOn with
  | nil => rfl
  | append_singleton events last ih =>
      obtain ⟨hbefore, -, hlast⟩ := List.pairwise_append.mp h
      rw [List.rdropWhile_concat, List.filter_append]
      by_cases hstart : start ≤ last.position
      · have hnot : ¬ last.position < start := Nat.not_lt.mpr hstart
        rw [if_pos (decide_eq_true hstart), ih hbefore, List.filter_singleton, decide_eq_false hnot]
        exact (List.append_nil _).symm
      · have hlt : last.position < start := Nat.not_le.mp hstart
        have hall : ∀ entry ∈ events, decide (entry.position < start) = true := by
          intro entry hentry
          exact decide_eq_true ((hlast entry hentry last (List.mem_singleton_self _)).trans hlt)
        rw [if_neg (by simpa using hlt), List.filter_eq_self.mpr hall, List.filter_singleton,
          decide_eq_true hlt]
        rfl

end InMemoryEventStore

end Kronos.EventSourcing
