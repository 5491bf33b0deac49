import Mathlib.Algebra.Order.Ring.Int
import Kronos.EventSourcing.DcbQuery

/-!
# The Axon Server event store

The server keeps one log; the sequence of an event is its index there, and the
head is the sequence of the next one. Which events meet a criterion is the
server's to say, and so is the consistency marker of a read, within its contract:
a marker is no higher than the head, and no event at or above it was returned. A
read from beyond the head is refused, and `sourceOnce` turns the refusal into an
empty answer. An append is refused when an event at or above the marker of its
condition meets the criteria.
-/
namespace Kronos.AxonServer.EventStore
open Kronos.EventSourcing

variable {P W : Type}

structure Criterion where
  name : List String
  tag : List Tag
  deriving DecidableEq, Repr

mutual

def criteriaToCriterions : EventCriteria → List Criterion
  | .tags tags => [⟨[], tags⟩]
  | .typeRestricted inner types =>
      [⟨types, match inner with
        | .tags tags => tags
        | _ => []⟩]
  | .either criteria => flattenCriterions criteria
  | .anyTag => [⟨[], []⟩]

def flattenCriterions : List EventCriteria → List Criterion
  | [] => []
  | c::criteria => criteriaToCriterions c ++ flattenCriterions criteria

end

/-- An event on the wire; `content` is its identifier, payload and metadata. -/
structure TaggedEvent (W : Type) where
  name : String
  content : W
  tag : List Tag
  deriving DecidableEq, Repr

/-- What the converters make of the content of an event. -/
structure Converters (P W : Type) where
  toProto : P → W
  fromProto : W → P

/-- The last dot parts the namespace from the name. -/
def qualifiedNameFromString (fqn : String) : QualifiedName :=
  let backwards := fqn.toList.reverse
  match backwards.dropWhile (fun c => c ≠ '.') with
  | [] => ⟨"", fqn⟩
  | _::nspace =>
      ⟨String.ofList nspace.reverse, String.ofList (backwards.takeWhile (fun c => c ≠ '.')).reverse⟩

def eventToProto (converters : Converters P W) (event : EventMessage P) : TaggedEvent W :=
  ⟨qualifiedNameToString event.name, converters.toProto event.content, event.tags⟩

def eventFromProto (converters : Converters P W) (event : TaggedEvent W) (tags : List Tag) :
    EventMessage P :=
  ⟨qualifiedNameFromString event.name, tags, converters.fromProto event.content⟩

/-- What the server answers to a `Source`. -/
inductive SourceReply (W : Type) where
  | outOfRange
  | stream (events : List (TaggedEvent W)) (consistencyMarker : ℕ)

inductive AppendError where
  | query (message : String)
  | refused
  deriving DecidableEq, Repr

section Store
variable (meets : Criterion → TaggedEvent W → Bool) (converters : Converters P W)

/-- The event meets one of the criterions. -/
def matching (criterions : List Criterion) (event : TaggedEvent W) : Bool :=
  criterions.any fun criterion => meets criterion event

/-- The server's side of a `Source`; `none` when it may not answer with that marker. -/
def serveSource (log : List (TaggedEvent W)) (criterions : List Criterion) (fromSequence : ℤ)
    (marker : ℕ) : Option (SourceReply W) :=
  if (log.length : ℤ) < fromSequence then some .outOfRange
  else if marker ≤ log.length ∧
      (log.drop (max fromSequence.toNat marker)).any (matching meets criterions) = false then
    some (.stream ((log.drop fromSequence.toNat).filter (matching meets criterions)) marker)
  else none

/-- The server's check of a `ConsistencyCondition`. -/
def conflicts (log : List (TaggedEvent W)) (criterions : List Criterion) (marker : ℤ) : Bool :=
  (log.drop marker.toNat).any (matching meets criterions)

/-- The events and the marker a reply stands for. -/
def readReply (start : ℤ) : SourceReply W → List (EventMessage P) × ℤ
  -- Reading past the head is an empty answer.
  | .outOfRange => ([], if 0 < start then start - 1 else -1)
  -- The server does not echo tags.
  | .stream events marker => (events.map fun event => eventFromProto converters event [], marker)

def sourceOnce (log : List (TaggedEvent W)) (query : EventQuery) (start : Option ℤ) (marker : ℕ) :
    Option (Except String (List (EventMessage P) × ℤ)) :=
  match compileQuery query with
  | .error e => some (.error e)
  | .ok criteria =>
      (serveSource meets log (criteriaToCriterions criteria) (start.getD 0) marker).map fun reply =>
        .ok (readReply converters (start.getD 0) reply)

/-- The log after the append. -/
def appendEvents (log : List (TaggedEvent W)) (newEvents : List (EventMessage P))
    (condition : Option (EventQuery × ℤ)) : Except AppendError (List (TaggedEvent W)) :=
  match condition with
  | none => .ok (log ++ newEvents.map (eventToProto converters))
  | some (query, marker) =>
      match compileQuery query with
      | .error e => .error (.query e)
      | .ok criteria =>
          if conflicts meets log (criteriaToCriterions criteria) marker then .error .refused
          else .ok (log ++ newEvents.map (eventToProto converters))

/-- The matching events of a log, as a read decodes them. -/
def decoded (criteria : EventCriteria) (log : List (TaggedEvent W)) : List (EventMessage P) :=
  (log.filter (matching meets (criteriaToCriterions criteria))).map fun event =>
    eventFromProto converters event []

end Store

section Lemmas
variable {meets : Criterion → TaggedEvent W → Bool} {converters : Converters P W}
  {log log' : List (TaggedEvent W)} {criteria : EventCriteria}

theorem decoded_append (later : List (TaggedEvent W)) :
    decoded meets converters criteria (log ++ later) =
      decoded meets converters criteria log ++ decoded meets converters criteria later := by
  unfold decoded
  rw [List.filter_append, List.map_append]

/-- The matching events, cut at a sequence. -/
theorem decoded_split (meets : Criterion → TaggedEvent W → Bool) (converters : Converters P W)
    (criteria : EventCriteria) (log : List (TaggedEvent W)) (n : ℕ) :
    decoded meets converters criteria log =
      decoded meets converters criteria (log.take n) ++
        decoded meets converters criteria (log.drop n) := by
  rw [← decoded_append, List.take_append_drop]

theorem decoded_eq_nil
    (h : log.any (matching meets (criteriaToCriterions criteria)) = false) :
    decoded meets converters criteria log = [] := by
  unfold decoded
  rw [List.any_eq_false] at h
  rw [List.filter_eq_nil_iff.mpr h, List.map_nil]

/-- An event that does not match may be left out. -/
theorem decoded_drop_succ {n : ℕ}
    (h : log[n]?.any (matching meets (criteriaToCriterions criteria)) = false) :
    decoded meets converters criteria (log.drop n) =
      decoded meets converters criteria (log.drop (n + 1)) := by
  rcases Nat.lt_or_ge n log.length with hn | hn
  · rw [List.getElem?_eq_getElem hn, Option.any_some] at h
    unfold decoded
    rw [List.drop_eq_getElem_cons hn, List.filter_cons_of_neg (Bool.eq_false_iff.mp h)]
  · rw [List.drop_eq_nil_of_le hn, List.drop_eq_nil_of_le (Nat.le_succ_of_le hn)]

/-- A read that returns something has all matching events below its marker. -/
theorem decoded_take_marker {n marker : ℕ}
    (hnone : (log.drop (max n marker)).any (matching meets (criteriaToCriterions criteria)) = false)
    (hsome : decoded meets converters criteria (log.drop n) ≠ []) :
    decoded meets converters criteria (log.take marker) =
      decoded meets converters criteria log := by
  have hlt : n < marker := by
    by_contra hle
    rw [Nat.max_eq_left (Nat.le_of_not_lt hle)] at hnone
    exact hsome (decoded_eq_nil hnone)
  rw [Nat.max_eq_right hlt.le] at hnone
  rw [decoded_split meets converters criteria log marker, decoded_eq_nil hnone, List.append_nil]

/-- The two answers a read can come back with. -/
theorem sourceOnce_cases {query : EventQuery} {start : Option ℤ} {marker : ℕ} {m : ℤ}
    {events : List (EventMessage P)}
    (h : sourceOnce meets converters log query start marker = some (.ok (events, m))) :
    ∃ criteria, compileQuery query = .ok criteria ∧
      ((log.length < start.getD 0 ∧ events = [] ∧ m = start.getD 0 - 1) ∨
        (start.getD 0 ≤ log.length ∧ m = marker ∧ marker ≤ log.length ∧
          (log.drop (max (start.getD 0).toNat marker)).any
            (matching meets (criteriaToCriterions criteria)) = false ∧
          events = decoded meets converters criteria (log.drop (start.getD 0).toNat))) := by
  unfold sourceOnce at h
  cases hquery : compileQuery query with
  | error e =>
      rw [hquery] at h
      cases h
  | ok criteria =>
      rw [hquery] at h
      obtain ⟨reply, hreply, hread⟩ := Option.map_eq_some_iff.mp h
      refine ⟨criteria, rfl, ?_⟩
      unfold serveSource at hreply
      split_ifs at hreply with hpast hok
      · cases hreply
        left
        have hpos : 0 < start.getD 0 := by omega
        simp only [readReply, if_pos hpos, Except.ok.injEq, Prod.mk.injEq] at hread
        exact ⟨hpast, hread.1.symm, hread.2.symm⟩
      · cases hreply
        right
        simp only [readReply, Except.ok.injEq, Prod.mk.injEq] at hread
        exact ⟨not_lt.mp hpast, hread.2.symm, hok.1, hok.2, hread.1.symm⟩

theorem sourceOnce_error {query : EventQuery} {start : Option ℤ} {marker : ℕ} {e : String}
    (h : sourceOnce meets converters log query start marker = some (.error e)) :
    compileQuery query = .error e := by
  unfold sourceOnce at h
  cases hquery : compileQuery query with
  | error e' =>
      rw [hquery] at h
      cases h
      rfl
  | ok criteria =>
      rw [hquery] at h
      obtain ⟨reply, -, hread⟩ := Option.map_eq_some_iff.mp h
      cases hread

/-- The log only grows. -/
theorem appendEvents_grows {newEvents : List (EventMessage P)} {condition : Option (EventQuery × ℤ)}
    (h : appendEvents meets converters log newEvents condition = .ok log') :
    ∃ later, log' = log ++ later := by
  unfold appendEvents at h
  split at h
  · cases h
    exact ⟨_, rfl⟩
  · split at h
    · cases h
    · split_ifs at h
      cases h
      exact ⟨_, rfl⟩

/-- A matching event at or above the marker has the append refused. -/
theorem appendEvents_refused {query : EventQuery} {newEvents : List (EventMessage P)} {marker : ℤ}
    {n : ℕ} (hquery : compileQuery query = .ok criteria) (hmarker : marker ≤ n)
    (h : (log.drop n).any (matching meets (criteriaToCriterions criteria)) = true) :
    appendEvents meets converters log newEvents (some (query, marker)) = .error .refused := by
  have hconflict : conflicts meets log (criteriaToCriterions criteria) marker = true := by
    obtain ⟨event, hmem, hmatch⟩ := List.any_eq_true.mp h
    have hle : marker.toNat ≤ n := Int.toNat_le.mpr hmarker
    have hdrop : log.drop n = (log.drop marker.toNat).drop (n - marker.toNat) := by
      rw [List.drop_drop, Nat.add_sub_cancel' hle]
    rw [hdrop] at hmem
    exact List.any_eq_true.mpr ⟨event, List.mem_of_mem_drop hmem, hmatch⟩
  simp only [appendEvents, hquery]
  exact if_pos hconflict

end Lemmas

end Kronos.AxonServer.EventStore
