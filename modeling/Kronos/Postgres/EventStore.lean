import Mathlib.Data.List.Sort
import Mathlib.Data.Int.Order.Basic
import Mathlib.Algebra.Order.Ring.Int
import Kronos.EventSourcing.InMemory

/-!
# Reading and appending on Postgres

A read is one statement outside any transaction. An append runs inside one: it
takes its advisory locks one statement at a time, checks for conflicts, then
inserts its events one by one. A row is given its position when it is inserted
and becomes visible to others when its transaction commits; the advisory locks
are let go after that. A transaction may make several appends.

Statements are the actions, so those of different transactions interleave in
any order. A lock that is not free makes its transaction wait. What a read
returned is kept, to be compared with the table when an append conditioned on
it commits.
-/
namespace Kronos.Postgres.EventStore
open Kronos.Lib.Transition Kronos.EventSourcing

variable {P : Type}

/-- ASCII unit separator. -/
def tagDelimiter : String := "\x1f"

def encodeTag (key value : String) : String := key ++ tagDelimiter ++ value

def encodedTagsOf (e : EventMessage P) : List String := e.tags.map fun t => encodeTag t.key t.value

mutual

/-- What the clause of `buildCriteriaWhere` says of a row. -/
def matchesWhere (event : EventMessage P) : EventCriteria → Bool
  | .anyTag => decide (0 < (encodedTagsOf event).length)
  | .tags tags => tags.all fun t => (encodedTagsOf event).contains (encodeTag t.key t.value)
  | .typeRestricted inner types =>
      matchesWhere event inner && types.contains (qualifiedNameToString event.name)
  | .either criteria => matchesSome event criteria

def matchesSome (event : EventMessage P) : List EventCriteria → Bool
  | [] => false
  | c::criteria => matchesWhere event c || matchesSome event criteria

end

def matchesQuery (event : EventMessage P) (query : EventQuery) : Bool :=
  match compileQuery query with
  | .ok criteria => matchesWhere event criteria
  | .error _ => false

mutual

def extractCriteriaTags : EventCriteria → List String
  | .tags tags => tags.map fun t => encodeTag t.key t.value
  | .anyTag => []
  | .typeRestricted inner _ => extractCriteriaTags inner
  | .either criteria => extractTags criteria

def extractTags : List EventCriteria → List String
  | [] => []
  | c::criteria => extractCriteriaTags c ++ extractTags criteria

end

/-- The tags the condition of an append reads. -/
def readTags : Option AppendCondition → Except String (List String)
  | some condition => (compileQuery condition.query).map extractCriteriaTags
  | none => .ok []

/-- The tags an append reads and writes. -/
def lockTargetsFor (condition : Option AppendCondition) (events : List (EventMessage P)) :
    Except String (List String) := do
  let read ← readTags condition
  return (read ++ events.flatMap encodedTagsOf).eraseDups

def fnvOffsetBasis : ℕ := 0xcbf29ce484222325

def fnvPrime : ℕ := 0x100000001b3

/-- FNV-1a over the UTF-8 bytes, as a signed 64-bit number. -/
def hashLockKey (input : String) : ℤ :=
  let h := input.toUTF8.toList.foldl
    (fun h byte => ((h ^^^ byte.toNat) % 2 ^ 64 * fnvPrime) % 2 ^ 64) fnvOffsetBasis
  if 2 ^ 63 ≤ h then (h : ℤ) - 2 ^ 64 else h

def leafKey (type tag : String) : ℤ :=
  hashLockKey ("L" ++ tagDelimiter ++ type ++ tagDelimiter ++ tag)

def typeIntentKey (type : String) : ℤ := hashLockKey ("T" ++ tagDelimiter ++ type)

def globalIntentKey : ℤ := hashLockKey "G"

structure Lock where
  key : ℤ
  exclusive : Bool
  deriving DecidableEq, Repr

def Lock.conflicts (a b : Lock) : Bool := (a.exclusive || b.exclusive) && decide (a.key = b.key)

def uniqueSorted (keys : List ℤ) : List ℤ := keys.eraseDups.insertionSort (· ≤ ·)

/-- The locks `acquireWriteLocks` asks for, in its order. Every target has the type `""`. -/
def writeLocks (targets : List String) : List Lock :=
  if targets.isEmpty then [⟨globalIntentKey, false⟩]
  else (uniqueSorted (targets.map (leafKey ""))).map (⟨·, true⟩) ++
    [⟨typeIntentKey "", false⟩, ⟨globalIntentKey, false⟩]

structure Row (P : Type) where
  sequencePosition : ℕ
  transaction : ℕ
  event : EventMessage P
  deriving DecidableEq

/-- A `source` that returned. -/
structure Read (P : Type) where
  query : EventQuery
  start : ℕ
  rows : List (Row P)
  marker : ℤ

/-- What an append was called with: the events, the condition, and the reads the
condition covers. -/
structure Append (P : Type) where
  events : List (EventMessage P)
  condition : Option AppendCondition
  reads : List (Read P)

inductive Phase (P : Type) where
  | idle
  | locking (todo : List Lock) (append : Append P)
  | checking (append : Append P)
  | inserting (events : List (EventMessage P))
  /-- An error: the transaction can only be rolled back. -/
  | failed

inductive Status where
  | active
  | committed
  | aborted
  deriving DecidableEq, Repr

structure Transaction (P : Type) where
  phase : Phase P
  status : Status
  held : List Lock
  /-- The reads whose check has passed. -/
  passed : List (Read P)

/-- An append that committed: a read it was conditioned on, and the rows other
transactions had committed before it. -/
structure Decision (P : Type) where
  read : Read P
  before : List (Row P)

structure State (P : Type) where
  rows : List (Row P)
  nextPosition : ℕ
  reads : List (Read P)
  transactions : ℕ → Transaction P
  /-- How many transactions have been begun. -/
  begun : ℕ
  decisions : List (Decision P)

inductive Action (P : Type) where
  | source (query : EventQuery) (start : ℕ)
  | transaction
  | append (t : ℕ) (events : List (EventMessage P)) (condition : Option AppendCondition)
      (reads : List ℕ)
  | acquire (t : ℕ)
  | check (t : ℕ)
  | insert (t : ℕ)
  | commit (t : ℕ)
  | rollback (t : ℕ)
  | release (t : ℕ)

def initial : State P := ⟨[], 1, [], fun _ => ⟨.idle, .active, [], []⟩, 0, []⟩

namespace State
variable (s : State P)

def status (t : ℕ) : Status := (s.transactions t).status

def setTransaction (t : ℕ) (tx : Transaction P) : State P :=
  { s with transactions := fun u => if u = t then tx else s.transactions u }

def setPhase (t : ℕ) (phase : Phase P) : State P :=
  s.setTransaction t { s.transactions t with phase := phase }

/-- `t` inserts a row, which is given the next position, and goes on. -/
def insertRow (t : ℕ) (event : EventMessage P) (phase : Phase P) : State P :=
  { s.setPhase t phase with
    rows := s.rows ++ [⟨s.nextPosition, t, event⟩], nextPosition := s.nextPosition + 1 }

def committedRows : List (Row P) := s.rows.filter fun r =>
    decide (s.status r.transaction = .committed)

/-- What a statement inside `t` sees. -/
def visibleTo (t : ℕ) : List (Row P) :=
  s.rows.filter fun r => decide (r.transaction = t) || decide (s.status r.transaction = .committed)

/-- Nobody else holds a lock that conflicts. -/
def free (t : ℕ) (lock : Lock) : Bool :=
  (List.range s.begun).all fun u =>
    decide (u = t) || (s.transactions u).held.all fun other => !lock.conflicts other

/-- `sourcePlain`. The rows stand in the order of their positions. -/
def sourcePlain (query : EventQuery) (start : ℕ) : Except String (Read P) := do
  let criteria ← compileQuery query
  let rows := s.committedRows.filter fun r =>
    decide (start ≤ r.sequencePosition) && matchesWhere r.event criteria
  let marker : ℤ := match rows.getLast? with
    | some r => r.sequencePosition
    | none => (start : ℤ) - 1
  return ⟨query, start, rows, marker⟩

end State

/-- Whether the items of one query are all in another. -/
def covers (query part : EventQuery) : Bool :=
  match queryItems query, queryItems part with
  | .ok all, .ok items => items.all fun item => decide (item ∈ all)
  | _, _ => false

/-- The reads a condition is checked by. -/
def checkedReads (condition : AppendCondition) : List AppendConditionRead :=
  condition.reads.getD [⟨condition.query, condition.marker⟩]

/-- A condition on the markers of these reads, its query covering theirs: what a
flush builds, and `appendCondition(query, marker)` for a single read. -/
def conditionedOn (reads : List (Read P)) : Option AppendCondition → Bool
  | none => reads.isEmpty
  | some condition =>
      decide ((checkedReads condition).map (fun r => (r.query, r.marker)) =
        reads.map fun r => (r.query, r.marker)) &&
      reads.all fun r => covers condition.query r.query

/-- The conflict check of `checkAndInsert`, over the rows its statement sees. -/
def conflictCheck (rows : List (Row P)) : Option AppendCondition → Except String Unit
  | none => .ok ()
  | some condition => do
      let clauses ← (checkedReads condition).mapM fun read => do
        return (← compileQuery read.query, read.marker)
      let conflicting := rows.filter fun r => clauses.any fun clause =>
        decide (clause.2 < r.sequencePosition) && matchesWhere r.event clause.1
      if 0 < conflicting.length then
        throw ("Append condition violated: " ++ toString conflicting.length ++
          " conflicting event(s) after position " ++ toString condition.marker)

/-- One statement. -/
def step (s : State P) : Action P → Option (State P)
  | .source query start =>
      match s.sourcePlain query start with
      | .ok read => some { s with reads := s.reads ++ [read] }
      | .error _ => some s
  | .transaction => some { s with begun := s.begun + 1 }
  | .append t events condition reads =>
      let reads := reads.filterMap fun k => s.reads[k]?
      match (s.transactions t).phase with
      | .idle =>
          if t < s.begun ∧ s.status t = .active then
            match lockTargetsFor condition events with
            | .error _ => some (s.setPhase t .failed)
            | .ok targets =>
                -- Reads that the condition is not on have no part in the append.
                let on := if conditionedOn reads condition then reads else []
                some (s.setPhase t (.locking (writeLocks targets) ⟨events, condition, on⟩))
          else none
      | _ => none
  | .acquire t =>
      match (s.transactions t).phase with
      | .locking [] append => some (s.setPhase t (.checking append))
      | .locking (lock::todo) append =>
          if s.status t = .active ∧ s.free t lock then
            some (s.setTransaction t { s.transactions t with
              phase := .locking todo append, held := (s.transactions t).held ++ [lock] })
          else none
      | _ => none
  | .check t =>
      match (s.transactions t).phase with
      | .checking append =>
          match conflictCheck (s.visibleTo t) append.condition with
          | .error _ => some (s.setPhase t .failed)
          | .ok () =>
              -- Without an event to insert, `checkAndInsert` throws.
              if append.events.isEmpty then some (s.setPhase t .failed)
              else some (s.setTransaction t { s.transactions t with
                phase := .inserting append.events
                passed := (s.transactions t).passed ++ append.reads })
      | _ => none
  | .insert t =>
      match (s.transactions t).phase with
      | .inserting (event::rest) =>
          some (s.insertRow t event (if rest.isEmpty then .idle else .inserting rest))
      | _ => none
  | .commit t =>
      match (s.transactions t).phase with
      | .idle =>
          if t < s.begun ∧ s.status t = .active then
            let done := s.setTransaction t { s.transactions t with status := .committed }
            some { done with
              decisions := s.decisions ++
                (s.transactions t).passed.map fun read => ⟨read, s.committedRows⟩ }
          else none
      | _ => none
  | .rollback t =>
      if t < s.begun ∧ s.status t = .active then
        some (s.setTransaction t { s.transactions t with phase := .failed, status := .aborted })
      else none
  | .release t =>
      if s.status t ≠ .active then
        some (s.setTransaction t { s.transactions t with held := [] })
      else none

/-- The tags one item asks for. -/
def itemTags (item : QueryItem) : List String :=
  (item.tags.getD []).map fun entry => encodeTag entry.1 entry.2

/-- Every two items of the query ask for tags that lock a common key; a single
item is paired with itself. -/
def Linked (query : EventQuery) : Prop :=
  ∀ items, queryItems query = .ok items → ∀ i ∈ items, ∀ j ∈ items,
    ∃ a ∈ itemTags i, ∃ b ∈ itemTags j, leafKey "" a = leafKey "" b

end Kronos.Postgres.EventStore
