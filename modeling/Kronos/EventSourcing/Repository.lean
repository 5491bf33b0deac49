import Mathlib.Data.Int.Notation
import Kronos.EventSourcing.DcbQuery

/-!
# The repository's load

`doLoad` asks a store for the events of a query and, when the state declares a
snapshot policy, for a cached fold to start from. A cached value that does not
have the structure of the initial state is discarded, and the read is made once
more without the cache. The fold is written back to the cache when the policy
says so; nothing waits for that write.

The store is left open here: a `source` has returned, and this module says what
the repository makes of it. The clock a policy may look at is an argument.
-/
namespace Kronos.EventSourcing

inductive TypeOf where
  | boolean
  | number
  | bigint
  | string
  | symbol
  | function
  deriving DecidableEq, Repr

mutual

/-- A JavaScript value, as far as a structure check can look into it. -/
inductive JsValue where
  | undefined
  | null
  | primitive (type : TypeOf) (value : String)
  | array (items : JsItems)
  | object (fields : JsFields)

inductive JsItems where
  | nil
  | cons (item : JsValue) (items : JsItems)

inductive JsFields where
  | nil
  | cons (key : String) (value : JsValue) (fields : JsFields)

end

/-- `value === null || value === undefined`. -/
def JsValue.nullish : JsValue → Bool
  | .undefined => true
  | .null => true
  | _ => false

def JsItems.every (p : JsValue → Bool) : JsItems → Bool
  | .nil => true
  | .cons item items => p item && JsItems.every p items

/-- The own value of a key; `none` when the key is not in the object. -/
def JsFields.get (key : String) : JsFields → Option JsValue
  | .nil => none
  | .cons k value fields => if k = key then some value else fields.get key

mutual

def matchesInitialStructure : JsValue → JsValue → Bool
  | .undefined, _ => true
  | .null, _ => true
  | .array specimen, candidate =>
      match candidate with
      | .array items => matchesElement specimen items
      | _ => false
  | .object specimen, candidate =>
      match candidate with
      | .object fields => matchesFields specimen fields
      | _ => false
  | .primitive type _, candidate =>
      match candidate with
      | .primitive type' _ => decide (type' = type)
      | _ => false

/-- Element zero is the only one that teaches, unless it is null or undefined. -/
def matchesElement : JsItems → JsItems → Bool
  | .nil, _ => true
  | .cons element _, items =>
      element.nullish || items.every fun item => matchesInitialStructure element item

/-- Every key of the specimen, an `undefined` one apart, with a fitting value. -/
def matchesFields : JsFields → JsFields → Bool
  | .nil, _ => true
  | .cons key expected rest, fields =>
      (match expected with
        | .undefined => true
        | _ =>
            match fields.get key with
            | some value => matchesInitialStructure expected value
            | none => false) && matchesFields rest fields

end

structure EvolutionResult where
  eventsApplied : ℕ
  sourcingTimeMs : ℕ

structure Snapshot where
  state : JsValue
  position : ℤ

/-- A state definition with a snapshot policy. -/
structure SnapshottedState (Id P : Type) where
  query : Id → EventQuery
  initial : Id → JsValue
  evolvers : List (QualifiedName × (JsValue → EventMessage P → JsValue))
  key : String
  when : EvolutionResult → Bool

section Load
variable {Id P : Type} (d : SnapshottedState Id P)

/-- Where the fold of one id is filed. -/
def SnapshottedState.keyFor (snapshotIdentifier : Id → String) (id : Id) : String :=
  d.key ++ ":" ++ snapshotIdentifier id

theorem SnapshottedState.keyFor_injective {snapshotIdentifier : Id → String}
    (hid : Function.Injective snapshotIdentifier) :
    Function.Injective (d.keyFor snapshotIdentifier) := by
  intro id id' h
  apply hid
  have hlist := congrArg String.toList h
  simp only [keyFor, String.toList_append] at hlist
  exact String.toList_inj.mp (List.append_cancel_left hlist)

/-- The first evolver of the event's type, awaited. -/
def SnapshottedState.applyEvent (state : JsValue) (event : EventMessage P) : JsValue :=
  match d.evolvers.find? fun ev =>
      decide (qualifiedNameToString ev.1 = qualifiedNameToString event.name) with
  | some ev => ev.2 state event
  | none => state

def SnapshottedState.fold (state : JsValue) (events : List (EventMessage P)) : JsValue :=
  events.foldl d.applyEvent state

theorem fold_append (state : JsValue) (events later : List (EventMessage P)) :
    d.fold state (events ++ later) = d.fold (d.fold state events) later := List.foldl_append

/-- What a `source` came back with. -/
structure Sourced (P : Type) where
  events : List (EventMessage P)
  marker : ℤ
  snapshot : Option Snapshot

/-- What a load returns, and the snapshot it leaves to be written. -/
structure LoadResult where
  state : JsValue
  markerPosition : ℤ
  write : Option Snapshot

/-- The fold from where the load starts, and what it writes. -/
def SnapshottedState.finish (start : JsValue) (events : List (EventMessage P)) (marker : ℤ)
    (sourcingTimeMs : ℕ) : LoadResult :=
  let state := d.fold start events
  let due := decide (0 < events.length) && d.when ⟨events.length, sourcingTimeMs⟩
  ⟨state, marker, if due then some ⟨state, marker⟩ else none⟩

/-- `doLoad` up to a possible second read: `none` when the cached value is unfit. -/
def SnapshottedState.resume (id : Id) (read : Sourced P) (sourcingTimeMs : ℕ) : Option LoadResult :=
  match read.snapshot with
  | none => some (d.finish (d.initial id) read.events read.marker sourcingTimeMs)
  | some snapshot =>
      if matchesInitialStructure (d.initial id) snapshot.state then
        some (d.finish snapshot.state read.events read.marker sourcingTimeMs)
      else none

/-- The rest of it: the read was made again without the cache. -/
def SnapshottedState.replay (id : Id) (read : Sourced P) (sourcingTimeMs : ℕ) : LoadResult :=
  d.finish (d.initial id) read.events read.marker sourcingTimeMs

/-- A load of the state from a store without a cache. -/
def SnapshottedState.bare (id : Id) (read : Sourced P) : JsValue × ℤ :=
  (d.fold (d.initial id) read.events, read.marker)

/-- A write is the returned state at the returned marker, and something was folded. -/
theorem finish_write {start : JsValue} {events : List (EventMessage P)} {marker : ℤ} {time : ℕ}
    {snapshot : Snapshot} (h : (d.finish start events marker time).write = some snapshot) :
    events ≠ [] ∧ snapshot = ⟨d.fold start events, marker⟩ := by
  simp only [SnapshottedState.finish] at h
  split_ifs at h with hdue
  rw [Bool.and_eq_true, decide_eq_true_eq] at hdue
  exact ⟨List.length_pos_iff.mp hdue.1, (Option.some.inj h).symm⟩

end Load

end Kronos.EventSourcing
