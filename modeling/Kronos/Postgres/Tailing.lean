import Mathlib.Data.List.Sort
import Kronos.Processing.SharedStreamCommitOrder

/-!
# Tailing the event table

A transaction is given an id before it inserts, its rows are given positions
when they are inserted, and both become visible when it commits, in any order.
A stream reads the rows in `(transaction_id, sequence_position)` order and only
those of transactions below the snapshot's `xmin`, all of which have finished.

Each statement is one action and sees the table as it stands then; its result
arrives in a later action. `xmin` is any bound that no running id is below and
that does not go back: Postgres gives the least running id. The timer and the
notifications that start a fetch, and closing, are left out: a fetch may happen
at any time while none is in flight.
-/
namespace Kronos.Postgres.Tailing
open Kronos.Lib.Transition Kronos.Lib.Window Kronos.Processing Kronos.Processing.SharedStream

variable {E : Type}

structure Row (E : Type) where
  transactionId : ℕ
  sequencePosition : ℕ
  event : E
  deriving DecidableEq, Repr

/-- The order of the stream. -/
def Row.key (r : Row E) : Place := toLex (r.transactionId, r.sequencePosition)

structure Database (E : Type) where
  rows : List (Row E)
  running : List ℕ
  aborted : List ℕ
  nextXid : ℕ
  nextPosition : ℕ
  xmin : ℕ

namespace Database
variable (db : Database E)

def committed (r : Row E) : Bool :=
  decide (r.transactionId ∉ db.running) && decide (r.transactionId ∉ db.aborted)

/-- What a statement sees below the watermark. -/
def visible (r : Row E) : Bool := db.committed r && decide (r.transactionId < db.xmin)

end Database

/-- Where `fetchBatch` is. -/
inductive Phase (E : Type) where
  | idle
  /-- The rows of the fetch have not arrived yet. -/
  | fetched (rows : List (Row E))
  /-- The fetch came back empty and `lookPast` has not run. -/
  | dry
  | looked (newest : Option Place)

structure Stream (E : Type) where
  query : Option (E → Bool)
  /-- Where it was opened. -/
  opened : Place
  cursor : Option ℕ × ℕ
  buffer : List (Row E)
  /-- What the reader has taken. -/
  handed : List (Row E)
  looked : Option Place
  phase : Phase E
  /-- How many fetches of at least one row have run. -/
  fetches : ℕ

namespace Stream
variable (st : Stream E)

def accepts (r : Row E) : Bool :=
  match st.query with
  | none => true
  | some query => query r.event

/-- The condition on the cursor in both statements: by position alone until the
cursor has a transaction id. -/
def after (r : Row E) : Bool :=
  match st.cursor with
  | (none, position) => decide (position < r.sequencePosition)
  | (some xid, position) => decide (toLex (xid, position) < r.key)

/-- Everything the stream has buffered. -/
def buffered : List (Row E) := st.handed ++ st.buffer

def inFlight : List (Row E) :=
  match st.phase with
  | .fetched rows => rows
  | _ => []

def progressToken : Option Place :=
  if st.query.isSome && st.buffer.isEmpty then st.looked else none

/-- The rows ahead of the cursor that match, below the watermark. -/
def pending (db : Database E) : List (Row E) :=
  (db.rows.filter fun r => db.visible r && st.after r && st.accepts r).insertionSort
    fun a b => a.key ≤ b.key

def fetchBatch (db : Database E) (limit : ℕ) : Stream E :=
  { st with
    phase := .fetched ((st.pending db).take limit)
    fetches := if limit = 0 then st.fetches else st.fetches + 1 }

/-- The newest row below the watermark, when nothing that matches is ahead. -/
def lookPast (db : Database E) : Stream E :=
  let newest := ((db.rows.filter db.visible).insertionSort fun a b => a.key ≤ b.key).getLast?
  { st with phase := .looked (if (st.pending db).isEmpty then newest.map Row.key else none) }

/-- The rows of a fetch arrive. -/
def receive (rows : List (Row E)) : Stream E :=
  match rows.getLast? with
  | some last =>
      { st with
        buffer := st.buffer ++ rows
        cursor := (some last.transactionId, last.sequencePosition)
        looked := none
        phase := .idle }
  | none =>
      if st.query.isSome then { st with phase := .dry }
      else { st with looked := none, phase := .idle }

def receiveLooked (newest : Option Place) : Stream E :=
  match newest with
  | some place =>
      { st with
        cursor := (some (ofLex place).1, (ofLex place).2), looked := some place, phase := .idle }
  | none => { st with looked := none, phase := .idle }

end Stream

structure State (E : Type) where
  db : Database E
  streams : ℕ → Option (Stream E)
  /-- The tokens the streams have handed out, with their events or as progress. -/
  minted : List Place

inductive Action (E : Type) where
  | assign
  | insert (xid : ℕ) (event : E)
  | commit (xid : ℕ)
  | rollback (xid : ℕ)
  | watermark (xmin : ℕ)
  | openStream (i : ℕ) (position : ℕ) (token : Option (TrackingToken ℕ)) (query : Option (E → Bool))
  | fetch (i : ℕ) (limit : ℕ)
  | lookPast (i : ℕ)
  | receive (i : ℕ)
  | next (i : ℕ)
  | progress (i : ℕ)

/-- The first id Postgres gives is 3. -/
def initial : State E := ⟨⟨[], [], [], 3, 1, 3⟩, fun _ => none, []⟩

/-- A stream is opened at position 0, or at a token the engine has minted. -/
def opensAt (minted : List Place) : Option ℕ × ℕ → Bool
  | (none, position) => decide (position = 0)
  | (some xid, position) => decide (toLex (xid, position) ∈ minted)

namespace Database
variable (db : Database E)

/-- What transactions do. -/
def step : Action E → Option (Database E)
  | .assign => some { db with running := db.running ++ [db.nextXid], nextXid := db.nextXid + 1 }
  | .insert xid event =>
      if xid ∈ db.running then
        some { db with
          rows := db.rows ++ [⟨xid, db.nextPosition, event⟩], nextPosition := db.nextPosition + 1 }
      else none
  | .commit xid =>
      if xid ∈ db.running then some { db with running := db.running.filter (· ≠ xid) } else none
  | .rollback xid =>
      if xid ∈ db.running then
        some { db with running := db.running.filter (· ≠ xid), aborted := db.aborted ++ [xid] }
      else none
  | .watermark xmin =>
      if db.xmin ≤ xmin ∧ xmin ≤ db.nextXid ∧ ∀ xid ∈ db.running, xmin ≤ xid then
        some { db with xmin := xmin }
      else none
  | _ => none

end Database

def State.setStream (s : State E) (i : ℕ) (st : Stream E) : State E :=
  { s with streams := fun j => if j = i then some st else s.streams j }

/-- `open`. -/
def openStream (position : ℕ) (token : Option (TrackingToken ℕ)) (query : Option (E → Bool)) :
    Stream E :=
  let cursor := (commitStore : Store ℕ E _).cursorAt position token
  ⟨query, cursorPlace cursor, cursor, [], [], none, .idle, 0⟩

/-- What a stream and its reader do: the stream after it, and the token handed out. -/
def Stream.step (db : Database E) (st : Stream E) : Action E → Option (Stream E × List Place)
  | .fetch _ limit =>
      match st.phase with
      | .idle => some (st.fetchBatch db limit, [])
      | _ => none
  | .lookPast _ =>
      match st.phase with
      | .dry => some (st.lookPast db, [])
      | _ => none
  | .receive _ =>
      match st.phase with
      | .fetched rows => some (st.receive rows, [])
      | .looked newest => some (st.receiveLooked newest, [])
      | _ => none
  | .next _ =>
      match st.buffer with
      | [] => none
      | r::rest => some ({ st with buffer := rest, handed := st.handed ++ [r] }, [r.key])
  | .progress _ => some (st, st.progressToken.toList)
  | _ => none

/-- The stream an action is about, for the actions of a stream. -/
def Action.stream? : Action E → Option ℕ
  | .fetch i _ => some i
  | .lookPast i => some i
  | .receive i => some i
  | .next i => some i
  | .progress i => some i
  | _ => none

def step (s : State E) (a : Action E) : Option (State E) :=
  match a.stream? with
  | some i => do
      let st ← s.streams i
      let (st', tokens) ← st.step s.db a
      some { s.setStream i st' with minted := s.minted ++ tokens }
  | none =>
      match a with
      | .openStream i position token query =>
          let st := openStream position token query
          if (s.streams i).isNone ∧ opensAt s.minted st.cursor then some (s.setStream i st)
          else none
      | _ => (s.db.step a).map fun db => { s with db := db }

end Kronos.Postgres.Tailing
