import Kronos.Lib.Transition
import Kronos.Lib.Window

/-!
# Claims and tokens in a Postgres table

One row per segment holds how far the segment has been read and which node has
its claim. A claim is two statements: a `SELECT` that reads the row and decides
whether its claim has expired, then an `UPDATE` (or `INSERT`) that writes the
owner. A batch is one transaction: its deliveries and its fenced token write
take effect together at `commit`, and from the write on the transaction holds
the row's lock.

Every statement is one action, so the statements of different nodes interleave
in any order. Each brings the clock of the node that sends it; the clocks need
not agree and a node may wait as long as it likes between two of its actions.
A token is a place in the order the store's stream has, counted from one; the
row's `NULL` is the beginning.
-/
namespace Kronos.Postgres.TokenStore
open Kronos.Lib.Transition Kronos.Lib.Window

variable {N G E : Type}

structure LogEvent (E : Type) where
  place : ℕ
  event : E
  deriving DecidableEq, Repr

structure TokenRow (N : Type) where
  token : Option ℕ
  timestamp : Option ℕ
  owner : Option N
  /-- The node whose open transaction has updated the row. -/
  lock : Option N
  deriving DecidableEq, Repr

/-- What a node is doing with a segment. -/
inductive Local (E : Type) where
  | idle
  /-- Between the two statements of `claimToken`: the token of the row it read,
  or `none` when there was no row. -/
  | claiming (row : Option (Option ℕ))
  | holding (token : ℕ)
  /-- The unit of work of a batch runs. -/
  | running (token : ℕ) (batch : List (LogEvent E))
  /-- The batch's transaction has written its token and is not yet committed. -/
  | written (token : ℕ) (batch : List (LogEvent E)) (timestamp : ℕ)

/-- A committed batch. -/
structure Batch (N E : Type) where
  node : N
  events : List (LogEvent E)

/-- A claim that took effect: what it returned, and what the row held then. -/
structure Claim (N : Type) where
  node : N
  returned : Option ℕ
  stored : Option ℕ

/-- One segment: its row, what each node does with it, and what has happened to it. -/
structure Entry (N E : Type) where
  row : Option (TokenRow N)
  nodes : N → Local E
  batches : List (Batch N E)
  claims : List (Claim N)

inductive Statement (N : Type) where
  | initializeSegments
  | select (node : N) (now : ℕ)
  | insert (node : N) (now : ℕ)
  | update (node : N) (now : ℕ)
  | poll (node : N) (size : ℕ)
  | quiet (node : N) (upto : ℕ)
  | write (node : N) (now : ℕ)
  | commit (node : N)
  | rollback (node : N)
  | store (node : N) (now : ℕ)
  | release (node : N)
  | crash (node : N)

/-- Whether `claimToken` may take the row from its owner. -/
def expired (claimTimeoutMs now : ℕ) (row : TokenRow N) : Bool :=
  row.owner.isNone || match row.timestamp with
    | none => true
    | some timestamp => decide (claimTimeoutMs < now - timestamp)

/-- The token a batch ends at. -/
def endToken (token : ℕ) (batch : List (LogEvent E)) : ℕ :=
  (batch.getLast?.map LogEvent.place).getD token

namespace Entry
variable [DecidableEq N] (entry : Entry N E)

def setNode (n : N) (state : Local E) : Entry N E :=
  { entry with nodes := fun m => if m = n then state else entry.nodes m }

def setRow (row : TokenRow N) : Entry N E := { entry with row := some row }

/-- Where the row says the segment has got to. -/
def stored : ℕ :=
  match entry.row with
  | none => 0
  | some row => row.token.getD 0

/-- What committed batches have delivered, in commit order. -/
def delivered : List (LogEvent E) := entry.batches.flatMap Batch.events

/-- A claim took effect: the node goes on from the token it was given. -/
def claimed (n : N) (row : TokenRow N) (returned held : Option ℕ) : Entry N E :=
  { (entry.setRow row).setNode n (.holding (returned.getD 0)) with
    claims := entry.claims ++ [⟨n, returned, held⟩] }

/-- The transaction of a batch ends without effect. -/
def unlock (row : TokenRow N) : Entry N E := entry.setRow { row with lock := none }

/-- A batch takes effect together with its token. -/
def committed (n : N) (row : TokenRow N) (token : ℕ) (batch : List (LogEvent E))
    (timestamp : ℕ) : Entry N E :=
  { (entry.setRow { row with
        token := some (endToken token batch), timestamp := some timestamp, lock := none }).setNode
      n (.holding (endToken token batch)) with
    batches := entry.batches ++ [⟨n, batch⟩] }

/-- One statement, or what a node does between two. A statement on a locked row
waits: it is not enabled until the lock is gone, and then sees the row as it is. -/
def step (accepts : LogEvent E → Bool) (claimTimeoutMs : ℕ) (log : List (LogEvent E)) :
    Statement N → Option (Entry N E)
  | .initializeSegments =>
      match entry.row with
      | none => some (entry.setRow ⟨none, none, none, none⟩)
      | some _ => some entry
  | .select n now =>
      match entry.nodes n, entry.row with
      | .idle, none => some (entry.setNode n (.claiming none))
      | .idle, some row =>
          if row.owner = some n ∨ expired claimTimeoutMs now row then
            some (entry.setNode n (.claiming (some row.token)))
          else some entry
      | _, _ => none
  | .insert n now =>
      match entry.nodes n, entry.row with
      | .claiming none, none => some (entry.claimed n ⟨none, some now, some n, none⟩ none none)
      | .claiming none, some _ => some (entry.setNode n .idle)
      | _, _ => none
  | .update n now =>
      match entry.nodes n, entry.row with
      | .claiming (some token), some row =>
          if row.lock.isNone then
            some (entry.claimed n { row with
              owner := some n, timestamp := some now } token row.token)
          else none
      | _, _ => none
  | .poll n size =>
      match entry.nodes n with
      | .holding token =>
          let batch := (beyond LogEvent.place accepts token log).take size
          if batch.isEmpty then some entry else some (entry.setNode n (.running token batch))
      | _ => none
  | .quiet n upto =>
      match entry.nodes n with
      | .holding token =>
          -- What the stream reports as looked at: nothing of the segment's is in between.
          if token ≤ upto ∧ upto ≤ log.length ∧
              (window LogEvent.place accepts token upto log).isEmpty then
            some (entry.setNode n (.holding upto))
          else none
      | _ => none
  | .write n now =>
      match entry.nodes n, entry.row with
      | .running token batch, some row =>
          if row.lock.isNone then
            if row.owner = some n then
              some ((entry.setRow { row with lock := some n }).setNode n (.written token batch now))
            else some (entry.setNode n .idle)
          else none
      | _, _ => none
  | .commit n =>
      match entry.nodes n, entry.row with
      | .written token batch timestamp, some row =>
          some (entry.committed n row token batch timestamp)
      | _, _ => none
  | .rollback n =>
      match entry.nodes n, entry.row with
      | .running token _, _ => some (entry.setNode n (.holding token))
      | .written token _ _, some row => some ((entry.unlock row).setNode n (.holding token))
      | _, _ => none
  | .store n now =>
      match entry.nodes n, entry.row with
      | .holding token, some row =>
          if row.lock.isNone then
            if row.owner = some n then
              some (entry.setRow { row with token := some token, timestamp := some now })
            else some (entry.setNode n .idle)
          else none
      | _, _ => none
  | .release n =>
      match entry.nodes n, entry.row with
      | .holding _, some row =>
          if row.lock.isNone then
            if row.owner = some n then
              some ((entry.setRow { row with owner := none, timestamp := none }).setNode n .idle)
            else some (entry.setNode n .idle)
          else none
      | _, _ => none
  | .crash n =>
      match entry.nodes n, entry.row with
      | .written _ _ _, some row => some ((entry.unlock row).setNode n .idle)
      | _, _ => some (entry.setNode n .idle)

end Entry

structure State (N G E : Type) where
  log : List (LogEvent E)
  segments : G → Entry N E

inductive Action (N G E : Type) where
  | append (event : E)
  | run (segment : G) (statement : Statement N)

def initial : State N G E := ⟨[], fun _ => ⟨none, fun _ => .idle, [], []⟩⟩

def belongs [DecidableEq G] (segmentOf : E → G) (g : G) (e : LogEvent E) : Bool :=
  decide (segmentOf e.event = g)

def step [DecidableEq N] [DecidableEq G] (segmentOf : E → G) (claimTimeoutMs : ℕ)
    (s : State N G E) : Action N G E → Option (State N G E)
  | .append event => some { s with log := s.log ++ [⟨s.log.length + 1, event⟩] }
  | .run g statement =>
      ((s.segments g).step (belongs segmentOf g) claimTimeoutMs s.log statement).map fun entry =>
        { s with segments := fun h => if h = g then entry else s.segments h }

end Kronos.Postgres.TokenStore
