import Kronos.KronosDb.NativeTransport
import Mathlib.Algebra.Order.Ring.Int

/-!
# A subscription

The server sends records ahead of the consumer, as many as it was granted credits
for. A frame waits as the bytes it arrived in and its events are decoded when they
are taken, so a batch counts the records it holds before it knows what they are.
A position the server reports waits until as many records have been taken as had
arrived before it.

`readEventBody`, with the serializer under it, is a parameter: it reads one event
from the front of the bytes and is `none` where it throws. The callback is left out.
-/
namespace Kronos.KronosDb.Subscription
open NativeTransport

structure SequencedEvent (E : Type) where
  sequence : ℕ
  event : E
  deriving DecidableEq, Repr

section Records
variable {E : Type} (readEventBody : Bytes → Option (E × Bytes))

/-- Read the record at the front: an event, or nothing for a record that is not one
and is stepped over. `none` where the source throws. -/
def readRecordAt (bytes : Bytes) : Option (Option (SequencedEvent E) × Bytes) :=
  (readU32 bytes).bind fun len =>
    if len.1 = 0 ∨ len.2.length < len.1 then none
    else
      let after := len.2.drop len.1
      (readU8 len.2).bind fun flags =>
        if flags.1 ≠ 0 then some (none, after)
        else
          (readU64 flags.2).bind fun sequence =>
            (readEventBody sequence.2).bind fun body =>
              if body.2.length = after.length then some (some ⟨sequence.1, body.1⟩, after) else none

/-- An Events frame: how many records are left, and where the reader stands. -/
structure RawBatch where
  left : ℕ
  bytes : Bytes
  deriving DecidableEq, Repr

def rawBatch (body : Bytes) : Option RawBatch :=
  (readU32 body).map fun left => ⟨left.1, left.2⟩

/-- What `take` does. -/
inductive Take (E : Type) where
  | item (event : SequencedEvent E) (batch : RawBatch)
  | spent
  | threw

def takeRecord : ℕ → Bytes → Take E
  | 0, _ => .spent
  | left + 1, bytes =>
      match readRecordAt readEventBody bytes with
      | none => .threw
      | some (some event, rest) => .item event ⟨left, rest⟩
      | some (none, rest) => takeRecord left rest

def RawBatch.take (batch : RawBatch) : Take E := takeRecord readEventBody batch.left batch.bytes

/-- The loop of `pull`. `none` where a batch throws. -/
def pullFrom : List RawBatch → Option (Option (SequencedEvent E) × List RawBatch)
  | [] => some (none, [])
  | batch :: batches =>
      match batch.take readEventBody with
      | .item event batch => some (some event, batch :: batches)
      | .spent => pullFrom batches
      | .threw => none

end Records

/-- A position the server reported, with the number of records that had arrived. -/
structure Held where
  position : ℕ
  after : ℕ
  deriving DecidableEq, Repr

/-- What arrived: the records of a frame, or a position. -/
inductive Arrival where
  | batch (batch : RawBatch)
  | progress (position : ℕ)
  deriving DecidableEq, Repr

structure State (E : Type) where
  credits : ℕ
  batches : List RawBatch
  queued : ℕ
  peeked : Option (SequencedEvent E)
  completed : Bool
  streamError : Bool
  outstanding : ℤ
  held : List Held
  settled : Option ℕ
  received : ℕ
  taken : ℕ
  /-- The stream is there to send on. -/
  stream : Bool
  /-- The consumer has closed the subscription. -/
  closed : Bool
  /-- What was received, in order. -/
  log : List Arrival
  /-- What `next` has returned, in order. -/
  handed : List (SequencedEvent E)
  /-- The credits the server was granted. -/
  granted : ℤ

def initial (E : Type) (credits : ℕ) : State E where
  credits := credits
  batches := []
  queued := 0
  peeked := none
  completed := false
  streamError := false
  outstanding := credits
  held := []
  settled := none
  received := 0
  taken := 0
  stream := false
  closed := false
  log := []
  handed := []
  granted := credits

/-- `while (held.length > 0 && held[0].after <= taken) settled = held.shift().position`. -/
def passHeld (taken : ℕ) : List Held → Option ℕ → List Held × Option ℕ
  | [], settled => ([], settled)
  | mark :: held, settled =>
      if mark.after ≤ taken then passHeld taken held (some mark.position)
      else (mark :: held, settled)

namespace State
variable {E : Type} (readEventBody : Bytes → Option (E × Bytes)) (s : State E)

def finish (error : Bool) : State E :=
  if s.completed then s
  else { s with completed := true, streamError := s.streamError || error }

def discard : State E :=
  { s with batches := [], queued := 0, peeked := none, held := [] }

def reached : State E × Option ℕ :=
  let passed := passHeld s.taken s.held s.settled
  ({ s with held := passed.1, settled := passed.2 }, passed.2)

def pull : State E × Option (SequencedEvent E) :=
  match pullFrom readEventBody s.batches with
  | some (some event, batches) =>
      ({ s with batches := batches, queued := s.queued - 1 }, some event)
  | some (none, batches) => ({ s with batches := batches }, none)
  | none => (s.discard.finish true, none)

/-- `onFrame`; `none` where it throws and the stream's `fail` is called. -/
def onFrame (kind flags : ℕ) (body : Bytes) : Option (State E) :=
  let ended (s : State E) := if flags % 2 = 1 then s.finish false else s
  if s.completed then some s
  else if kind = 0x8102 then
    (rawBatch body).map fun next =>
      let count := next.left
      ended
        (if 0 < count then
          { s with
            batches := s.batches ++ [next]
            queued := s.queued + count
            received := s.received + count
            log := s.log ++ [.batch next] }
        else s)
  else if kind = 0x8103 then
    (readU64 body).map fun position =>
      ended
        { s with
          held := s.held ++ [⟨position.1, s.received⟩]
          log := s.log ++ [.progress position.1] }
  else none

def onConsumed : State E :=
  let outstanding := s.outstanding - 1
  if outstanding ≤ (s.credits / 4 : ℕ) ∧ s.completed = false then
    let grant := s.credits - outstanding
    { s with
      outstanding := outstanding + grant
      granted := if s.stream then s.granted + grant else s.granted }
  else { s with outstanding := outstanding }

def next : State E × Option (SequencedEvent E) :=
  let pulled :=
    match s.peeked with
    | none => s.pull readEventBody
    | some event => ({ s with peeked := none }, some event)
  match pulled.2 with
  | none => pulled
  | some event =>
      ({ pulled.1 with
          taken := pulled.1.taken + 1
          handed := pulled.1.handed ++ [event] }.onConsumed, some event)

def peek : State E × Option (SequencedEvent E) :=
  match s.peeked with
  | some event => (s, some event)
  | none =>
      let pulled := s.pull readEventBody
      ({ pulled.1 with peeked := pulled.2 }, pulled.2)

def hasNextAvailable : Bool := s.peeked.isSome || 0 < s.queued

def close : State E :=
  { s.discard with completed := true, stream := false, closed := true }

end State

inductive Action where
  /-- The stream was opened. -/
  | opened
  | frame (kind flags : ℕ) (body : Bytes)
  /-- The stream could not be opened, the server refused it, or the connection died. -/
  | fail
  | next
  | peek
  | progress
  | close
  deriving DecidableEq, Repr

def step {E : Type} (readEventBody : Bytes → Option (E × Bytes)) (s : State E) :
    Action → Option (State E)
  | .opened => some (if s.completed then s else { s with stream := true })
  -- Before the stream is there nothing travels on it.
  | .frame kind flags body =>
      if s.stream || s.completed then some ((s.onFrame kind flags body).getD (s.finish true))
      else none
  | .fail => some (s.finish true)
  | .next => some (s.next readEventBody).1
  | .peek => some (s.peek readEventBody).1
  | .progress => some s.reached.1
  | .close => some s.close

end Kronos.KronosDb.Subscription
