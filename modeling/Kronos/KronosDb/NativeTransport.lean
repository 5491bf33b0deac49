import Kronos.Lib.OrderedMap
import Kronos.Lib.Transition
import Mathlib.Data.Nat.Notation

/-!
# The native transport

One connection carries the frames of many requests and streams. A request or a
stream waits in a slot under its stream id; a frame is handed to the slot of its
stream, a failure frame or the end of the connection to the slot's `fail`.

The bytes the server sends arrive in chunks and are walked frame by frame. An
action is what the client does, a chunk, the next frame of the chunk, or the
return of a stream's sink. A sink is the client's code: while it runs the client
may do anything the transport offers, and it may throw. So may a stream's `fail`.
What a request is parsed to, the texts of errors, the coalescing of writes and
the listeners are left out.
-/
namespace Kronos.KronosDb.NativeTransport
open Kronos.Lib Kronos.Lib.Transition

abbrev Bytes := List UInt8

/-! ## Reading a frame body

Each function reads from the front and is `none` where the source throws. -/

def readU8 : Bytes → Option (ℕ × Bytes)
  | a :: rest => some (a.toNat, rest)
  | _ => none

def readU16 : Bytes → Option (ℕ × Bytes)
  | a :: b :: rest => some (a.toNat + 256 * b.toNat, rest)
  | _ => none

def readU32 (bytes : Bytes) : Option (ℕ × Bytes) :=
  (readU16 bytes).bind fun low => (readU16 low.2).map fun high => (low.1 + 65536 * high.1, high.2)

def readU64 (bytes : Bytes) : Option (ℕ × Bytes) :=
  (readU32 bytes).bind fun low =>
    (readU32 low.2).map fun high => (low.1 + 4294967296 * high.1, high.2)

def isContinuation (b : UInt8) : Bool := 0x80 ≤ b && b ≤ 0xbf

/-- What a `TextDecoder` that is fatal accepts as UTF-8. -/
def validUtf8 : Bytes → Bool
  | [] => true
  | a :: rest =>
      if a < 0x80 then validUtf8 rest
      else match rest with
        | b :: rest =>
            if 0xc2 ≤ a && a ≤ 0xdf then isContinuation b && validUtf8 rest
            else match rest with
              | c :: rest =>
                  if 0xe0 ≤ a && a ≤ 0xef then
                    isContinuation b && isContinuation c && (a != 0xe0 || 0xa0 ≤ b) &&
                      (a != 0xed || b ≤ 0x9f) && validUtf8 rest
                  else match rest with
                    | d :: rest =>
                        0xf0 ≤ a && a ≤ 0xf4 && isContinuation b && isContinuation c &&
                          isContinuation d && (a != 0xf0 || 0x90 ≤ b) && (a != 0xf4 || b ≤ 0x8f) &&
                          validUtf8 rest
                    | [] => false
              | [] => false
        | [] => false

def readUtf8 (len : ℕ) (bytes : Bytes) : Option (Bytes × Bytes) :=
  if bytes.length < len then none
  else if validUtf8 (bytes.take len) then some (bytes.take len, bytes.drop len)
  else none

def readStr16 (bytes : Bytes) : Option (Bytes × Bytes) :=
  (readU16 bytes).bind fun len => readUtf8 len.1 len.2

def readStr32 (bytes : Bytes) : Option (Bytes × Bytes) :=
  (readU32 bytes).bind fun len => readUtf8 len.1 len.2

structure RequestFailed where
  code : ℕ
  message : Bytes
  deriving DecidableEq, Repr

def decodeRequestFailed (body : Bytes) : Option RequestFailed :=
  (readU16 body).bind fun code => (readStr32 code.2).map fun message => ⟨code.1, message.1⟩

structure Welcome where
  version : ℕ
  recordFormat : ℕ
  maxFrame : ℕ
  deriving DecidableEq, Repr

def decodeWelcome (body : Bytes) : Option Welcome :=
  (readU16 body).bind fun version =>
    (readU64 version.2).bind fun features =>
      (readU8 features.2).bind fun recordFormat =>
        (readStr16 recordFormat.2).bind fun serverName =>
          (readStr16 serverName.2).bind fun principal =>
            (readU32 principal.2).bind fun maxFrame =>
              (readU32 maxFrame.2).map fun _ => ⟨version.1, recordFormat.1, maxFrame.1⟩

/-- What follows the length of a frame: kind, flags and stream. -/
def readHeader (bytes : Bytes) : Option (ℕ × ℕ × ℕ) :=
  (readU16 bytes).bind fun kind =>
    (readU8 kind.2).bind fun flags =>
      (readU32 flags.2).map fun stream => (kind.1, flags.1, stream.1)

def decodeServerPing (body : Bytes) : Option ℕ := (readU64 body).map Prod.fst

/-! ## The connection -/

/-- How a promise settled. -/
inductive Outcome where
  | resolved
  | rejected
  deriving DecidableEq, Repr

/-- A request or a stream that was sent, and what has become of it. -/
structure Party where
  unary : Bool
  stream : ℕ
  /-- A request's promise; the first settlement counts. -/
  outcome : Option Outcome
  /-- How often `fail` was called. -/
  fails : ℕ
  cancelled : Bool
  /-- The stream's end frame arrived. -/
  ended : Bool
  deriving DecidableEq, Repr

/-- What the reading side is in the middle of. -/
inductive Control where
  | idle
  /-- The loop of `consume` over `buf`; `later` is what is left of the chunk after it. -/
  | consuming (buf later : Bytes)
  /-- The sink of a stream runs. -/
  | inSink (party : ℕ) (buf later : Bytes)
  deriving DecidableEq, Repr

structure State where
  welcome : Bool
  maxFrame : ℕ
  closed : Bool
  lastStream : ℕ
  /-- The slots by stream id: the number of the request or stream that waits. -/
  slots : List (ℕ × ℕ)
  parties : List Party
  /-- A frame that arrived in part, with its length, or 0 while that is not known. -/
  pending : Option (Bytes × ℕ)
  control : Control

def initial : State := ⟨false, 1024 * 1024, false, 0, [], [], none, .idle⟩

def frameHeaderLen : ℕ := 11

/-- `lastStream === 0xffffffff ? 1 : lastStream + 1`. -/
def following (stream : ℕ) : ℕ := if stream = 0xffffffff then 1 else stream + 1

/-- The next id that no slot has. With `n` slots one of `n + 1` ids is free; `none`
where every id is taken and the loop of the source does not end. -/
def nextStream (slots : List (ℕ × ℕ)) : ℕ → ℕ → Option ℕ
  | 0, _ => none
  | tries + 1, last =>
      let stream := following last
      if (OrderedMap.get stream slots).isNone then some stream else nextStream slots tries stream

namespace Party

/-- `fail`: a request's rejects its promise. -/
def fail (party : Party) : Party :=
  { party with
    fails := party.fails + 1
    outcome := if party.unary then party.outcome.or (some .rejected) else party.outcome }

def reply (party : Party) (outcome : Outcome) : Party :=
  { party with outcome := party.outcome.or (some outcome) }

end Party

namespace State
variable (s : State)

def update (i : ℕ) (f : Party → Party) : State :=
  { s with parties := s.parties.modify i f }

def release (stream : ℕ) : State := { s with slots := OrderedMap.delete stream s.slots }

/-- `shutdown`: whatever waits fails. -/
def shutdown : State :=
  if s.closed then s
  else
    { s with
      closed := true
      parties :=
        (s.slots.map Prod.snd).foldl (fun parties i => parties.modify i Party.fail) s.parties
      slots := [] }

/-- The exception reaches `onData`. -/
def throws : State := { s.shutdown with control := .idle }

/-- `onData`, up to its call of `consume`. -/
def onData (chunk : Bytes) : State :=
  match s.pending with
  | none => { s with control := .consuming chunk [] }
  | some (bytes, total) =>
      if total = 0 then { s with pending := none, control := .consuming (bytes ++ chunk) [] }
      else
        let take := min chunk.length (total - bytes.length)
        if bytes.length + take < total then
          { s with pending := some (bytes ++ chunk.take take, total), control := .idle }
        else
          { s with
            pending := none
            control := .consuming (bytes ++ chunk.take take) (chunk.drop take) }

/-- `consume` returns to `onData`. -/
def consumed (later : Bytes) : State :=
  if s.closed || later.isEmpty then { s with control := .idle } else s.onData later

/-- The frames that travel on stream 0. -/
def connectionFrame (kind : ℕ) (body buf later : Bytes) : State :=
  let next := { s with control := .consuming buf later }
  if kind = 0x8001 then
    if s.welcome then s.throws
    else match decodeWelcome body with
      | none => s.throws
      | some welcome =>
          if welcome.version = 1 ∧ welcome.recordFormat = 3 then
            { next with welcome := true, maxFrame := welcome.maxFrame }
          else s.throws
  else if kind = 0x8003 then
    match decodeServerPing body with
    | none => s.throws
    -- The pong is a frame of its own and has to fit.
    | some _ => if frameHeaderLen + 8 ≤ s.maxFrame then next else s.throws
  else if kind = 0x8002 ∨ kind = 0x8006 then next
  else s.throws

/-- A frame on the stream of a slot. `parses`: the request's parser does not throw;
`failThrows`: the stream's `fail` does. -/
def slotFrame (i : ℕ) (party : Party) (stream kind flags : ℕ) (body buf later : Bytes)
    (parses failThrows : Bool) : State :=
  let next := { s with control := .consuming buf later }
  if kind = 0x8007 then
    match decodeRequestFailed body with
    | none => (s.release stream).throws
    | some _ =>
        if failThrows && !party.unary then ((s.release stream).update i Party.fail).throws
        else (next.release stream).update i Party.fail
  else if party.unary then
    (next.release stream).update i fun party =>
      party.reply (if parses then .resolved else .rejected)
  else if flags % 2 = 1 then
    { (s.release stream).update i (fun party => { party with ended := true }) with
      control := .inSink i buf later }
  else { s with control := .inSink i buf later }

def frame (kind flags stream : ℕ) (body buf later : Bytes) (parses failThrows : Bool) : State :=
  if stream = 0 then s.connectionFrame kind body buf later
  else match OrderedMap.get stream s.slots with
    | none => { s with control := .consuming buf later }
    | some i =>
        match s.parties[i]? with
        | none => s
        | some party => s.slotFrame i party stream kind flags body buf later parses failThrows

/-- One round of the loop of `consume`. -/
def consume (buf later : Bytes) (parses failThrows : Bool) : State :=
  match readU32 buf with
  | none =>
      if buf.isEmpty then s.consumed later
      else { s with pending := some (buf, 0) }.consumed later
  | some (len, afterLength) =>
      let total := len + 4
      if len < frameHeaderLen - 4 ∨ s.maxFrame < total then s.throws
      else if buf.length < total then { s with pending := some (buf, total) }.consumed later
      else
        match readHeader afterLength with
        | none => s.throws
        | some (kind, flags, stream) =>
            s.frame kind flags stream ((buf.take total).drop frameHeaderLen) (buf.drop total) later
              parses failThrows

end State

inductive Action where
  /-- `sent`: the request could be encoded and fits. -/
  | request (sent : Bool)
  | opened (sent : Bool)
  | cancel (party : ℕ)
  /-- The client closes, the socket fails or closes, or a timer gives up. -/
  | close
  | data (chunk : Bytes)
  /-- The loop of `consume` goes on. -/
  | consume (parses failThrows : Bool)
  | sinkReturns
  | sinkThrows (failThrows : Bool)
  deriving DecidableEq, Repr

def step (s : State) : Action → Option State
  | .request sent =>
      if s.welcome then
        (nextStream s.slots (s.slots.length + 1) s.lastStream).map fun stream =>
          if s.closed || !sent then
            { s with
              lastStream := stream
              parties := s.parties ++ [⟨true, stream, some .rejected, 0, false, false⟩] }
          else
            { s with
              lastStream := stream
              slots := OrderedMap.set stream s.parties.length s.slots
              parties := s.parties ++ [⟨true, stream, none, 0, false, false⟩] }
      else none
  | .opened sent =>
      if s.welcome then
        (nextStream s.slots (s.slots.length + 1) s.lastStream).map fun stream =>
          -- A stream that could not be sent throws to the caller and was never open.
          if s.closed || !sent then { s with lastStream := stream }
          else
            { s with
              lastStream := stream
              slots := OrderedMap.set stream s.parties.length s.slots
              parties := s.parties ++ [⟨false, stream, none, 0, false, false⟩] }
      else none
  | .cancel i =>
      match s.parties[i]? with
      | none => none
      | some party =>
          if party.unary then none
          else if OrderedMap.get party.stream s.slots = some i then
            some ((s.release party.stream).update i fun party => { party with cancelled := true })
          else some s
  | .close => some s.shutdown
  | .data chunk =>
      match s.control with
      | .idle => if s.closed then none else some (s.onData chunk)
      | _ => none
  | .consume parses failThrows =>
      match s.control with
      | .consuming buf later =>
          if s.closed then some { s with control := .idle }
          else some (s.consume buf later parses failThrows)
      | _ => none
  | .sinkReturns =>
      match s.control with
      | .inSink _ buf later => some { s with control := .consuming buf later }
      | _ => none
  | .sinkThrows failThrows =>
      match s.control with
      | .inSink i buf later =>
          match s.parties[i]? with
          | none => none
          | some party =>
              let failed := (s.release party.stream).update i Party.fail
              some (if failThrows then failed.throws
                else { failed with control := .consuming buf later })
      | _ => none

end Kronos.KronosDb.NativeTransport
