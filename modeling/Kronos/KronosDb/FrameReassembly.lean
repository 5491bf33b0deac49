import Mathlib.Data.List.Basic
import Kronos.KronosDb.NativeTransport

/-!
# Reassembling frames from chunks

The socket hands the bytes of the server to `onData` in chunks of any size. A
frame may lie across many of them, and many may lie in one. What has arrived of
a frame waits in `pending`, with the frame's length once four bytes are there.

The frames of the connection are handled here. A frame for a slot and the
listeners of GoAway are the client's code: `client` says what it makes of a
frame, that it goes on, closes the transport, or throws through to `onData`. A
destroyed socket hands on nothing more.

A read that runs out of bytes names the offset it stood at, in the buffer that
`consume` walks. That is a chunk, or a frame put together from several, so of the
error that closes the connection this one number depends on the chunks. All else
does not.
-/
namespace Kronos.KronosDb.FrameReassembly
open NativeTransport

variable {σ ε : Type}

structure Frame where
  kind : ℕ
  flags : ℕ
  stream : ℕ
  body : Bytes
  deriving DecidableEq, Repr

/-- What a read throws; `left` bytes were left to read. -/
inductive Fault where
  | truncated (need left : ℕ)
  | notUtf8
  deriving DecidableEq, Repr

namespace Reader

/-- A read that first asks for `n` bytes. -/
def needing {α : Type} (n : ℕ) (read : Bytes → Option (α × Bytes)) (bytes : Bytes) :
    Except Fault (α × Bytes) :=
  match read bytes with
  | some result => .ok result
  | none => .error (.truncated n bytes.length)

def readU8 : Bytes → Except Fault (ℕ × Bytes) := needing 1 NativeTransport.readU8

def readU16 : Bytes → Except Fault (ℕ × Bytes) := needing 2 NativeTransport.readU16

def readU32 : Bytes → Except Fault (ℕ × Bytes) := needing 4 NativeTransport.readU32

def readU64 : Bytes → Except Fault (ℕ × Bytes) := needing 8 NativeTransport.readU64

def readUtf8 (len : ℕ) (bytes : Bytes) : Except Fault (Bytes × Bytes) :=
  if bytes.length < len then .error (.truncated len bytes.length)
  else if validUtf8 (bytes.take len) then .ok (bytes.take len, bytes.drop len)
  else .error .notUtf8

def readStr16 (bytes : Bytes) : Except Fault (Bytes × Bytes) := do
  let len ← readU16 bytes
  readUtf8 len.1 len.2

def readStr32 (bytes : Bytes) : Except Fault (Bytes × Bytes) := do
  let len ← readU32 bytes
  readUtf8 len.1 len.2

def decodeWelcome (body : Bytes) : Except Fault Welcome := do
  let version ← readU16 body
  let features ← readU64 version.2
  let recordFormat ← readU8 features.2
  let serverName ← readStr16 recordFormat.2
  let principal ← readStr16 serverName.2
  let maxFrame ← readU32 principal.2
  let _heartbeat ← readU32 maxFrame.2
  return ⟨version.1, recordFormat.1, maxFrame.1⟩

def decodeServerPing (body : Bytes) : Except Fault ℕ := do
  let nonce ← readU64 body
  return nonce.1

def decodeRequestFailed (body : Bytes) : Except Fault RequestFailed := do
  let code ← readU16 body
  let message ← readStr32 code.2
  return ⟨code.1, message.1⟩

/-! With the faults left aside these are the transport's decoders. -/

theorem needing_toOption {α : Type} (n : ℕ) (read : Bytes → Option (α × Bytes)) (bytes : Bytes) :
    (needing n read bytes).toOption = read bytes := by
  unfold needing
  cases read bytes <;> rfl

theorem bind_toOption {α β : Type} (x : Except Fault α) (f : α → Except Fault β) :
    (x >>= f).toOption = x.toOption.bind fun a => (f a).toOption := by
  cases x <;> rfl

theorem readUtf8_toOption (len : ℕ) (bytes : Bytes) :
    (readUtf8 len bytes).toOption = NativeTransport.readUtf8 len bytes := by
  unfold readUtf8 NativeTransport.readUtf8
  split_ifs <;> rfl

theorem readStr16_toOption (bytes : Bytes) :
    (readStr16 bytes).toOption = NativeTransport.readStr16 bytes := by
  simp only [readStr16, NativeTransport.readStr16, bind_toOption, readU16, needing_toOption,
    readUtf8_toOption]

theorem readStr32_toOption (bytes : Bytes) :
    (readStr32 bytes).toOption = NativeTransport.readStr32 bytes := by
  simp only [readStr32, NativeTransport.readStr32, bind_toOption, readU32, needing_toOption,
    readUtf8_toOption]

theorem decodeWelcome_toOption (body : Bytes) :
    (decodeWelcome body).toOption = NativeTransport.decodeWelcome body := by
  simp only [decodeWelcome, NativeTransport.decodeWelcome, bind_toOption, readU8, readU16, readU32,
    readU64, needing_toOption, readStr16_toOption, Option.map_eq_bind]
  rfl

theorem decodeServerPing_toOption (body : Bytes) :
    (decodeServerPing body).toOption = NativeTransport.decodeServerPing body := by
  simp only [decodeServerPing, NativeTransport.decodeServerPing, bind_toOption, readU64,
    needing_toOption, Option.map_eq_bind]
  rfl

theorem decodeRequestFailed_toOption (body : Bytes) :
    (decodeRequestFailed body).toOption = NativeTransport.decodeRequestFailed body := by
  simp only [decodeRequestFailed, NativeTransport.decodeRequestFailed, bind_toOption, readU16,
    needing_toOption, readStr32_toOption, Option.map_eq_bind]
  rfl

end Reader

/-- Why the reading side closed the connection. -/
inductive Failure (ε : Type) where
  /-- The peer answered the handshake with something else. -/
  | notNative
  | tooLarge (total limit : ℕ)
  | welcomeTwice
  | protocolVersion (version : ℕ)
  | recordFormat (format : ℕ)
  | pongTooLarge (size limit : ℕ)
  | refused (failed : RequestFailed)
  | notConnectionFrame (kind : ℕ)
  /-- "truncated: need n bytes at offset p" -/
  | truncated (need offset : ℕ)
  | notUtf8
  /-- The client's error; `start` is where the body began, which its text may name. -/
  | thrown (error : ε) (start : ℕ)
  deriving DecidableEq, Repr

/-- The error of a read in a body that ends at `bodyEnd`. -/
def Fault.failure (bodyEnd : ℕ) : Fault → Failure ε
  | .truncated need left => .truncated need (bodyEnd - left)
  | .notUtf8 => .notUtf8

/-- The error without its offset. -/
def Failure.erase : Failure ε → Failure ε
  | .truncated need _ => .truncated need 0
  | .thrown error _ => .thrown error 0
  | failure => failure

inductive Closing (ε : Type) where
  | byClient
  | failed (failure : Failure ε)
  deriving DecidableEq, Repr

def Closing.erase : Closing ε → Closing ε
  | .byClient => .byClient
  | .failed failure => .failed failure.erase

/-- What the client makes of a frame. -/
inductive Reaction (ε : Type) where
  | goesOn
  | closes
  | throws (error : ε)
  deriving DecidableEq, Repr

/-- A frame that is there in part; `total` is 0 while its length is not known. -/
structure Pending where
  bytes : Bytes
  total : ℕ
  short : total = 0 ∨ bytes.length < total
  deriving DecidableEq

def Pending.extend (pending : Pending) (more : Bytes)
    (h : pending.bytes.length + more.length < pending.total) : Pending where
  bytes := pending.bytes ++ more
  total := pending.total
  short := .inr (by rw [List.length_append]; exact h)

structure State (σ ε : Type) where
  client : σ
  welcome : Bool
  maxFrame : ℕ
  closed : Option (Closing ε)
  pending : Option Pending
  /-- The frames handed on, in order. -/
  delivered : List Frame

def initial (client : σ) : State σ ε := ⟨client, false, 1024 * 1024, none, none, []⟩

section Reading
variable (client : σ → Frame → σ × Reaction ε)

namespace State
variable (s : State σ ε)

def throws (failure : Failure ε) : State σ ε := { s with closed := some (.failed failure) }

/-- The client's code runs, on a frame whose body begins at `start`. -/
def react (f : Frame) (start : ℕ) : State σ ε :=
  let result := client s.client f
  match result.2 with
  | .goesOn => { s with client := result.1 }
  | .closes => { s with client := result.1, closed := some .byClient }
  | .throws error => { s with client := result.1, closed := some (.failed (.thrown error start)) }

def handshakeFinished (body : Bytes) (start : ℕ) : State σ ε :=
  match Reader.decodeWelcome body with
  | .error fault => s.throws (fault.failure (start + body.length))
  | .ok welcome =>
      if welcome.version = 1 then
        if welcome.recordFormat = 3 then { s with welcome := true, maxFrame := welcome.maxFrame }
        else s.throws (.recordFormat welcome.recordFormat)
      else s.throws (.protocolVersion welcome.version)

def connectionFrame (f : Frame) (start : ℕ) : State σ ε :=
  if f.kind = 0x8001 then
    if s.welcome then s.throws .welcomeTwice else s.handshakeFinished f.body start
  else if f.kind = 0x8003 then
    match Reader.decodeServerPing f.body with
    | .error fault => s.throws (fault.failure (start + f.body.length))
    | .ok _ =>
        if s.maxFrame < frameHeaderLen + 8 then
          s.throws (.pongTooLarge (frameHeaderLen + 8) s.maxFrame)
        else s
  else if f.kind = 0x8002 then s
  else if f.kind = 0x8006 then s.react client f start
  else if f.kind = 0x8007 then
    match Reader.decodeRequestFailed f.body with
    | .error fault => s.throws (fault.failure (start + f.body.length))
    | .ok failed => s.throws (.refused failed)
  else s.throws (.notConnectionFrame f.kind)

/-- `frame`, on the bytes of a whole one, which lies at `offset` in the buffer. -/
def frame (offset : ℕ) (whole : Bytes) : State σ ε :=
  match readHeader (whole.drop 4) with
  -- A whole frame has its header: `header_of_whole`.
  | none => s
  | some (kind, flags, stream) =>
      let f : Frame := ⟨kind, flags, stream, whole.drop frameHeaderLen⟩
      let s := { s with delivered := s.delivered ++ [f] }
      if stream = 0 then s.connectionFrame client f (offset + frameHeaderLen)
      else s.react client f (offset + frameHeaderLen)

/-- `consume`, on what is left of the buffer from `offset` on. -/
def consume (s : State σ ε) (offset : ℕ) (buf : Bytes) : State σ ε :=
  match readU32 buf with
  | none => if buf.isEmpty then s else { s with pending := some ⟨buf, 0, .inl rfl⟩ }
  | some (len, _) =>
      if len < frameHeaderLen - 4 ∨ s.maxFrame < len + 4 then
        s.throws (if s.welcome then .tooLarge (len + 4) s.maxFrame else .notNative)
      else if hshort : buf.length < len + 4 then
        { s with pending := some ⟨buf, len + 4, .inr hshort⟩ }
      else
        let t := s.frame client offset (buf.take (len + 4))
        if t.closed.isSome then t else consume t (offset + (len + 4)) (buf.drop (len + 4))
  termination_by buf.length
  decreasing_by
    rw [List.length_drop]
    omega

def onData (s : State σ ε) (chunk : Bytes) : State σ ε :=
  match s.pending with
  | none => s.consume client 0 chunk
  | some pending =>
      if htotal : pending.total = 0 then
        { s with pending := none }.consume client 0 (pending.bytes ++ chunk)
      else
        let take := min chunk.length (pending.total - pending.bytes.length)
        if hstill : pending.bytes.length + take < pending.total then
          { s with
            pending := some (pending.extend (chunk.take take) (by rw [List.length_take]; omega)) }
        else
          let t := { s with pending := none }.consume client 0 (pending.bytes ++ chunk.take take)
          if t.closed.isNone ∧ take < chunk.length then onData t (chunk.drop take) else t
  termination_by chunk.length
  decreasing_by
    have hshort := pending.short.resolve_left htotal
    rw [List.length_drop]
    omega

/-- A chunk arrives, unless the socket was destroyed. -/
def receive (chunk : Bytes) : State σ ε := if s.closed.isSome then s else s.onData client chunk

/-- All of the state but the offset that the error of a read names. -/
def erase : State σ ε := { s with closed := s.closed.map Closing.erase }

end State

theorem header_of_whole {whole : Bytes} (h : frameHeaderLen ≤ whole.length) :
    (readHeader (whole.drop 4)).isSome = true := by
  have hlong : 7 ≤ (whole.drop 4).length := by
    rw [List.length_drop]
    unfold frameHeaderLen at h
    omega
  generalize whole.drop 4 = bytes at hlong
  match bytes, hlong with
  | _ :: _ :: _ :: _ :: _ :: _ :: _ :: _, _ => rfl

theorem readU32_append {a : Bytes} {len : ℕ} {rest : Bytes} (h : readU32 a = some (len, rest))
    (b : Bytes) : readU32 (a ++ b) = some (len, rest ++ b) := by
  rcases a with _ | ⟨a₀, _ | ⟨a₁, _ | ⟨a₂, _ | ⟨a₃, a⟩⟩⟩⟩
  · cases h
  · cases h
  · cases h
  · cases h
  · cases h
    rfl

/-! ## A frame at another offset -/

section Frames
variable {client} {s t : State σ ε}

theorem react_pending (f : Frame) (start : ℕ) : (s.react client f start).pending = s.pending := by
  unfold State.react
  simp only
  split <;> rfl

theorem handshakeFinished_pending (body : Bytes) (start : ℕ) :
    (s.handshakeFinished body start).pending = s.pending := by
  unfold State.handshakeFinished
  split
  · rfl
  · split_ifs <;> rfl

theorem connectionFrame_pending (f : Frame) (start : ℕ) :
    (s.connectionFrame client f start).pending = s.pending := by
  unfold State.connectionFrame
  split_ifs
  · rfl
  · exact handshakeFinished_pending f.body start
  · split <;> rfl
  · split <;> rfl
  · rfl
  · exact react_pending f start
  · split <;> rfl
  · rfl

/-- A frame does not touch what waits. -/
theorem frame_pending (offset : ℕ) (whole : Bytes) :
    (s.frame client offset whole).pending = s.pending := by
  unfold State.frame
  split
  · rfl
  · simp only
    split_ifs
    · exact connectionFrame_pending _ _
    · exact react_pending _ _

theorem throws_erase {failure failure' : Failure ε} (h : failure.erase = failure'.erase) :
    (s.throws failure).erase = (s.throws failure').erase := by
  unfold State.throws State.erase
  simp only [Option.map_some, Closing.erase, h]

theorem failure_erase (fault : Fault) (p q : ℕ) :
    (fault.failure p : Failure ε).erase = (fault.failure q).erase := by
  cases fault <;> rfl

theorem react_erase (f : Frame) (p q : ℕ) :
    (s.react client f p).erase = (s.react client f q).erase := by
  unfold State.react
  simp only
  split <;> rfl

theorem handshakeFinished_erase (body : Bytes) (p q : ℕ) :
    (s.handshakeFinished body p).erase = (s.handshakeFinished body q).erase := by
  unfold State.handshakeFinished
  split
  · exact throws_erase (failure_erase _ _ _)
  · rfl

theorem connectionFrame_erase (f : Frame) (p q : ℕ) :
    (s.connectionFrame client f p).erase = (s.connectionFrame client f q).erase := by
  unfold State.connectionFrame
  split_ifs
  · rfl
  · exact handshakeFinished_erase f.body p q
  · split
    · exact throws_erase (failure_erase _ _ _)
    · rfl
  · split
    · exact throws_erase (failure_erase _ _ _)
    · rfl
  · rfl
  · exact react_erase f p q
  · split
    · exact throws_erase (failure_erase _ _ _)
    · rfl
  · rfl

/-- Where a frame lies shows in the offset of its error only. -/
theorem frame_erase (p q : ℕ) (whole : Bytes) :
    (s.frame client p whole).erase = (s.frame client q whole).erase := by
  unfold State.frame
  split
  · rfl
  · simp only
    split_ifs
    · exact connectionFrame_erase _ _ _
    · exact react_erase _ _ _

theorem closed_of_erase (h : s.erase = t.erase) : s.closed.isSome = t.closed.isSome := by
  have hclosed := congrArg (fun u => u.closed.isSome) h
  simpa only [State.erase, Option.isSome_map] using hclosed

/-- While the connection is open there is no offset to erase. -/
theorem erase_open (h : s.closed = none) : s.erase = s := by
  unfold State.erase
  rw [h, Option.map_none, ← h]

theorem eq_of_erase (h : s.erase = t.erase) (hopen : s.closed = none) : s = t := by
  have ht : t.closed = none := by
    have hsome := closed_of_erase h
    rw [hopen] at hsome
    exact Option.isNone_iff_eq_none.mp (by rw [← Option.not_isSome, ← hsome]; rfl)
  rw [← erase_open hopen, h, erase_open ht]

/-- What `consume` makes of a buffer that begins with a whole frame. -/
theorem consume_whole {buf rest : Bytes} {len : ℕ} (offset : ℕ)
    (hlen : readU32 buf = some (len, rest))
    (hvalid : ¬ (len < frameHeaderLen - 4 ∨ s.maxFrame < len + 4))
    (hwhole : len + 4 ≤ buf.length) :
    s.consume client offset buf =
      if (s.frame client offset (buf.take (len + 4))).closed.isSome then
        s.frame client offset (buf.take (len + 4))
      else
        (s.frame client offset (buf.take (len + 4))).consume client (offset + (len + 4))
          (buf.drop (len + 4)) := by
  rw [State.consume.eq_def, hlen]
  simp only [if_neg hvalid, dif_neg (Nat.not_lt.mpr hwhole)]

@[simp] theorem consume_nil (offset : ℕ) : s.consume client offset [] = s := by
  rw [State.consume.eq_def]
  rfl

/-- A buffer that does not begin with a whole frame is not walked at all. -/
theorem consume_stays {buf : Bytes} (p q : ℕ)
    (h : ∀ len rest, readU32 buf = some (len, rest) →
      (len < frameHeaderLen - 4 ∨ s.maxFrame < len + 4) ∨ buf.length < len + 4) :
    s.consume client p buf = s.consume client q buf := by
  rw [State.consume.eq_def client s p, State.consume.eq_def client s q]
  cases hlen : readU32 buf with
  | none => rfl
  | some length =>
      obtain ⟨len, rest⟩ := length
      by_cases hvalid : len < frameHeaderLen - 4 ∨ s.maxFrame < len + 4
      · simp only [if_pos hvalid]
      · have hshort := (h len rest hlen).resolve_left hvalid
        simp only [if_neg hvalid, dif_pos hshort]

/-- Where a buffer is walked from shows in the offset of the error only. -/
theorem consume_erase (p q : ℕ) (buf : Bytes) :
    (s.consume client p buf).erase = (s.consume client q buf).erase := by
  induction hlength : buf.length using Nat.strongRecOn generalizing s p q buf with
  | ind n ih =>
      subst hlength
      by_cases hwhole : ∃ len rest, readU32 buf = some (len, rest) ∧
          ¬ (len < frameHeaderLen - 4 ∨ s.maxFrame < len + 4) ∧ len + 4 ≤ buf.length
      · obtain ⟨len, rest, hlen, hvalid, hwhole⟩ := hwhole
        rw [consume_whole p hlen hvalid hwhole, consume_whole q hlen hvalid hwhole]
        have hframe : (s.frame client p (buf.take (len + 4))).erase =
            (s.frame client q (buf.take (len + 4))).erase := frame_erase p q _
        rw [← closed_of_erase hframe]
        split_ifs with hclosed
        · exact hframe
        · have hopen := Option.not_isSome_iff_eq_none.mp hclosed
          have hless : (buf.drop (len + 4)).length < buf.length := by
            rw [List.length_drop]
            omega
          rw [← eq_of_erase hframe hopen]
          exact ih _ hless _ _ _ rfl
      · rw [consume_stays p q]
        intro len rest hlen
        by_contra hnot
        rw [not_or, Nat.not_lt] at hnot
        exact hwhole ⟨len, rest, hlen, hnot⟩

/-! ## One chunk after another -/

theorem onData_of_none (hpending : s.pending = none) (chunk : Bytes) :
    s.onData client chunk = s.consume client 0 chunk := by
  rw [State.onData.eq_def, hpending]

theorem receive_open (hopen : s.closed = none) (chunk : Bytes) :
    s.receive client chunk = s.onData client chunk := by
  rw [State.receive, hopen]
  rfl

/-- A chunk that comes after part of a frame whose length is known. -/
theorem onData_partial {a rest : Bytes} {len : ℕ} (hpending : s.pending = none)
    (hlen : readU32 a = some (len, rest))
    (hvalid : ¬ (len < frameHeaderLen - 4 ∨ s.maxFrame < len + 4))
    (hshort : a.length < len + 4) (b : Bytes) :
    ({ s with pending := some ⟨a, len + 4, .inr hshort⟩ }.onData client b).erase =
      (s.consume client 0 (a ++ b)).erase := by
  have hself : { s with pending := none } = s := by rw [← hpending]
  rw [State.onData.eq_def]
  simp only [Nat.succ_ne_zero, dite_false, hself]
  by_cases hstill : a.length + b.length < len + 4
  · -- Still not whole: all of the chunk is taken.
    have htake : min b.length (len + 4 - a.length) = b.length := by omega
    have hshort' : (a ++ b).length < len + 4 := by rwa [List.length_append]
    rw [dif_pos (by rwa [htake]), State.consume.eq_def, readU32_append hlen b]
    simp only [if_neg hvalid, dif_pos hshort', Pending.extend, htake, List.take_length]
  · have htake : min b.length (len + 4 - a.length) = len + 4 - a.length := by omega
    have hwhole : (a ++ b.take (len + 4 - a.length)).length = len + 4 := by
      rw [List.length_append, List.length_take]
      omega
    have hfirst : (a ++ b).take (len + 4) = a ++ b.take (len + 4 - a.length) := by
      rw [List.take_append, List.take_of_length_le (Nat.le_of_lt hshort)]
    have hrest : (a ++ b).drop (len + 4) = b.drop (len + 4 - a.length) := by
      rw [List.drop_append, List.drop_eq_nil_of_le (Nat.le_of_lt hshort), List.nil_append]
    rw [dif_neg (by rw [htake]; omega), htake,
      consume_whole 0 (readU32_append hlen _) hvalid (Nat.le_of_eq hwhole.symm),
      consume_whole 0 (readU32_append hlen _) hvalid (by rw [List.length_append]; omega), hfirst,
      hrest, List.take_of_length_le (Nat.le_of_eq hwhole),
      List.drop_eq_nil_of_le (Nat.le_of_eq hwhole), consume_nil, ite_self]
    generalize hframe : s.frame client 0 (a ++ b.take (len + 4 - a.length)) = t
    have hnone : t.pending = none := by rw [← hframe, frame_pending, hpending]
    rw [onData_of_none hnone]
    cases hclosed : t.closed with
    | some closing => rfl
    | none =>
        by_cases hmore : len + 4 - a.length < b.length
        · -- The rest of the chunk is a buffer of its own.
          simpa [hmore] using consume_erase 0 (0 + (len + 4)) _
        · simp [hmore, List.drop_eq_nil_of_le (Nat.not_lt.mp hmore)]

/-- A second chunk is consumed as if it had come with the first. -/
theorem receive_consume (hopen : s.closed = none) (hpending : s.pending = none) (offset : ℕ)
    (a b : Bytes) :
    ((s.consume client offset a).receive client b).erase =
      (s.consume client offset (a ++ b)).erase := by
  induction hlength : a.length using Nat.strongRecOn generalizing s offset a with
  | ind n ih =>
      subst hlength
      cases hlen : readU32 a with
      | none =>
          rw [State.consume.eq_def, hlen]
          cases a with
          | nil =>
              simp only [List.isEmpty_nil, if_true, List.nil_append]
              rw [receive_open hopen, onData_of_none hpending]
              exact consume_erase 0 offset b
          | cons byte a =>
              have hself : { s with pending := none } = s := by rw [← hpending]
              simp only [List.isEmpty_cons, Bool.false_eq_true, if_false]
              rw [receive_open (by exact hopen), State.onData.eq_def]
              simp only [dite_true, hself]
              exact consume_erase 0 offset _
      | some length =>
          obtain ⟨len, rest⟩ := length
          by_cases hvalid : len < frameHeaderLen - 4 ∨ s.maxFrame < len + 4
          · rw [State.consume.eq_def, State.consume.eq_def, hlen, readU32_append hlen b]
            simp only [if_pos hvalid]
            rfl
          · by_cases hshort : a.length < len + 4
            · rw [State.consume.eq_def, hlen]
              simp only [if_neg hvalid, dif_pos hshort]
              rw [receive_open (by exact hopen), onData_partial hpending hlen hvalid hshort b]
              exact consume_erase 0 offset _
            · have hwhole := Nat.not_lt.mp hshort
              have hwhole' : len + 4 ≤ (a ++ b).length := by
                rw [List.length_append]
                omega
              rw [consume_whole offset hlen hvalid hwhole,
                consume_whole offset (readU32_append hlen b) hvalid hwhole',
                List.take_append_of_le_length hwhole, List.drop_append_of_le_length hwhole]
              generalize hframe : s.frame client offset (a.take (len + 4)) = t
              have hnone : t.pending = none := by rw [← hframe, frame_pending, hpending]
              cases hclosed : t.closed with
              | some closing => simp [State.receive, hclosed]
              | none =>
                  have hless : (a.drop (len + 4)).length < a.length := by
                    rw [List.length_drop]
                    omega
                  simpa using ih _ hless hclosed hnone (offset + (len + 4)) _ rfl

/-- What arrives later does not show an offset either. -/
theorem receive_erase (h : s.erase = t.erase) (chunk : Bytes) :
    (s.receive client chunk).erase = (t.receive client chunk).erase := by
  cases hs : s.closed with
  | none => rw [eq_of_erase h hs]
  | some closing =>
      have hclosed : s.closed.isSome = true := by rw [hs]; rfl
      rw [State.receive, State.receive, if_pos hclosed, if_pos (closed_of_erase h ▸ hclosed)]
      exact h

theorem foldl_receive_erase (h : s.erase = t.erase) (chunks : List Bytes) :
    (chunks.foldl (State.receive client) s).erase =
      (chunks.foldl (State.receive client) t).erase := by
  induction chunks generalizing s t with
  | nil => exact h
  | cons chunk chunks ih => exact ih (receive_erase h chunk)

theorem foldl_receive_consume (hopen : s.closed = none) (hpending : s.pending = none)
    (chunks : List Bytes) (a : Bytes) :
    (chunks.foldl (State.receive client) (s.consume client 0 a)).erase =
      (s.consume client 0 (a ++ chunks.flatten)).erase := by
  induction chunks generalizing a with
  | nil => rw [List.flatten_nil, List.append_nil, List.foldl_nil]
  | cons chunk chunks ih =>
      rw [List.foldl_cons, foldl_receive_erase (receive_consume hopen hpending 0 a chunk), ih,
        List.flatten_cons, List.append_assoc]

end Frames

/-- However the bytes of the server are cut into chunks, the same frames are delivered, and the
connection is closed for the same reason, up to the offset that a read error names, or waits for
the same frame. -/
theorem reassembly_ignores_chunking (first : σ) (chunks : List Bytes) :
    (chunks.foldl (State.receive client) (initial first : State σ ε)).erase =
      (State.receive client (initial first) chunks.flatten).erase := by
  have hchunks : (chunks.foldl (State.receive client)
      ((initial first : State σ ε).consume client 0 [])).erase =
        ((initial first : State σ ε).consume client 0 ([] ++ chunks.flatten)).erase :=
    foldl_receive_consume rfl rfl chunks []
  rw [consume_nil, List.nil_append] at hchunks
  rw [hchunks, receive_open rfl, onData_of_none rfl]

end Reading

/-- A Pong. -/
def pong : Bytes := [7, 0, 0, 0, 0x02, 0x80, 0, 0, 0, 0, 0]

/-- A ping of the server without its nonce. -/
def barePing : Bytes := [7, 0, 0, 0, 0x03, 0x80, 0, 0, 0, 0, 0]

/-- A client that takes every frame. -/
def quiet (client : Unit) (_ : Frame) : Unit × Reaction Unit := (client, .goesOn)

/-- The offset is where the body lies in the chunk, not in the bytes of the server. -/
theorem chunks_shift_offset :
    (State.receive quiet (initial ()) (pong ++ barePing)).closed =
        some (.failed (.truncated 8 22)) ∧
      ([pong, barePing].foldl (State.receive quiet) (initial ())).closed =
        some (.failed (.truncated 8 11)) := by
  have hpong : State.consume quiet (initial ()) 0 pong =
      State.frame quiet (initial ()) 0 pong := by
    rw [consume_whole 0 (show readU32 pong = some (7, pong.drop 4) from rfl) (by decide)
      (by decide)]
    exact consume_nil _
  have hboth : State.consume quiet (initial ()) 0 (pong ++ barePing) =
      State.consume quiet (State.frame quiet (initial ()) 0 pong) 11 barePing :=
    consume_whole 0 (show readU32 (pong ++ barePing) = some (7, pong.drop 4 ++ barePing) from rfl)
      (by decide) (by decide)
  have hping (offset : ℕ) :
      (State.consume quiet (State.frame quiet (initial ()) 0 pong) offset barePing).closed =
        some (.failed (.truncated 8 (offset + 11))) := by
    rw [consume_whole offset (show readU32 barePing = some (7, barePing.drop 4) from rfl)
      (by decide) (by decide)]
    rfl
  constructor
  · rw [receive_open rfl, onData_of_none rfl, hboth]
    exact hping 11
  · rw [List.foldl_cons, receive_open rfl, onData_of_none rfl, hpong, List.foldl_cons,
      receive_open rfl, onData_of_none rfl, List.foldl_nil]
    exact (hping 0).trans rfl

end Kronos.KronosDb.FrameReassembly
