import Mathlib.Data.Int.Notation
import Mathlib.Data.List.Infix
import Kronos.KronosDb.Writer

/-!
# Coalesced writes

The frames written in one tick share a buffer and leave together. `writeFrame`
puts the header down, lets the body's encoder run and patches the length in
last; when the encoder throws or the frame is too large, it rewinds. `flush` and
a graceful shutdown hand the socket a view of the buffer. The socket reads the
bytes of a view when it gets to it, so what it sends is read from the memory as
it is at the end.

A body writes on the writer it is given and does not itself write frames.
-/
namespace Kronos.KronosDb.WriteCoalescing
open NativeTransport Writer

/-- The arguments of `writeFrame`. -/
structure Call where
  stream : UInt32
  flags : UInt8
  kind : UInt16
  body : Body

/-- The header behind its length. -/
def Call.header (call : Call) : Bytes := u16 call.kind.toNat ++ call.flags :: u32 call.stream.toNat

/-- The frame of a call, nothing for one that throws. -/
def Call.frame (call : Call) : Bytes :=
  match call.body.content with
  | .ok body => u32 (call.header.length + body.length) ++ (call.header ++ body)
  | .error _ => []

inductive Thrown where
  | closed
  | byBody (error : String)
  | tooLarge (size limit : ℕ)
  deriving DecidableEq, Repr

structure State where
  w : Writer
  maxFrame : UInt32
  closed : Bool
  flushQueued : Bool
  /-- The views the socket was handed: a cell and a length. -/
  handed : List (ℕ × ℕ)
  /-- The calls that returned. -/
  returned : List Call
  /-- The connection was closed without handing over the rest. -/
  aborted : Bool

def minWriteBuffer : ℕ := 1024

def maxWriteBuffer : ℕ := 1048576

def initial : State := ⟨fresh [] minWriteBuffer, 1048576, false, false, [], [], false⟩

/-- `32 - Math.clz32(n)`. -/
def bitLength (n : ℕ) : ℕ := if n % 4294967296 = 0 then 0 else (n % 4294967296).log2 + 1

/-- `1 << k` on 32 bits. -/
def shiftOne (k : ℕ) : ℤ := if k % 32 = 31 then -2147483648 else ((1 <<< (k % 32) : ℕ) : ℤ)

/-- The size of the buffer after one of `length` bytes was handed over. -/
def capacity (length : ℕ) : ℕ :=
  min maxWriteBuffer (max minWriteBuffer (shiftOne (bitLength length)).toNat)

namespace State
variable (s : State)

/-- What the socket sends in the end. -/
def sent : Bytes := s.handed.flatMap fun view => (s.w.memory[view.1]?.getD []).take view.2

def flush : State :=
  if s.closed || s.w.pos == 0 then { s with flushQueued := false }
  else
    { s with
      flushQueued := false
      handed := s.handed ++ [(s.w.buf, s.w.pos)]
      w := fresh s.w.memory (capacity s.w.pos) }

/-- The header, its length left open. -/
def open_ (w : Writer) (call : Call) : Writer :=
  let start := w.pos
  let w := w.ensure frameHeaderLen
  let w := w.set (start + 4) (u16 call.kind.toNat)
  let w := w.set (start + 6) [call.flags]
  let w := w.set (start + 7) (u32 call.stream.toNat)
  { w with pos := start + frameHeaderLen }

def writeFrame (call : Call) : State × Option Thrown :=
  if s.closed then (s, some .closed)
  else
    let start := s.w.pos
    let done := call.body.run (open_ s.w call)
    match done.2 with
    | some error => ({ s with w := { done.1 with pos := start } }, some (.byBody error))
    | none =>
        let size := done.1.pos - start
        if s.maxFrame.toNat < size then
          ({ s with w := { done.1 with pos := start } }, some (.tooLarge size s.maxFrame.toNat))
        else
          ({ s with
              w := done.1.set start (u32 (size - 4))
              flushQueued := true
              returned := s.returned ++ [call] }, none)

def shutdown (graceful : Bool) : State :=
  if s.closed then s
  else if graceful then
    if 0 < s.w.pos then
      { s with
        closed := true
        handed := s.handed ++ [(s.w.buf, s.w.pos)]
        w := { s.w with pos := 0 } }
    else { s with closed := true }
  else { s with closed := true, aborted := true }

end State

inductive Action where
  | writeFrame (call : Call)
  | flush
  | shutdown (graceful : Bool)
  /-- The server's limit arrives. -/
  | welcome (maxFrame : UInt32)

def step (s : State) : Action → State
  | .writeFrame call => (s.writeFrame call).1
  | .flush => s.flush
  | .shutdown graceful => s.shutdown graceful
  | .welcome maxFrame => { s with maxFrame := maxFrame }

/-! ## What the socket gets -/

/-- The frames of some calls. -/
def frames (calls : List Call) : Bytes := calls.flatMap Call.frame

/-- A frame as a reader sees it: its length, kind, flags, stream and body. -/
def Readable (call : Call) : Prop :=
  ∃ body rest, call.body.content = .ok body ∧
    readU32 call.frame = some (call.frame.length - 4, rest) ∧
      readHeader rest = some (call.kind.toNat, call.flags.toNat, call.stream.toNat) ∧
        call.frame.drop frameHeaderLen = body

structure Whole (s : State) : Prop where
  readable : ∀ call ∈ s.returned, Readable call
  /-- What is sent and what waits are the frames of the calls that returned. -/
  waiting : s.closed = false → s.sent ++ s.w.written = frames s.returned
  /-- A flush is coming while something waits. -/
  queued : s.closed = false → 0 < s.w.pos → s.flushQueued = true
  closed : s.closed = true → s.aborted = false → s.sent = frames s.returned
  aborted : s.sent <+: frames s.returned

section Writing
variable {w t : Writer} {s : State}

theorem length_header (call : Call) : call.header.length = 7 := rfl

/-- Opening a frame writes its header behind four bytes that are still open. -/
theorem extends_open (h : Ok w) (call : Call) :
    ∃ gap : Bytes, gap.length = 4 ∧ Extends w (State.open_ w call) (gap ++ call.header) := by
  obtain ⟨hensured, hpos, hroom⟩ := extends_ensure h frameHeaderLen
  have hroom' : w.pos + 11 ≤ (w.ensure frameHeaderLen).buffer.length := hroom
  obtain ⟨gap, hgap, hskip⟩ := set_skip hensured.ok 4 call.header (by omega)
  refine ⟨gap, hgap, ?_⟩
  have hopened : State.open_ w call = w.put (gap ++ call.header) 0 := by
    have hlength : (gap ++ call.header).length + 0 = frameHeaderLen := by
      rw [List.length_append, hgap, length_header]
      rfl
    have hfirst := set_set hensured.ok (w.pos + 4) (u16 call.kind.toNat) [call.flags]
      (by rw [length_u16]; omega)
    have hsecond := set_set hensured.ok (w.pos + 4) (u16 call.kind.toNat ++ [call.flags])
      (u32 call.stream.toNat)
        (by simp only [List.length_append, length_u16, List.length_singleton]; omega)
    simp only [List.length_append, length_u16, List.length_singleton] at hfirst hsecond
    rw [put, hlength, ← hskip]
    simp only [State.open_, hpos]
    rw [hfirst, hsecond, List.length_append, hgap, length_header]
    simp [Call.header, frameHeaderLen]
  rw [hopened]
  exact extends_put h _ _

/-- A call returns exactly when the connection is open, its body can be encoded and it fits; its
frame is then behind what was written. A call that throws leaves nothing. -/
theorem writeFrame_cases (hopen : s.closed = false) (h : Ok s.w) (call : Call) :
    (∃ body, call.body.content = .ok body ∧ frameHeaderLen + body.length ≤ s.maxFrame.toNat ∧
        ∃ t, Extends s.w t call.frame ∧
          s.writeFrame call =
            ({ s with w := t, flushQueued := true, returned := s.returned ++ [call] }, none)) ∨
      (∀ body, call.body.content = .ok body → s.maxFrame.toNat < frameHeaderLen + body.length) ∧
        ∃ t thrown, Extends s.w t [] ∧ s.writeFrame call = ({ s with w := t }, some thrown) := by
  obtain ⟨gap, hgap, hopened⟩ := extends_open h call
  obtain ⟨bytes, hbody, hcontent⟩ := call.body.run_spec hopened.ok
  have hall := hopened.trans hbody
  unfold State.writeFrame
  rw [if_neg (by simp [hopen])]
  simp only
  cases herror : (call.body.run (State.open_ s.w call)).2 with
  | some error =>
      rw [herror, Body.outcome] at hcontent
      refine .inr ⟨?_, _, _, hall.rewind h, rfl⟩
      intro body hok
      rw [hcontent] at hok
      cases hok
  | none =>
      rw [herror, Body.outcome] at hcontent
      have hsize : (call.body.run (State.open_ s.w call)).1.pos - s.w.pos =
          frameHeaderLen + bytes.length := by
        rw [hall.pos h, List.length_append, List.length_append, hgap, length_header, frameHeaderLen]
        omega
      simp only [hsize]
      split_ifs with hlarge
      · refine .inr ⟨?_, _, _, hall.rewind h, rfl⟩
        intro body hok
        rw [hcontent] at hok
        cases hok
        exact hlarge
      · refine .inl ⟨bytes, hcontent, Nat.not_lt.mp hlarge, _, ?_, rfl⟩
        rw [List.append_assoc] at hall
        have hframe :
            call.frame = u32 (frameHeaderLen + bytes.length - 4) ++ (call.header ++ bytes) := by
          rw [Call.frame, hcontent, length_header]
          simp only [frameHeaderLen]
          congr 2
          omega
        rw [hframe]
        exact hall.patch h (by rw [hgap, length_u32])

theorem readable_of_fits {call : Call} {body : Bytes} (hcontent : call.body.content = .ok body)
    {limit : UInt32} (hfits : frameHeaderLen + body.length ≤ limit.toNat) : Readable call := by
  have hlimit := limit.toNat_lt
  have hframe : call.frame = u32 (7 + body.length) ++ (call.header ++ body) := by
    rw [Call.frame, hcontent]
    rfl
  refine ⟨body, call.header ++ body, hcontent, ?_, ?_, ?_⟩
  · have hlength : call.frame.length - 4 = 7 + body.length := by
      rw [hframe, List.length_append, List.length_append, length_u32, length_header,
        Nat.add_sub_cancel_left]
    rw [hlength, hframe, readU32_u32 (by simp only [frameHeaderLen] at hfits; omega)]
  · rw [Call.header, List.append_assoc, readHeader, readU16_u16 call.kind.toNat_lt]
    simp only [Option.bind_some, List.cons_append, readU8]
    rw [readU32_u32 call.stream.toNat_lt]
    rfl
  · rw [hframe, ← List.append_assoc]
    exact List.drop_left' (by rw [List.length_append, length_u32, length_header]; rfl)

/-- What holds while the connection is open. -/
structure Live (s : State) : Prop where
  ok : Ok s.w
  /-- The socket has no view of the buffer that is written to. -/
  views : ∀ view ∈ s.handed, view.1 < s.w.memory.length ∧ view.1 ≠ s.w.buf
  bytes : s.sent ++ s.w.written = frames s.returned
  queued : 0 < s.w.pos → s.flushQueued = true

def Inv (s : State) : Prop :=
  (∀ call ∈ s.returned, Readable call) ∧
    (s.closed = false ∧ Live s ∨
      s.closed = true ∧ (s.aborted = false → s.sent = frames s.returned) ∧
        s.sent <+: frames s.returned)

/-- What the socket will send does not change when the cells it has views of do not. -/
theorem sent_congr {memory memory' : List Bytes} {views : List (ℕ × ℕ)}
    (h : ∀ view ∈ views, memory'[view.1]? = memory[view.1]?) :
    (views.flatMap fun view => (memory'[view.1]?.getD []).take view.2) =
      views.flatMap fun view => (memory[view.1]?.getD []).take view.2 := by
  refine List.flatMap_congr fun view hview => ?_
  rw [h view hview]

theorem Live.writes (h : Live s) {bytes : Bytes} (ht : Extends s.w t bytes) :
    Ok t ∧ (∀ view ∈ s.handed, view.1 < t.memory.length ∧ view.1 ≠ t.buf) ∧
      { s with w := t }.sent ++ t.written = frames s.returned ++ bytes := by
  refine ⟨ht.ok, ?_, ?_⟩
  · intro view hview
    obtain ⟨hcell, hne⟩ := h.views view hview
    have hmemory := ht.memory
    rcases ht.cell with hsame | hnew
    · rw [hsame]
      exact ⟨by omega, hne⟩
    · exact ⟨by omega, by omega⟩
  · have hsent : { s with w := t }.sent = s.sent :=
      sent_congr fun view hview => ht.others view.1 (h.views view hview).1 (h.views view hview).2
    rw [hsent, ht.written, ← List.append_assoc, h.bytes]

theorem writeFrame_closed (hclosed : s.closed = true) (call : Call) :
    s.writeFrame call = (s, some .closed) := by
  unfold State.writeFrame
  rw [if_pos hclosed]

theorem Inv.live (h : Inv s) (hopen : s.closed = false) : Live s := by
  rcases h.2 with ⟨-, hlive⟩ | ⟨hclosed, -⟩
  · exact hlive
  · rw [hopen] at hclosed
    cases hclosed

theorem Inv.writeFrame (h : Inv s) (call : Call) : Inv (s.writeFrame call).1 := by
  rcases h with ⟨hreadable, ⟨hopen, hlive⟩ | ⟨hclosed, hover⟩⟩
  · rcases writeFrame_cases hopen hlive.ok call with
      ⟨body, hcontent, hfits, t, ht, hwrite⟩ | ⟨-, t, thrown, ht, hwrite⟩
    · rw [hwrite]
      obtain ⟨hok, hviews, hbytes⟩ := hlive.writes ht
      refine ⟨?_, .inl ⟨hopen, hok, hviews, ?_, fun _ => rfl⟩⟩
      · intro other hother
        rcases List.mem_append.mp hother with hold | hnew
        · exact hreadable other hold
        · rw [List.mem_singleton.mp hnew]
          exact readable_of_fits hcontent hfits
      · simp only [frames, List.flatMap_append, List.flatMap_singleton]
        exact hbytes
    · rw [hwrite]
      obtain ⟨hok, hviews, hbytes⟩ := hlive.writes ht
      rw [List.append_nil] at hbytes
      refine ⟨hreadable, .inl ⟨hopen, hok, hviews, hbytes, ?_⟩⟩
      intro hpos
      have hsame := ht.pos hlive.ok
      simp only at hpos
      rw [hsame, List.length_nil, Nat.add_zero] at hpos
      exact hlive.queued hpos
  · rw [writeFrame_closed hclosed]
    exact ⟨hreadable, .inr ⟨hclosed, hover⟩⟩

theorem capacity_pos (length : ℕ) : 0 < capacity length := by
  unfold capacity minWriteBuffer maxWriteBuffer
  omega

/-- The buffer is handed over. -/
theorem Live.hand (h : Live s) :
    (s.handed ++ [(s.w.buf, s.w.pos)]).flatMap
      (fun view => (s.w.memory[view.1]?.getD []).take view.2) = frames s.returned := by
  rw [List.flatMap_append, List.flatMap_singleton, ← h.bytes]
  rfl

theorem written_eq_nil (h : Ok w) (hpos : w.pos = 0) : w.written = [] :=
  List.length_eq_zero_iff.mp (by rw [h.length_written, hpos])

/-- Nothing waits in an empty buffer. -/
theorem Live.sent_of_empty (h : Live s) (hpos : s.w.pos = 0) : s.sent = frames s.returned := by
  have hbytes := h.bytes
  rw [written_eq_nil h.ok hpos, List.append_nil] at hbytes
  exact hbytes

theorem Live.flush (h : Live s) (hopen : s.closed = false) :
    Live s.flush ∧ s.flush.sent = frames s.returned := by
  unfold State.flush
  split_ifs with hempty
  · have hpos : s.w.pos = 0 := by simpa [hopen] using hempty
    exact ⟨⟨h.ok, h.views, h.bytes, fun hsome => absurd hpos (Nat.ne_of_gt hsome)⟩,
      h.sent_of_empty hpos⟩
  · have hok := ok_fresh s.w.memory (capacity_pos s.w.pos)
    have hviews : ∀ view ∈ s.handed ++ [(s.w.buf, s.w.pos)], view.1 < s.w.memory.length := by
      intro view hview
      rcases List.mem_append.mp hview with hold | hnew
      · exact (h.views view hold).1
      · rw [List.mem_singleton.mp hnew]
        exact h.ok.cell
    have hsent : (s.handed ++ [(s.w.buf, s.w.pos)]).flatMap
        (fun view => ((fresh s.w.memory (capacity s.w.pos)).memory[view.1]?.getD []).take view.2) =
          frames s.returned := by
      rw [← h.hand]
      exact sent_congr fun view hview => List.getElem?_append_left (hviews view hview)
    refine ⟨⟨hok, ?_, ?_, nofun⟩, hsent⟩
    · intro view hview
      have hcell := hviews view hview
      simp only [fresh, List.length_append]
      omega
    · rw [written_eq_nil hok rfl, List.append_nil]
      exact hsent

theorem Inv.flush (h : Inv s) : Inv s.flush := by
  rcases h with ⟨hreadable, ⟨hopen, hlive⟩ | ⟨hclosed, hover⟩⟩
  · have hreturned : s.flush.returned = s.returned ∧ s.flush.closed = s.closed := by
      unfold State.flush
      split_ifs <;> exact ⟨rfl, rfl⟩
    rw [← hreturned.1] at hreadable
    exact ⟨hreadable, .inl ⟨hreturned.2.trans hopen, (hlive.flush hopen).1⟩⟩
  · unfold State.flush
    rw [if_pos (by simp [hclosed])]
    exact ⟨hreadable, .inr ⟨hclosed, hover⟩⟩

theorem shutdown_of_open (hopen : s.closed = false) (graceful : Bool) :
    (s.shutdown graceful).closed = true ∧ (s.shutdown graceful).returned = s.returned := by
  unfold State.shutdown
  rw [if_neg (by rw [hopen]; exact Bool.false_ne_true)]
  split_ifs <;> exact ⟨rfl, rfl⟩

/-- A graceful shutdown is not an abort, so all of it is handed over. -/
theorem Live.ended (h : Live s) (hopen : s.closed = false) :
    (s.shutdown true).sent = frames s.returned := by
  unfold State.shutdown
  rw [if_neg (by rw [hopen]; exact Bool.false_ne_true), if_pos rfl]
  split_ifs with hpos
  · exact h.hand
  · exact h.sent_of_empty (Nat.eq_zero_of_not_pos hpos)

theorem shutdown_drops (hopen : s.closed = false) :
    (s.shutdown false).sent = s.sent ∧ (s.shutdown false).aborted = true := by
  unfold State.shutdown
  rw [if_neg (by rw [hopen]; exact Bool.false_ne_true), if_neg Bool.false_ne_true]
  exact ⟨rfl, rfl⟩

theorem Inv.shutdown (h : Inv s) (graceful : Bool) : Inv (s.shutdown graceful) := by
  cases hclosed : s.closed with
  | true =>
      rw [State.shutdown, if_pos hclosed]
      exact h
  | false =>
      have hlive := h.live hclosed
      obtain ⟨hdown, hreturned⟩ := shutdown_of_open hclosed graceful
      rw [Inv, hreturned]
      refine ⟨h.1, .inr ⟨hdown, ?_⟩⟩
      cases graceful with
      | true =>
          rw [hlive.ended hclosed]
          exact ⟨fun _ => rfl, List.prefix_rfl⟩
      | false =>
          obtain ⟨hsent, haborted⟩ := shutdown_drops hclosed
          rw [hsent, haborted, ← hlive.bytes]
          exact ⟨nofun, List.prefix_append _ _⟩

theorem Inv.step (h : Inv s) (action : Action) : Inv (step s action) := by
  cases action with
  | writeFrame call => exact h.writeFrame call
  | flush => exact h.flush
  | shutdown graceful => exact h.shutdown graceful
  | welcome maxFrame =>
      rcases h with ⟨hreadable, ⟨hopen, hlive⟩ | hover⟩
      · exact ⟨hreadable, .inl ⟨hopen, hlive.ok, hlive.views, hlive.bytes, hlive.queued⟩⟩
      · exact ⟨hreadable, .inr hover⟩

theorem inv_initial : Inv initial := by
  refine ⟨nofun, .inl ⟨rfl, ok_fresh [] (by decide), nofun, ?_, nofun⟩⟩
  exact written_eq_nil (ok_fresh [] (by decide)) rfl

theorem Inv.whole (h : Inv s) : Whole s := by
  refine ⟨h.1, fun hopen => (h.live hopen).bytes, fun hopen => (h.live hopen).queued,
    fun hclosed => ?_, ?_⟩
  · rcases h.2 with ⟨hopen, -⟩ | ⟨-, hall, -⟩
    · rw [hopen] at hclosed
      cases hclosed
    · exact hall
  · rcases h.2 with ⟨-, hlive⟩ | ⟨-, -, hprefix⟩
    · rw [← hlive.bytes]
      exact List.prefix_append _ _
    · exact hprefix

theorem foldl_step_inv (actions : List Action) (h : Inv s) : Inv (actions.foldl step s) := by
  induction actions generalizing s with
  | nil => exact h
  | cons action actions ih => exact ih (h.step action)

end Writing

/-- What the next call, flush or shutdown does. -/
structure Effects (s : State) : Prop where
  /-- A call returns exactly when the connection is open, its body can be encoded and it fits. -/
  returns : ∀ call, (s.writeFrame call).2 = none ↔ s.closed = false ∧
    ∃ body, call.body.content = .ok body ∧ frameHeaderLen + body.length ≤ s.maxFrame.toNat
  /-- A call that throws leaves no trace among those that returned. -/
  recorded : ∀ call, (s.writeFrame call).1.returned =
    if (s.writeFrame call).2.isNone then s.returned ++ [call] else s.returned
  flushed : s.closed = false →
    s.flush.sent = frames s.returned ∧ s.flush.returned = s.returned
  /-- A graceful shutdown hands over what waits. -/
  ended : s.closed = false → (s.shutdown true).closed = true ∧
    (s.shutdown true).sent = frames s.returned ∧ (s.shutdown true).returned = s.returned
  /-- Any other one drops it. -/
  dropped : s.closed = false → (s.shutdown false).closed = true ∧
    (s.shutdown false).sent = s.sent ∧ (s.shutdown false).returned = s.returned
  /-- A closed connection hands over nothing more. -/
  stays : s.closed = true → ∀ action, (step s action).closed = true ∧
    (step s action).sent = s.sent ∧ (step s action).returned = s.returned

section Effects
variable {s : State}

theorem Inv.returns (h : Inv s) (call : Call) :
    (s.writeFrame call).2 = none ↔ s.closed = false ∧
      ∃ body, call.body.content = .ok body ∧ frameHeaderLen + body.length ≤ s.maxFrame.toNat := by
  cases hclosed : s.closed with
  | true =>
      rw [writeFrame_closed hclosed]
      refine ⟨fun hnone => ?_, fun hopen => ?_⟩
      · cases hnone
      · cases hopen.1
  | false =>
      rcases writeFrame_cases hclosed (h.live hclosed).ok call with
        ⟨body, hcontent, hfits, t, -, hwrite⟩ | ⟨hnot, t, thrown, -, hwrite⟩
      · rw [hwrite]
        exact ⟨fun _ => ⟨rfl, body, hcontent, hfits⟩, fun _ => rfl⟩
      · rw [hwrite]
        refine ⟨fun hnone => ?_, ?_⟩
        · cases hnone
        · rintro ⟨-, body, hcontent, hfits⟩
          exact absurd hfits (Nat.not_le.mpr (hnot body hcontent))

theorem Inv.recorded (h : Inv s) (call : Call) :
    (s.writeFrame call).1.returned =
      if (s.writeFrame call).2.isNone then s.returned ++ [call] else s.returned := by
  cases hclosed : s.closed with
  | true =>
      rw [writeFrame_closed hclosed]
      rfl
  | false =>
      rcases writeFrame_cases hclosed (h.live hclosed).ok call with
        ⟨body, -, -, t, -, hwrite⟩ | ⟨-, t, thrown, -, hwrite⟩
      · rw [hwrite]
        rfl
      · rw [hwrite]
        rfl

theorem step_closed (hclosed : s.closed = true) (action : Action) :
    (step s action).closed = true ∧ (step s action).sent = s.sent ∧
      (step s action).returned = s.returned := by
  cases action with
  | writeFrame call =>
      rw [step, writeFrame_closed hclosed]
      exact ⟨hclosed, rfl, rfl⟩
  | flush =>
      rw [step, State.flush, if_pos (by rw [hclosed]; rfl)]
      exact ⟨hclosed, rfl, rfl⟩
  | shutdown graceful =>
      rw [step, State.shutdown, if_pos hclosed]
      exact ⟨hclosed, rfl, rfl⟩
  | welcome maxFrame => exact ⟨hclosed, rfl, rfl⟩

theorem flush_returned : s.flush.returned = s.returned := by
  unfold State.flush
  split_ifs <;> rfl

theorem Inv.effects (h : Inv s) : Effects s where
  returns := h.returns
  recorded := h.recorded
  flushed := fun hopen => ⟨((h.live hopen).flush hopen).2, flush_returned⟩
  ended := fun hopen =>
    ⟨(shutdown_of_open hopen true).1, (h.live hopen).ended hopen, (shutdown_of_open hopen true).2⟩
  dropped := fun hopen =>
    ⟨(shutdown_of_open hopen false).1, (shutdown_drops hopen).1, (shutdown_of_open hopen false).2⟩
  stays := step_closed

end Effects

/-- After any calls, flushes and shutdowns, what was handed over and what waits are whole frames of
the calls that returned, and the next flush or graceful shutdown hands over all of them. -/
theorem coalesced_writes_whole (actions : List Action) :
    Whole (actions.foldl step initial) ∧ Effects (actions.foldl step initial) :=
  have hinv := foldl_step_inv actions inv_initial
  ⟨hinv.whole, hinv.effects⟩

/-- Two frames, and between them one whose body throws partway. -/
def interrupted : List Action :=
  [.writeFrame ⟨1, 1, 0x0002, .write [7] 0⟩,
    .writeFrame ⟨2, 0, 0x0006, .andThen (.write [9] 0) (.throws "no")⟩,
    .writeFrame ⟨3, 0, 0x0003, .write [] 0⟩]

theorem coalesced_writes_whole_interrupted :
    ((interrupted.foldl step initial).shutdown true).closed = true ∧
      ((interrupted.foldl step initial).shutdown true).sent =
        [8, 0, 0, 0, 2, 0, 1, 1, 0, 0, 0, 7, 7, 0, 0, 0, 3, 0, 0, 3, 0, 0, 0] := by
  have hended := (coalesced_writes_whole interrupted).2.ended (by decide +kernel)
  exact ⟨hended.1, hended.2.1.trans (by decide +kernel)⟩

end Kronos.KronosDb.WriteCoalescing
