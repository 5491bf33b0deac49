import Mathlib.Data.List.Basic
import Kronos.KronosDb.NativeTransport

/-!
# The writer of the native protocol

A writer fills a buffer from its start and moves to a larger one when it runs
out of room. The socket keeps views of buffers it was handed, so buffers are
cells of a memory: growing allocates a new one, and nothing but the writer whose
buffer it is changes a cell.

The bodies of frames are made of a few operations: bytes are written at the end,
bytes that were written are patched once what follows them is known, and an
encoder may throw anywhere.
-/
namespace Kronos.KronosDb
open NativeTransport

/-! ## Little-endian numbers -/

def u16 (v : ℕ) : Bytes := [UInt8.ofNat v, UInt8.ofNat (v / 256)]

def u32 (v : ℕ) : Bytes := u16 v ++ u16 (v / 65536)

def u64 (v : ℕ) : Bytes := u32 v ++ u32 (v / 4294967296)

@[simp] theorem length_u16 (v : ℕ) : (u16 v).length = 2 := rfl

@[simp] theorem length_u32 (v : ℕ) : (u32 v).length = 4 := rfl

@[simp] theorem length_u64 (v : ℕ) : (u64 v).length = 8 := rfl

theorem readU16_u16_mod (v : ℕ) (rest : Bytes) :
    readU16 (u16 v ++ rest) = some (v % 65536, rest) := by
  have hv : v % 256 + 256 * (v / 256 % 256) = v % 65536 := by omega
  simp only [u16, List.cons_append, List.nil_append, readU16, UInt8.toNat_ofNat', Nat.reducePow, hv]

theorem readU16_u16 {v : ℕ} (h : v < 65536) (rest : Bytes) :
    readU16 (u16 v ++ rest) = some (v, rest) := by
  rw [readU16_u16_mod, Nat.mod_eq_of_lt h]

theorem readU32_u32_mod (v : ℕ) (rest : Bytes) : readU32 (u32 v ++ rest) = some (v % 4294967296,
    rest) := by
  have hv : v % 65536 + 65536 * (v / 65536 % 65536) = v % 4294967296 := by omega
  rw [readU32, u32, List.append_assoc, readU16_u16_mod, Option.bind_some, readU16_u16_mod,
    Option.map_some, hv]

theorem readU32_u32 {v : ℕ} (h : v < 4294967296) (rest : Bytes) :
    readU32 (u32 v ++ rest) = some (v, rest) := by
  rw [readU32_u32_mod, Nat.mod_eq_of_lt h]

/-! ## Writers -/

structure Writer where
  memory : List Bytes
  /-- The cell that is the writer's buffer. -/
  buf : ℕ
  pos : ℕ
  deriving DecidableEq, Repr

/-- `while (size < need) size *= 2`, from a size that is not 0. -/
def grow (size need : ℕ) : ℕ := if 0 < size ∧ size < need then grow (size * 2) need else size
  termination_by need - size

/-- Bytes in the place of others. -/
def splice (buffer : Bytes) (offset : ℕ) (bytes : Bytes) : Bytes :=
  buffer.take offset ++ (bytes ++ buffer.drop (offset + bytes.length))

namespace Writer
variable (w : Writer)

def buffer : Bytes := w.memory[w.buf]?.getD []

def written : Bytes := w.buffer.take w.pos

/-- `writer(capacity)`, in a new cell. -/
def fresh (memory : List Bytes) (capacity : ℕ) : Writer :=
  ⟨memory ++ [List.replicate capacity 0], memory.length, 0⟩

def ensure (n : ℕ) : Writer :=
  if w.pos + n ≤ w.buffer.length then w
  else
    { w with
      memory :=
        w.memory ++ [w.written ++ List.replicate (grow (w.buffer.length * 2) (w.pos + n) - w.pos) 0]
      buf := w.memory.length }

def set (offset : ℕ) (bytes : Bytes) : Writer :=
  { w with memory := w.memory.modify w.buf fun buffer => splice buffer offset bytes }

/-- Bytes at the end, with room for `spare` more. -/
def put (bytes : Bytes) (spare : ℕ) : Writer :=
  let w := w.ensure (bytes.length + spare)
  { w.set w.pos bytes with pos := w.pos + bytes.length }

end Writer

/-- What an encoder does to the writer. -/
inductive Body where
  | write (bytes : Bytes) (spare : ℕ)
  | throws (error : String)
  | andThen (first second : Body)
  /-- A placeholder is written, then `inner`, then the placeholder is patched with what is known
  once `inner` has written its bytes. -/
  | patched (placeholder : Bytes) (final : Bytes → Bytes)
      (same : ∀ bytes, (final bytes).length = placeholder.length) (inner : Body)

namespace Body

/-- Runs the encoder; the error where it throws. -/
def run : Body → Writer → Writer × Option String
  | .write bytes spare, w => (w.put bytes spare, none)
  | .throws error, w => (w, some error)
  | .andThen first second, w =>
      let done := first.run w
      match done.2 with
      | none => second.run done.1
      | some error => (done.1, some error)
  | .patched placeholder final _ inner, w =>
      let done := inner.run (w.put placeholder 0)
      match done.2 with
      | none => (done.1.set w.pos (final (done.1.written.drop (w.pos + placeholder.length))), none)
      | some error => (done.1, some error)

/-- The bytes it stands for. -/
def content : Body → Except String Bytes
  | .write bytes _ => .ok bytes
  | .throws error => .error error
  | .andThen first second =>
      match first.content with
      | .ok bytes => second.content.map (bytes ++ ·)
      | .error error => .error error
  | .patched _ final _ inner => inner.content.map fun bytes => final bytes ++ bytes

end Body

/-! ## What a writer holds -/

theorem need_le_grow {size need : ℕ} (h : 0 < size) : need ≤ grow size need := by
  fun_induction grow size need with
  | case1 size hmore ih => exact ih (by omega)
  | case2 size hdone => omega

theorem length_splice {buffer bytes : Bytes} {offset : ℕ}
    (h : offset + bytes.length ≤ buffer.length) :
    (splice buffer offset bytes).length = buffer.length := by
  simp only [splice, List.length_append, List.length_take, List.length_drop]
  omega

namespace Writer

structure Ok (w : Writer) : Prop where
  cell : w.buf < w.memory.length
  inside : w.pos ≤ w.buffer.length
  room : 0 < w.buffer.length

/-- `t` has written `content` after what `w` had, and has left the cells of others alone. -/
structure Extends (w t : Writer) (content : Bytes) : Prop where
  ok : Ok t
  written : t.written = w.written ++ content
  others : ∀ i < w.memory.length, i ≠ w.buf → t.memory[i]? = w.memory[i]?
  cell : t.buf = w.buf ∨ w.memory.length ≤ t.buf
  memory : w.memory.length ≤ t.memory.length

section Operations
variable {w t u : Writer} {bytes more : Bytes} {offset : ℕ}

theorem Ok.length_written (h : Ok w) : w.written.length = w.pos := by
  rw [written, List.length_take]
  exact Nat.min_eq_left h.inside

theorem Extends.refl (h : Ok w) : Extends w w [] :=
  ⟨h, (List.append_nil _).symm, fun _ _ _ => rfl, .inl rfl, Nat.le_refl _⟩

theorem Extends.trans (h : Extends w t bytes) (k : Extends t u more) :
    Extends w u (bytes ++ more) := by
  refine ⟨k.ok, ?_, ?_, ?_, Nat.le_trans h.memory k.memory⟩
  · rw [k.written, h.written, List.append_assoc]
  · intro i hi hne
    rw [k.others i (Nat.lt_of_lt_of_le hi h.memory), h.others i hi hne]
    rcases h.cell with hsame | hnew
    · rwa [hsame]
    · omega
  · rcases k.cell with hsame | hnew
    · rw [hsame]
      exact h.cell
    · exact .inr (Nat.le_trans h.memory hnew)

theorem Extends.pos (hw : Ok w) (h : Extends w t bytes) : t.pos = w.pos + bytes.length := by
  rw [← h.ok.length_written, h.written, List.length_append, hw.length_written]

theorem ok_fresh (memory : List Bytes) {capacity : ℕ} (h : 0 < capacity) :
    Ok (fresh memory capacity) := by
  have hbuffer : (fresh memory capacity).buffer = List.replicate capacity 0 := by
    simp [fresh, buffer]
  refine ⟨by simp [fresh], Nat.zero_le _, ?_⟩
  rwa [hbuffer, List.length_replicate]

theorem extends_ensure (h : Ok w) (n : ℕ) :
    Extends w (w.ensure n) [] ∧ (w.ensure n).pos = w.pos ∧
      w.pos + n ≤ (w.ensure n).buffer.length := by
  unfold ensure
  split_ifs with hroom
  · exact ⟨.refl h, rfl, hroom⟩
  · have hgrow : w.pos + n ≤ grow (w.buffer.length * 2) (w.pos + n) :=
      need_le_grow (Nat.mul_pos h.room (by decide))
    have hbuffer : buffer
        ⟨w.memory ++
          [w.written ++ List.replicate (grow (w.buffer.length * 2) (w.pos + n) - w.pos) 0],
          w.memory.length, w.pos⟩ =
        w.written ++ List.replicate (grow (w.buffer.length * 2) (w.pos + n) - w.pos) 0 := by
      simp [buffer]
    have hlength :
        (w.written ++ List.replicate (grow (w.buffer.length * 2) (w.pos + n) - w.pos) 0).length =
        grow (w.buffer.length * 2) (w.pos + n) := by
      rw [List.length_append, h.length_written, List.length_replicate]
      omega
    refine ⟨⟨⟨by simp, ?_, ?_⟩, ?_, ?_, .inr (Nat.le_refl _), by simp⟩, rfl, ?_⟩
    · rw [hbuffer, hlength]
      simp only
      omega
    · rw [hbuffer, hlength]
      have hroom := h.room
      exact Nat.lt_of_lt_of_le (by omega) hgrow
    · rw [written, hbuffer, List.append_nil]
      simp only
      rw [List.take_append_of_le_length (Nat.le_of_eq h.length_written.symm),
        List.take_of_length_le (Nat.le_of_eq h.length_written)]
    · intro i hi _
      exact List.getElem?_append_left hi
    · rw [hbuffer, hlength]
      exact hgrow

theorem buffer_set (h : Ok w) (offset : ℕ) (bytes : Bytes) :
    (w.set offset bytes).buffer = splice w.buffer offset bytes := by
  simp [set, buffer, List.getElem?_eq_getElem h.cell]

theorem set_others (w : Writer) (offset : ℕ) (bytes : Bytes) {i : ℕ} (hne : i ≠ w.buf) :
    (w.set offset bytes).memory[i]? = w.memory[i]? := by
  simp [set, hne.symm]

theorem ok_set (h : Ok w) (hin : offset + bytes.length ≤ w.buffer.length) :
    Ok (w.set offset bytes) := by
  have hlength : (w.set offset bytes).buffer.length = w.buffer.length := by
    rw [buffer_set h offset bytes, length_splice hin]
  refine ⟨by simpa [set] using h.cell, ?_, ?_⟩
  · rw [hlength]
    exact h.inside
  · rw [hlength]
    exact h.room

/-- Bytes among those that were written are replaced. -/
theorem written_set (h : Ok w) {before after : Bytes}
    (hwritten : w.written = before ++ (more ++ after)) (hsame : bytes.length = more.length) :
    Ok (w.set before.length bytes) ∧
      (w.set before.length bytes).written = before ++ (bytes ++ after) := by
  have hpos := h.length_written
  rw [hwritten, List.length_append, List.length_append] at hpos
  have hinside := h.inside
  refine ⟨ok_set h (by omega), ?_⟩
  obtain ⟨beyond, hbuffer⟩ : ∃ beyond, w.buffer = before ++ (more ++ after) ++ beyond :=
    ⟨w.buffer.drop w.pos, by rw [← hwritten, written, List.take_append_drop]⟩
  have hsplice : splice w.buffer before.length bytes = before ++ (bytes ++ after) ++ beyond := by
    have hfirst : w.buffer.take before.length = before := by
      rw [hbuffer, List.append_assoc]
      exact List.take_left
    have hrest : w.buffer.drop (before.length + bytes.length) = after ++ beyond := by
      rw [hbuffer, hsame, List.append_assoc, List.append_assoc, ← List.drop_drop, List.drop_left,
        List.drop_left]
    rw [splice, hfirst, hrest]
    simp only [List.append_assoc]
  rw [written, buffer_set h, hsplice]
  have hlength : (before ++ (bytes ++ after)).length = w.pos := by
    rw [List.length_append, List.length_append]
    omega
  change List.take w.pos _ = _
  rw [← hlength, List.take_left]

/-- A patch changes what was written after `w` only. -/
theorem Extends.patch (h : Extends w t (more ++ bytes)) {final : Bytes} (hw : Ok w)
    (hsame : final.length = more.length) : Extends w (t.set w.pos final) (final ++ bytes) := by
  obtain ⟨hok, hwritten⟩ := written_set h.ok (by rw [h.written]) hsame
  rw [hw.length_written] at hok hwritten
  refine ⟨hok, hwritten, ?_, h.cell, ?_⟩
  · intro i hi hne
    rw [set_others t w.pos final, h.others i hi hne]
    rcases h.cell with hcell | hcell
    · rwa [hcell]
    · omega
  · rw [set, List.length_modify]
    exact h.memory

theorem extends_put (h : Ok w) (bytes : Bytes) (spare : ℕ) :
    Extends w (w.put bytes spare) bytes := by
  obtain ⟨hensured, hpos, hroom⟩ := extends_ensure h (bytes.length + spare)
  have hput : w.put bytes spare =
      { (w.ensure (bytes.length + spare)).set (w.ensure (bytes.length + spare)).pos bytes with
        pos := (w.ensure (bytes.length + spare)).pos + bytes.length } := rfl
  rw [hput]
  generalize w.ensure (bytes.length + spare) = t at hensured hpos hroom
  have hin : t.pos + bytes.length ≤ t.buffer.length := by omega
  have hok := ok_set hensured.ok hin
  have hbuffer := buffer_set hensured.ok t.pos bytes
  have hwritten : (t.set t.pos bytes).buffer.take (t.pos + bytes.length) = t.written ++ bytes := by
    have hlength : (t.buffer.take t.pos ++ bytes).length = t.pos + bytes.length := by
      rw [List.length_append, List.length_take]
      omega
    rw [hbuffer, splice, ← List.append_assoc, ← hlength, List.take_left]
    rfl
  refine ⟨⟨hok.cell, ?_, hok.room⟩, ?_, ?_, hensured.cell, ?_⟩
  · change t.pos + bytes.length ≤ (t.set t.pos bytes).buffer.length
    rwa [hbuffer, length_splice hin]
  · change (t.set t.pos bytes).buffer.take (t.pos + bytes.length) = _
    rw [hwritten, hensured.written, List.append_nil]
  · intro i hi hne
    change (t.set t.pos bytes).memory[i]? = _
    rw [set_others t t.pos bytes, hensured.others i hi hne]
    rcases hensured.cell with hcell | hcell
    · rwa [hcell]
    · omega
  · change _ ≤ (t.set t.pos bytes).memory.length
    rw [set, List.length_modify]
    exact hensured.memory

theorem splice_splice {buffer first second : Bytes} (h : offset + first.length ≤ buffer.length) :
    splice (splice buffer offset first) (offset + first.length) second =
      splice buffer offset (first ++ second) := by
  have hlength : (buffer.take offset ++ first).length = offset + first.length := by
    rw [List.length_append, List.length_take]
    omega
  have hfirst : (splice buffer offset first).take (offset + first.length) =
      buffer.take offset ++ first := by
    rw [splice, ← List.append_assoc]
    exact List.take_left' hlength
  have hrest : (splice buffer offset first).drop (offset + first.length + second.length) =
      buffer.drop (offset + first.length + second.length) := by
    rw [splice, ← List.append_assoc, ← List.drop_drop, List.drop_left' hlength, List.drop_drop]
  rw [splice, hfirst, hrest, splice, List.length_append]
  simp only [List.append_assoc, Nat.add_assoc]

theorem set_eq (w : Writer) (offset : ℕ) (bytes : Bytes) :
    w.set offset bytes =
      { w with memory := w.memory.set w.buf (splice w.buffer offset bytes) } := by
  rw [set, List.modify_eq_set]
  rfl

theorem set_set (h : Ok w) (offset : ℕ) (first second : Bytes)
    (hin : offset + first.length ≤ w.buffer.length) :
    (w.set offset first).set (offset + first.length) second = w.set offset (first ++ second) := by
  rw [set_eq (w.set offset first), buffer_set h, splice_splice hin, set_eq w offset first,
    set_eq w offset]
  simp only [List.set_set]

/-- Skipping bytes is writing again what is there. -/
theorem set_skip (h : Ok w) (skip : ℕ) (bytes : Bytes) (hin : w.pos + skip ≤ w.buffer.length) :
    ∃ gap, gap.length = skip ∧ w.set (w.pos + skip) bytes = w.set w.pos (gap ++ bytes) := by
  have hgap : ((w.buffer.drop w.pos).take skip).length = skip := by
    rw [List.length_take, List.length_drop]
    omega
  refine ⟨(w.buffer.drop w.pos).take skip, hgap, ?_⟩
  have hsame : w.set w.pos ((w.buffer.drop w.pos).take skip) = w := by
    have hsplice : splice w.buffer w.pos ((w.buffer.drop w.pos).take skip) = w.buffer := by
      rw [splice, hgap, ← List.drop_drop, List.take_append_drop, List.take_append_drop]
    rw [set_eq, hsplice, buffer, List.getElem?_eq_getElem h.cell, Option.getD_some,
      List.set_getElem_self]
  rw [← set_set h _ _ _ (by rw [hgap]; exact hin), hgap, hsame]

theorem Extends.rewind (hw : Ok w) (h : Extends w t bytes) :
    Extends w { t with pos := w.pos } [] := by
  have hpos := h.pos hw
  have hinside := h.ok.inside
  refine ⟨⟨h.ok.cell, ?_, h.ok.room⟩, ?_, h.others, h.cell, h.memory⟩
  · change w.pos ≤ t.buffer.length
    omega
  · have hwritten := congrArg (List.take w.pos) h.written
    rw [Writer.written, List.take_take,
      List.take_append_of_le_length (Nat.le_of_eq hw.length_written.symm),
      List.take_of_length_le (Nat.le_of_eq hw.length_written),
        Nat.min_eq_left (by omega)] at hwritten
    rw [List.append_nil, ← hwritten]
    rfl

end Operations

end Writer

/-- What a run that ended so stands for. -/
def Body.outcome (bytes : Bytes) : Option String → Except String Bytes
  | none => .ok bytes
  | some error => .error error

/-- An encoder writes what it stands for, or throws after having written something. -/
theorem Body.run_spec (body : Body) {w : Writer} (h : w.Ok) :
    ∃ bytes, w.Extends (body.run w).1 bytes ∧ body.content = outcome bytes (body.run w).2 := by
  induction body generalizing w with
  | write bytes spare => exact ⟨bytes, Writer.extends_put h bytes spare, rfl⟩
  | throws error => exact ⟨[], .refl h, rfl⟩
  | andThen first second ihfirst ihsecond =>
      obtain ⟨bytes, hfirst, hcontent⟩ := ihfirst h
      cases herror : (first.run w).2 with
      | some error =>
          rw [herror, outcome] at hcontent
          simp only [run, content, herror, hcontent]
          exact ⟨bytes, hfirst, rfl⟩
      | none =>
          rw [herror, outcome] at hcontent
          obtain ⟨more, hsecond, hmore⟩ := ihsecond hfirst.ok
          simp only [run, content, herror, hcontent, hmore]
          refine ⟨bytes ++ more, hfirst.trans hsecond, ?_⟩
          cases (second.run (first.run w).1).2 <;> rfl
  | patched placeholder final same inner ih =>
      have hput := Writer.extends_put h placeholder 0
      obtain ⟨bytes, hinner, hcontent⟩ := ih hput.ok
      cases herror : (inner.run (w.put placeholder 0)).2 with
      | some error =>
          rw [herror, outcome] at hcontent
          simp only [run, content, herror, hcontent]
          exact ⟨placeholder ++ bytes, hput.trans hinner, rfl⟩
      | none =>
          rw [herror, outcome] at hcontent
          have hboth := hput.trans hinner
          have hinside :
              ((inner.run (w.put placeholder 0)).1.written.drop (w.pos + placeholder.length)) =
              bytes := by
            rw [hboth.written, ← List.append_assoc]
            exact List.drop_left' (by rw [List.length_append, h.length_written])
          simp only [run, content, herror, hcontent, hinside]
          exact ⟨final bytes ++ bytes, hboth.patch h (same bytes), rfl⟩

end Kronos.KronosDb
