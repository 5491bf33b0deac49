import Kronos.Lib.Binary64
import Kronos.Lib.Utf8
import Kronos.KronosDb.Writer

/-!
# Fields on the wire

The fields of the native protocol: numbers, texts and byte strings behind their
lengths. A reader takes bytes from the front of what is left of the frame and is
`none` where the source throws. What a writer makes of a value and what the
reader takes for it are joined by `Carried`: it composes as the two sides do.
-/
namespace Kronos.KronosDb.Wire
open Kronos.Lib Kronos.Lib.Utf8 NativeTransport

variable {α β : Type}

/-! ## Reading -/

abbrev Reader := StateT Bytes Option

def readU8 : Reader ℕ := NativeTransport.readU8

def readU16 : Reader ℕ := NativeTransport.readU16

def readU32 : Reader ℕ := NativeTransport.readU32

def readU64 : Reader ℕ := NativeTransport.readU64

def skip (n : ℕ) : Reader Unit := fun bytes => if bytes.length < n then none
    else some ((), bytes.drop n)

def readSlice (n : ℕ) : Reader Bytes :=
  fun bytes => if bytes.length < n then none else some (bytes.take n, bytes.drop n)

/-- A 32-bit number with sign. -/
def signed32 (n : ℕ) : ℤ := if n < 2147483648 then n else (n : ℤ) - 4294967296

/-- The two halves of an i64 put together as a double. -/
def joinHalves (lo hi : ℕ) : ℤ := Binary64.add (Binary64.mul (signed32 hi) 4294967296) lo

def readMillis : Reader ℤ := do
  let lo ← readU32
  let hi ← readU32
  pure (joinHalves lo hi)

def readI64 : Reader ℤ := do
  let lo ← readU32
  let hi ← readU32
  pure (signed32 hi * 4294967296 + lo)

/-- A flag is 0 or 1. -/
def readFlag : Reader Bool := do
  let b ← readU8
  if b > 1 then failure else pure (b == 1)

/-- Text: characters below 0x80 one by one where there are few bytes, else the decoder. -/
def text (fatal : Bool) (bytes : Bytes) : Option Str :=
  if bytes.length ≤ 64 && bytes.all fun b =>
    decide (b.toNat < 0x80) then some (bytes.map fun b => UInt16.ofNat b.toNat)
  else decode fatal bytes

def readUtf8 (fatal : Bool) (len : ℕ) : Reader Str := do
  let bytes ← readSlice len
  StateT.lift (text fatal bytes)

def readStr16 : Reader Str := do readUtf8 true (← readU16)

def readStr32 : Reader Str := do readUtf8 true (← readU32)

def readBytes32 : Reader Bytes := do readSlice (← readU32)

/-! ## Writing -/

def writeU8 (v : ℕ) : Body := .write [UInt8.ofNat v] 0

def writeU16 (v : ℕ) : Body := .write (u16 v) 0

def writeU32 (v : ℕ) : Body := .write (u32 v) 0

def writeU64 (v : ℕ) : Body := .write (u64 v) 0

/-- The bytes of a 64-bit number with sign. -/
def i64 (v : ℤ) : Bytes := u32 (v % 4294967296).toNat ++ u32 (v / 4294967296 % 4294967296).toNat

def writeMillis (v : ℤ) : Body :=
  if Binary64.Safe v then .write (i64 v) 0
  else .throws ("millis " ++ toString v ++ " is not a safe integer")

def writeLen16 (n : ℕ) (ctx : String) : Body :=
  if 0xffff < n then .throws (ctx ++ ": " ++ toString n ++ " exceeds the u16 limit") else writeU16 n

def writeLen32 (n : ℕ) (ctx : String) : Body :=
  if 0xffffffff < n then .throws (ctx ++ ": " ++ toString n ++ " exceeds the u32 limit")
  else writeU32 n

/-- The characters below 0x80 at the beginning one by one, the others by the encoder. -/
def textBytes (s : Str) : Bytes :=
  (s.takeWhile fun u => decide (u.toNat < 0x80)).map (fun u => byte u.toNat) ++
    encode (s.dropWhile fun u => decide (u.toNat < 0x80))

/-- Text behind its length, with room for three bytes a character. -/
def writeUtf8 (limit : ℕ) (len : ℕ → Bytes) (s : Str) (ctx : String) : Body :=
  let bytes := textBytes s
  if limit < bytes.length then
    .throws (ctx ++ ": " ++ toString bytes.length ++ " bytes exceeds the limit")
  else .write (len bytes.length ++ bytes) (s.length * 3 - bytes.length)

def writeStr16 (s : Str) (ctx : String) : Body := writeUtf8 0xffff u16 s ctx

def writeStr32 (s : Str) (ctx : String) : Body := writeUtf8 0xffffffff u32 s ctx

def writeBytes (bytes : Bytes) : Body := .write bytes 0

def writeBytes32 (bytes : Bytes) (ctx : String) : Body :=
  (writeLen32 bytes.length ctx).andThen (writeBytes bytes)

/-- One encoder for each element, in order. -/
def writeEach (write : α → Body) (items : List α) : Body :=
  items.foldr (fun item rest => (write item).andThen rest) (.write [] 0)

/-! ## What is written is read -/

theorem bind_eq_some {read : Reader α} {f : α → Reader β} {bytes rest : Bytes} {b : β} :
    (read >>= f) bytes = some (b, rest) ↔
      ∃ a middle, read bytes = some (a, middle) ∧ f a middle = some (b, rest) := by
  change (read bytes).bind (fun p => f p.1 p.2) = _ ↔ _
  rw [Option.bind_eq_some_iff, Prod.exists]

theorem bind_of_eq {read : Reader α} {bytes middle : Bytes} {a : α}
    (h : read bytes = some (a, middle)) (f : α → Reader β) : (read >>= f) bytes = f a middle := by
  change (read bytes).bind (fun p => f p.1 p.2) = _
  rw [h]
  rfl

/-- From these bytes, whatever follows them, the reader takes exactly them and gives `a`. -/
def Gives (bytes : Bytes) (read : Reader α) (a : α) : Prop :=
  ∀ rest, read (bytes ++ rest) = some (a, rest)

/-- The encoder writes bytes from which the reader takes `a`. -/
def Carried (body : Body) (read : Reader α) (a : α) : Prop :=
  ∃ bytes, body.content = .ok bytes ∧ Gives bytes read a

section Composition
variable {bytes more : Bytes} {body next : Body} {read : Reader α} {f : α → Reader β}
    {a : α} {b : β}

theorem Gives.pure (a : α) : Gives [] (pure a) a := fun _ => rfl

theorem Gives.bind (h : Gives bytes read a) (k : Gives more (f a) b) :
    Gives (bytes ++ more) (read >>= f) b := by
  intro rest
  change (read (bytes ++ more ++ rest)).bind (fun p => f p.1 p.2) = _
  rw [List.append_assoc, h (more ++ rest)]
  exact k rest

theorem content_andThen {first second : Bytes} (h : body.content = .ok first)
    (k : next.content = .ok second) :
    (body.andThen next).content = .ok (first ++ second) := by
  simp only [Body.content, h, k]
  rfl

theorem content_patched {placeholder : Bytes} {final : Bytes → Bytes}
    {same : ∀ bytes, (final bytes).length = placeholder.length} (h : body.content = .ok bytes) :
    (Body.patched placeholder final same body).content = .ok (final bytes ++ bytes) := by
  simp only [Body.content, h]
  rfl

theorem Carried.bind (h : Carried body read a) (k : Carried next (f a) b) :
    Carried (body.andThen next) (read >>= f) b := by
  obtain ⟨first, hfirst, hread⟩ := h
  obtain ⟨second, hsecond, hnext⟩ := k
  exact ⟨first ++ second, content_andThen hfirst hsecond, hread.bind hnext⟩

/-- The reader makes something of what it has read. -/
theorem Carried.then (h : Carried body read a) (k : Gives [] (f a) b) :
    Carried body (read >>= f) b := by
  obtain ⟨bytes, hbytes, hread⟩ := h
  refine ⟨bytes, hbytes, ?_⟩
  have hboth := hread.bind k
  rwa [List.append_nil] at hboth

/-- The encoder writes bytes that begin with some from which the reader takes `a`. -/
def Begins (body : Body) (read : Reader α) (a : α) : Prop :=
  ∃ bytes tail, body.content = .ok (bytes ++ tail) ∧ Gives bytes read a

theorem Carried.leads (h : Carried body read a) (k : ∃ tail, next.content = .ok tail) :
    Begins (body.andThen next) read a := by
  obtain ⟨bytes, hbytes, hread⟩ := h
  obtain ⟨tail, htail⟩ := k
  exact ⟨bytes, tail, content_andThen hbytes htail, hread⟩

theorem Carried.begins (h : Carried body read a) (k : Begins next (f a) b) :
    Begins (body.andThen next) (read >>= f) b := by
  obtain ⟨first, hfirst, hread⟩ := h
  obtain ⟨second, tail, hsecond, hnext⟩ := k
  refine ⟨first ++ second, tail, ?_, hread.bind hnext⟩
  rw [content_andThen hfirst hsecond, List.append_assoc]

theorem Begins.then (h : Begins body read a) (k : Gives [] (f a) b) :
    Begins body (read >>= f) b := by
  obtain ⟨bytes, tail, hbytes, hread⟩ := h
  refine ⟨bytes, tail, hbytes, ?_⟩
  have hboth := hread.bind k
  rwa [List.append_nil] at hboth

theorem Begins.reads (h : Begins body read a) :
    ∃ bytes rest, body.content = .ok bytes ∧ read bytes = some (a, rest) := by
  obtain ⟨bytes, tail, hbytes, hread⟩ := h
  exact ⟨bytes ++ tail, tail, hbytes, hread tail⟩

theorem Carried.written (h : Carried body read a) : ∃ bytes, body.content = .ok bytes := by
  obtain ⟨bytes, hbytes, -⟩ := h
  exact ⟨bytes, hbytes⟩

theorem Carried.write (spare : ℕ) (h : Gives bytes read a) : Carried (.write bytes spare) read a :=
  ⟨bytes, rfl, h⟩

end Composition

section Fields
variable {n : ℕ} {s : Str}

theorem gives_u16 (h : n ≤ 0xffff) : Gives (u16 n) readU16 n := fun rest =>
    readU16_u16 (by omega) rest

theorem gives_u32 (h : n ≤ 0xffffffff) : Gives (u32 n) readU32 n := fun rest =>
    readU32_u32 (by omega) rest

theorem gives_u64 (h : n < 18446744073709551616) : Gives (u64 n) readU64 n := by
  intro rest
  have hn : n % 4294967296 + 4294967296 * (n / 4294967296) = n := Nat.mod_add_div n 4294967296
  change NativeTransport.readU64 (u64 n ++ rest) = _
  rw [NativeTransport.readU64, u64, List.append_assoc, readU32_u32_mod, Option.bind_some,
    readU32_u32 (by omega), Option.map_some, hn]

theorem gives_u8 (h : n < 256) : Gives [UInt8.ofNat n] readU8 n := by
  intro rest
  change some ((UInt8.ofNat n).toNat, rest) = _
  rw [UInt8.toNat_ofNat', Nat.mod_eq_of_lt h]

theorem carried_u8 (h : n < 256) : Carried (writeU8 n) readU8 n := .write 0 (gives_u8 h)

theorem carried_flag (b : Bool) : Carried (writeU8 (if b then 1 else 0)) readFlag b := by
  cases b with
  | false => exact (carried_u8 (by decide)).then (.pure false)
  | true => exact (carried_u8 (by decide)).then (.pure true)

theorem carried_len16 (h : n ≤ 0xffff) (ctx : String) : Carried (writeLen16 n ctx) readU16 n := by
  rw [writeLen16, if_neg (by omega)]
  exact .write 0 (gives_u16 h)

theorem carried_len32 (h : n ≤ 0xffffffff) (ctx : String) :
    Carried (writeLen32 n ctx) readU32 n := by
  rw [writeLen32, if_neg (by omega)]
  exact .write 0 (gives_u32 h)

theorem readU32_lt {bytes rest : Bytes} (h : readU32 bytes = some (n, rest)) : n < 4294967296 := by
  change NativeTransport.readU32 bytes = _ at h
  rcases bytes with _ | ⟨b₀, _ | ⟨b₁, _ | ⟨b₂, _ | ⟨b₃, bytes⟩⟩⟩⟩
  · cases h
  · cases h
  · cases h
  · cases h
  · cases h
    have h₀ := b₀.toNat_lt
    have h₁ := b₁.toNat_lt
    have h₂ := b₂.toNat_lt
    have h₃ := b₃.toNat_lt
    simp only
    omega

theorem gives_slice (bytes : Bytes) : Gives bytes (readSlice bytes.length) bytes := by
  intro rest
  rw [readSlice, if_neg (by rw [List.length_append]; omega), List.take_left, List.drop_left]

theorem gives_skip (bytes : Bytes) : Gives bytes (skip bytes.length) () := by
  intro rest
  rw [skip, if_neg (by rw [List.length_append]; omega), List.drop_left]

/-! ### Numbers with sign -/

theorem signed32_high {v : ℤ} (hlow : -9223372036854775808 ≤ v) (hhigh : v < 9223372036854775808) :
    signed32 (v / 4294967296 % 4294967296).toNat = v / 4294967296 := by
  unfold signed32
  split_ifs <;> omega

theorem signed32_bound {n : ℕ} (h : n < 4294967296) : (signed32 n).natAbs < 9007199254740992 := by
  unfold signed32
  split_ifs <;> omega

/-- The high half is a double, so only the sum is rounded. -/
theorem joinHalves_eq {hi : ℕ} (h : hi < 4294967296) (lo : ℕ) :
    joinHalves lo hi = Binary64.round (signed32 hi * 4294967296 + lo) := by
  have hexact : Binary64.mul (signed32 hi) 4294967296 = signed32 hi * 4294967296 :=
    Binary64.round_shifted (k := 32) (signed32_bound h)
  rw [joinHalves, hexact, Binary64.add]

theorem gives_i64 (v : ℤ) {β : Type} (f : ℕ → ℕ → β) :
    Gives (i64 v) (do let lo ← readU32; let hi ← readU32; pure (f lo hi))
      (f (v % 4294967296).toNat (v / 4294967296 % 4294967296).toNat) := by
  have hlow : (v % 4294967296).toNat ≤ 0xffffffff := by omega
  have hhigh : (v / 4294967296 % 4294967296).toNat ≤ 0xffffffff := by omega
  unfold i64
  generalize (v % 4294967296).toNat = lo at hlow
  generalize (v / 4294967296 % 4294967296).toNat = hi at hhigh
  have hsecond : Gives (u32 hi) (do let hi ← readU32; pure (f lo hi)) (f lo hi) := by
    have hboth := (gives_u32 hhigh).bind (f := fun hi => pure (f lo hi)) (.pure (f lo hi))
    rwa [List.append_nil] at hboth
  exact (gives_u32 hlow).bind hsecond

theorem joinHalves_i64 {v : ℤ} (h : Binary64.Safe v) :
    joinHalves (v % 4294967296).toNat (v / 4294967296 % 4294967296).toNat = v := by
  simp only [Binary64.Safe] at h
  have hv : v / 4294967296 * 4294967296 + ((v % 4294967296).toNat : ℤ) = v := by omega
  rw [joinHalves_eq (by omega), signed32_high (by omega) (by omega), hv]
  exact Binary64.round_safe h

theorem gives_millis {v : ℤ} (h : Binary64.Safe v) : Gives (i64 v) readMillis v := by
  have hboth := gives_i64 v joinHalves
  rwa [joinHalves_i64 h] at hboth

theorem carried_millis {v : ℤ} (h : Binary64.Safe v) : Carried (writeMillis v) readMillis v := by
  rw [writeMillis, if_pos h]
  exact .write 0 (gives_millis h)

/-! ### Text -/

theorem textBytes_eq (s : Str) : textBytes s = encode s := by
  have hascii : ∀ u ∈ s.takeWhile fun u => decide (u.toNat < 0x80), u.toNat < 0x80 := by
    intro u hu
    exact of_decide_eq_true (List.all_eq_true.mp List.all_takeWhile u hu)
  rw [textBytes, ← encode_ascii_append _ _ hascii, List.takeWhile_append_dropWhile]

theorem text_encode (fatal : Bool) (h : Plain s) : text fatal (encode s) = some s := by
  unfold text
  split_ifs with hascii
  · rw [Bool.and_eq_true, List.all_eq_true] at hascii
    rw [← decode_ascii fatal fun b hb => of_decide_eq_true (hascii.2 b hb)]
    exact decode_encode fatal h
  · exact decode_encode fatal h

theorem gives_text (fatal : Bool) (h : Plain s) :
    Gives (encode s) (readUtf8 fatal (encode s).length) s := by
  have hslice := gives_slice (encode s)
  intro rest
  change (readSlice (encode s).length (encode s ++ rest)).bind
    (fun p => (text fatal p.1).bind fun s => some (s, p.2)) = _
  rw [hslice rest, Option.bind_some, text_encode fatal h]
  rfl

/-- Text and its length. -/
theorem carried_utf8 (fatal : Bool) (h : Plain s) {limit : ℕ} {len : ℕ → Bytes} {readLen : Reader ℕ}
    (hlen : ∀ n ≤ limit, Gives (len n) readLen n) (hfits : (encode s).length ≤ limit)
    (ctx : String) :
    Carried (writeUtf8 limit len s ctx) (do readUtf8 fatal (← readLen)) s := by
  have htext : textBytes s = encode s := textBytes_eq s
  unfold writeUtf8
  simp only [htext]
  rw [if_neg (Nat.not_lt.mpr hfits)]
  exact .write _ ((hlen _ hfits).bind (gives_text fatal h))

/-- A text of a `str16` field. -/
def Fits16 (s : Str) : Prop := Plain s ∧ (encode s).length ≤ 0xffff

/-- A text of a `str32` field. -/
def Fits32 (s : Str) : Prop := Plain s ∧ (encode s).length ≤ 0xffffffff

instance : DecidablePred Fits16 := fun _ => inferInstanceAs (Decidable (_ ∧ _))

instance : DecidablePred Fits32 := fun _ => inferInstanceAs (Decidable (_ ∧ _))

theorem carried_str16 (h : Fits16 s) (ctx : String) : Carried (writeStr16 s ctx) readStr16 s :=
  carried_utf8 true h.1 (fun _ => gives_u16) h.2 ctx

theorem carried_str32 (h : Fits32 s) (ctx : String) : Carried (writeStr32 s ctx) readStr32 s :=
  carried_utf8 true h.1 (fun _ => gives_u32) h.2 ctx

theorem carried_bytes32 {bytes : Bytes} (h : bytes.length ≤ 0xffffffff) (ctx : String) :
    Carried (writeBytes32 bytes ctx) readBytes32 bytes :=
  (carried_len32 h ctx).bind (.write 0 (gives_slice bytes))

end Fields

end Kronos.KronosDb.Wire
