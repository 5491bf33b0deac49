import Mathlib.Data.List.Basic

/-!
# Text as UTF-16 and as UTF-8

A string is a list of UTF-16 code units, any list: a surrogate may stand alone.
The encoder turns it into scalar values, with U+FFFD for a surrogate that stands
alone, and these into bytes. The decoder is the state machine of the Encoding
Standard, one byte at a time: the bytes that are still needed and the bounds of
the next one. On an invalid byte it gives up when it is fatal, else it puts
U+FFFD and takes the byte as the first of what follows. A byte order mark at the
beginning is dropped.
-/
namespace Kronos.Lib.Utf8

abbrev Str := List UInt16

instance : LawfulBEq Str := inferInstance

def isHigh (u : ℕ) : Bool := 0xd800 ≤ u && u < 0xdc00

def isLow (u : ℕ) : Bool := 0xdc00 ≤ u && u < 0xe000

/-- A code point that is no surrogate. -/
def Scalar (c : ℕ) : Prop := c < 0xd800 ∨ 0xe000 ≤ c ∧ c < 0x110000

/-! ## Encoding -/

def toScalars : Str → List ℕ
  | [] => []
  | u :: rest =>
      if isHigh u.toNat then
        match rest with
        | [] => [0xfffd]
        | v :: tail =>
            if isLow v.toNat then
              (0x10000 + (u.toNat - 0xd800) * 0x400 + (v.toNat - 0xdc00)) :: toScalars tail
            else 0xfffd :: toScalars (v :: tail)
      else if isLow u.toNat then 0xfffd :: toScalars rest
      else u.toNat :: toScalars rest

def byte (n : ℕ) : UInt8 := UInt8.ofNat n

def encodeScalar (c : ℕ) : List UInt8 :=
  if c < 0x80 then [byte c]
  else if c < 0x800 then [byte (0xc0 + c / 64), byte (0x80 + c % 64)]
  else if c < 0x10000 then [byte (0xe0 + c / 4096), byte (0x80 + c / 64 % 64), byte (0x80 + c % 64)]
  else
    [byte (0xf0 + c / 262144), byte (0x80 + c / 4096 % 64), byte (0x80 + c / 64 % 64),
      byte (0x80 + c % 64)]

def encode (s : Str) : List UInt8 := (toScalars s).flatMap encodeScalar

/-! ## Decoding -/

/-- A character that is not complete. -/
structure Partial where
  needed : ℕ
  lower : ℕ
  upper : ℕ
  codePoint : ℕ
  deriving DecidableEq, Repr

/-- What the first byte of a character says. -/
inductive Lead where
  | done (c : ℕ)
  | more (part : Partial)
  | invalid
  deriving DecidableEq, Repr

def lead (b : ℕ) : Lead :=
  if b < 0x80 then .done b
  else if 0xc2 ≤ b ∧ b < 0xe0 then .more ⟨1, 0x80, 0xbf, b - 0xc0⟩
  else if 0xe0 ≤ b ∧ b < 0xf0 then
    .more ⟨2, if b = 0xe0 then 0xa0 else 0x80, if b = 0xed then 0x9f else 0xbf, b - 0xe0⟩
  else if 0xf0 ≤ b ∧ b < 0xf5 then
    .more ⟨3, if b = 0xf0 then 0x90 else 0x80, if b = 0xf4 then 0x8f else 0xbf, b - 0xf0⟩
  else .invalid

/-- U+FFFD before what follows, unless the decoder is fatal. -/
def replaced (fatal : Bool) (following : Option (List ℕ)) : Option (List ℕ) :=
  if fatal then none else following.map (0xfffd :: ·)

def decodeScalars (fatal : Bool) : Option Partial → List UInt8 → Option (List ℕ)
  | none, [] => some []
  | some _, [] => replaced fatal (some [])
  | none, b :: rest =>
      match lead b.toNat with
      | .done c => (decodeScalars fatal none rest).map (c :: ·)
      | .more part => decodeScalars fatal (some part) rest
      | .invalid => replaced fatal (decodeScalars fatal none rest)
  | some part, b :: rest =>
      let codePoint := part.codePoint * 64 + (b.toNat - 0x80)
      if part.lower ≤ b.toNat ∧ b.toNat ≤ part.upper then
        if part.needed = 1 then (decodeScalars fatal none rest).map (codePoint :: ·)
        else decodeScalars fatal (some ⟨part.needed - 1, 0x80, 0xbf, codePoint⟩) rest
      else
        replaced fatal
          (match lead b.toNat with
          | .done c => (decodeScalars fatal none rest).map (c :: ·)
          | .more part => decodeScalars fatal (some part) rest
          | .invalid => replaced fatal (decodeScalars fatal none rest))

def toUnits (c : ℕ) : Str :=
  if c < 0x10000 then [UInt16.ofNat c]
  else [UInt16.ofNat (0xd800 + (c - 0x10000) / 0x400),
    UInt16.ofNat (0xdc00 + (c - 0x10000) % 0x400)]

def dropByteOrderMark : List UInt8 → List UInt8
  | 0xef :: 0xbb :: 0xbf :: rest => rest
  | bytes => bytes

def decode (fatal : Bool) (bytes : List UInt8) : Option Str :=
  (decodeScalars fatal none (dropByteOrderMark bytes)).map (List.flatMap toUnits)

/-! ## Strings that come back -/

/-- No surrogate stands alone. -/
def wellFormed : Str → Bool
  | [] => true
  | u :: rest =>
      if isHigh u.toNat then
        match rest with
        | [] => false
        | v :: tail => isLow v.toNat && wellFormed tail
      else !isLow u.toNat && wellFormed rest

/-- Well formed, and without a byte order mark at its beginning. -/
def Plain (s : Str) : Prop := wellFormed s = true ∧ s.head? ≠ some 0xfeff

instance : DecidablePred Plain := fun _ => inferInstanceAs (Decidable (_ ∧ _))

section RoundTrip
variable {s : Str}

theorem scalar_replacement : Scalar 0xfffd := by
  unfold Scalar
  omega

theorem toScalars_alone {u : UInt16} (hhigh : isHigh u.toNat = false) (hlow : isLow u.toNat = false)
    (rest : Str) : toScalars (u :: rest) = u.toNat :: toScalars rest := by
  rw [toScalars.eq_def]
  simp only [hhigh, hlow, Bool.false_eq_true, if_false]

theorem scalar_toScalars (s : Str) : ∀ c ∈ toScalars s, Scalar c := by
  fun_induction toScalars s with
  | case1 => exact nofun
  | case2 u hhigh =>
      intro c hc
      rw [List.mem_singleton.mp hc]
      exact scalar_replacement
  | case3 u hhigh v tail hlow ih =>
      intro c hc
      rcases List.mem_cons.mp hc with heq | hc
      · simp only [isHigh, isLow, Bool.and_eq_true, decide_eq_true_eq] at hhigh hlow
        simp only [Scalar]
        omega
      · exact ih c hc
  | case4 u hhigh v tail hlow ih =>
      intro c hc
      rcases List.mem_cons.mp hc with rfl | hc
      · exact scalar_replacement
      · exact ih c hc
  | case5 u rest hhigh hlow ih =>
      intro c hc
      rcases List.mem_cons.mp hc with rfl | hc
      · exact scalar_replacement
      · exact ih c hc
  | case6 u rest hhigh hlow ih =>
      intro c hc
      rcases List.mem_cons.mp hc with rfl | hc
      · have hbound := u.toNat_lt
        simp only [isHigh, isLow, Bool.and_eq_true, decide_eq_true_eq] at hhigh hlow
        simp only [Scalar]
        omega
      · exact ih c hc

theorem toUnits_pair {u v : UInt16} (hhigh : isHigh u.toNat = true) (hlow : isLow v.toNat = true) :
    toUnits (0x10000 + (u.toNat - 0xd800) * 0x400 + (v.toNat - 0xdc00)) = [u, v] := by
  simp only [isHigh, isLow, Bool.and_eq_true, decide_eq_true_eq] at hhigh hlow
  have hfirst :
      0xd800 + (0x10000 + (u.toNat - 0xd800) * 0x400 + (v.toNat - 0xdc00) - 0x10000) / 0x400 =
      u.toNat := by omega
  have hsecond :
      0xdc00 + (0x10000 + (u.toNat - 0xd800) * 0x400 + (v.toNat - 0xdc00) - 0x10000) % 0x400 =
      v.toNat := by omega
  rw [toUnits, if_neg (by omega), hfirst, hsecond, UInt16.ofNat_toNat, UInt16.ofNat_toNat]

theorem flatMap_toUnits_toScalars (h : wellFormed s = true) :
    (toScalars s).flatMap toUnits = s := by
  fun_induction wellFormed s with
  | case1 => rfl
  | case2 => cases h
  | case3 u hhigh v tail ih =>
      rw [Bool.and_eq_true] at h
      rw [toScalars.eq_def]
      simp only [hhigh, h.1, if_true, List.flatMap_cons, ih h.2, toUnits_pair hhigh h.1]
      rfl
  | case4 u rest hhigh ih =>
      rw [Bool.and_eq_true, Bool.not_eq_true'] at h
      have hunit : toUnits u.toNat = [u] := by
        rw [toUnits, if_pos u.toNat_lt, UInt16.ofNat_toNat]
      rw [toScalars_alone (by simpa using hhigh) h.1, List.flatMap_cons, hunit, ih h.2]
      rfl

theorem toNat_byte {n : ℕ} (h : n < 256) : (byte n).toNat = n := by
  rw [byte, UInt8.toNat_ofNat', Nat.mod_eq_of_lt h]

/-- The decoder gives back one character after the other. -/
theorem decodeScalars_encodeScalar (fatal : Bool) {c : ℕ} (h : Scalar c) (rest : List UInt8) :
    decodeScalars fatal none (encodeScalar c ++ rest) =
      (decodeScalars fatal none rest).map (c :: ·) := by
  have htail : ∀ n, (byte (0x80 + n % 64)).toNat = 0x80 + n % 64 := fun n => toNat_byte (by omega)
  unfold encodeScalar
  simp only [Scalar] at h
  split_ifs with hone htwo hthree
  · rw [List.singleton_append, decodeScalars, toNat_byte (by omega), lead, if_pos hone]
  · have hlead : lead (byte (0xc0 + c / 64)).toNat = .more ⟨1, 0x80, 0xbf, c / 64⟩ := by
      rw [toNat_byte (by omega), lead, if_neg (by omega), if_pos (by omega),
        Nat.add_sub_cancel_left]
    have hc : c / 64 * 64 + (0x80 + c % 64 - 0x80) = c := by omega
    simp only [List.cons_append, List.nil_append, decodeScalars, hlead, htail]
    rw [if_pos ⟨by omega, by omega⟩, if_true, hc]
  · have hlead : lead (byte (0xe0 + c / 4096)).toNat = .more
        ⟨2, if 0xe0 + c / 4096 = 0xe0 then 0xa0 else 0x80,
          if 0xe0 + c / 4096 = 0xed then 0x9f else 0xbf,
          c / 4096⟩ := by
      rw [toNat_byte (by omega), lead, if_neg (by omega), if_neg (by omega), if_pos (by omega),
        Nat.add_sub_cancel_left]
    have hc : (c / 4096 * 64 + (0x80 + c / 64 % 64 - 0x80)) * 64 + (0x80 + c % 64 - 0x80) = c := by
      omega
    simp only [List.cons_append, List.nil_append, decodeScalars, hlead, htail]
    rw [if_pos ⟨by split_ifs <;> omega, by split_ifs <;> omega⟩, if_neg (by decide),
      if_pos ⟨by omega, by omega⟩, if_true, hc]
  · have hlead : lead (byte (0xf0 + c / 262144)).toNat = .more
        ⟨3, if 0xf0 + c / 262144 = 0xf0 then 0x90 else 0x80,
          if 0xf0 + c / 262144 = 0xf4 then 0x8f else 0xbf,
          c / 262144⟩ := by
      rw [toNat_byte (by omega), lead, if_neg (by omega), if_neg (by omega), if_neg (by omega),
        if_pos (by omega), Nat.add_sub_cancel_left]
    have hc :
        ((c / 262144 * 64 + (0x80 + c / 4096 % 64 - 0x80)) * 64 + (0x80 + c / 64 % 64 - 0x80)) *
        64 +
        (0x80 + c % 64 - 0x80) = c := by omega
    simp only [List.cons_append, List.nil_append, decodeScalars, hlead, htail]
    rw [if_pos ⟨by split_ifs <;> omega, by split_ifs <;> omega⟩, if_neg (by decide),
      if_pos ⟨by omega, by omega⟩, if_neg (by decide), if_pos ⟨by omega, by omega⟩, if_true, hc]

theorem decodeScalars_flatMap (fatal : Bool) {cs : List ℕ} (h : ∀ c ∈ cs, Scalar c) :
    decodeScalars fatal none (cs.flatMap encodeScalar) = some cs := by
  induction cs with
  | nil => rfl
  | cons c cs ih =>
      rw [List.flatMap_cons, decodeScalars_encodeScalar fatal (h c List.mem_cons_self),
        ih fun d hd => h d (List.mem_cons_of_mem _ hd), Option.map_some]

/-- Only the encoding of U+FEFF begins like a byte order mark. -/
theorem dropByteOrderMark_encode (h : s.head? ≠ some 0xfeff) (hwell : wellFormed s = true) :
    dropByteOrderMark (encode s) = encode s := by
  unfold dropByteOrderMark
  split
  · rename_i rest hencode
    have hscalars := decodeScalars_flatMap true (scalar_toScalars s)
    have hunits := flatMap_toUnits_toScalars hwell
    rw [encode] at hencode
    rw [hencode] at hscalars
    have hfirst : decodeScalars true none (0xef :: 0xbb :: 0xbf :: rest) =
        (decodeScalars true none rest).map (0xfeff :: ·) := rfl
    rw [hfirst] at hscalars
    obtain ⟨cs, -, hcs⟩ := Option.map_eq_some_iff.mp hscalars
    rw [← hcs, List.flatMap_cons] at hunits
    exact absurd (by rw [← hunits]; rfl) h
  · rfl

/-- A plain string comes back from its bytes. -/
theorem decode_encode (fatal : Bool) (h : Plain s) : decode fatal (encode s) = some s := by
  rw [decode, dropByteOrderMark_encode h.2 h.1, encode,
    decodeScalars_flatMap fatal (scalar_toScalars s),
    Option.map_some, flatMap_toUnits_toScalars h.1]

/-- Bytes below 0x80 are their characters. -/
theorem decode_ascii (fatal : Bool) {bytes : List UInt8} (h : ∀ b ∈ bytes, b.toNat < 0x80) :
    decode fatal bytes = some (bytes.map fun b => UInt16.ofNat b.toNat) := by
  have hmark : dropByteOrderMark bytes = bytes := by
    unfold dropByteOrderMark
    split
    · exact absurd (h 0xef List.mem_cons_self) (by decide)
    · rfl
  rw [decode, hmark]
  clear hmark
  induction bytes with
  | nil => rfl
  | cons b bytes ih =>
      have hb := h b List.mem_cons_self
      obtain ⟨cs, hcs, hunits⟩ :=
        Option.map_eq_some_iff.mp (ih fun c hc => h c (List.mem_cons_of_mem _ hc))
      rw [decodeScalars, lead, if_pos hb]
      simp only [hcs, Option.map_some, List.flatMap_cons, hunits, List.map_cons]
      rw [toUnits, if_pos (by omega)]
      rfl

/-- The bytes of the characters below 0x80 at the beginning, then the others encoded. -/
theorem encode_ascii_append (first rest : Str) (h : ∀ u ∈ first, u.toNat < 0x80) :
    encode (first ++ rest) = first.map (fun u => byte u.toNat) ++ encode rest := by
  induction first with
  | nil => rfl
  | cons u first ih =>
      have hu := h u List.mem_cons_self
      have hhigh : isHigh u.toNat = false := by
        rw [isHigh, decide_eq_false (by omega), Bool.false_and]
      have hlow : isLow u.toNat = false := by
        rw [isLow, decide_eq_false (by omega), Bool.false_and]
      rw [List.cons_append, encode, toScalars_alone hhigh hlow, List.flatMap_cons,
        encodeScalar, if_pos hu]
      rw [encode] at ih
      rw [ih fun v hv => h v (List.mem_cons_of_mem _ hv)]
      rfl

end RoundTrip

end Kronos.Lib.Utf8
