import Mathlib.Data.List.Sort
import Mathlib.Data.Nat.Bitwise
import Mathlib.Data.BitVec

/-!
# Segments

A segment is a share of a processor's sequences: the ones whose hash, masked,
is the segment's id. The masks are never stored; `segmentsOf` works them out
from the ids of the token rows.

The source's numbers are doubles and its bitwise operators work on 32-bit
integers, so `&` and `^` give a signed result. Ids and masks are natural
numbers here and `jsAnd` and `jsXor` give what the operators give.
-/
namespace Kronos.Processing

/-- `a & b`. -/
def jsAnd (a b : ℕ) : ℤ := (BitVec.ofNat 32 a &&& BitVec.ofNat 32 b).toInt

/-- `a ^ b`, as the next operator reads it. -/
def jsXor (a b : ℕ) : BitVec 32 := BitVec.ofNat 32 a ^^^ BitVec.ofNat 32 b

structure Segment where
  id : ℕ
  mask : ℕ
  deriving DecidableEq, Repr

/-- The one segment a processor that was never split has. -/
def whole : Segment := ⟨0, 0⟩

/-- The two halves of a segment. -/
def splitSegment (segment : Segment) : Segment × Segment :=
  (⟨segment.id, segment.mask * 2 + 1⟩, ⟨segment.id + segment.mask + 1, segment.mask * 2 + 1⟩)

/-- The id of the segment this one merges with, as a signed 32-bit number. -/
def mergeableSegmentId (segment : Segment) : ℤ :=
  (BitVec.ofNat 32 segment.id ^^^
    jsXor segment.mask ((BitVec.ofNat 32 segment.mask >>> 1).toNat)).toInt

/-- The walk of `segmentsOf`. A mask grows to `2 ^ 30` within 31 splits, so the
depth is bounded. -/
def walk (present : List ℕ) : ℕ → Segment → List Segment
  | 0, segment => [segment]
  | depth + 1, segment =>
      if segment.mask < 2 ^ 30 && present.contains (splitSegment segment).2.id then
        walk present depth (splitSegment segment).1 ++ walk present depth (splitSegment segment).2
      else [segment]

/-- The segments a processor has, from the ids of its token rows. -/
def segmentsOf (ids : List ℕ) : List Segment :=
  if ids.isEmpty then []
  else (walk ids 31 whole).insertionSort fun a b => a.id ≤ b.id

/-- Whether a sequence with this hash belongs to the segment. -/
def inSegment (segment : Segment) (hash : ℕ) : Bool :=
  segment.mask == 0 || jsAnd hash segment.mask == (segment.id : ℤ)

/-! ## Arithmetic of valid segments

Up to 31 levels deep the bitwise operators stay below the sign bit, and
belonging to a segment is a congruence. -/

/-- A segment at some level of the tree, no deeper than 31. -/
def Segment.Valid (s : Segment) : Prop := ∃ level ≤ 31, s.mask + 1 = 2 ^ level ∧ s.id ≤ s.mask

/-- Whether a hash is in the segment's share. -/
def Segment.has (s : Segment) (hash : ℕ) : Prop := hash % (s.mask + 1) = s.id

instance (s : Segment) (hash : ℕ) : Decidable (s.has hash) :=
  inferInstanceAs (Decidable (hash % (s.mask + 1) = s.id))

theorem pow_level_le {level : ℕ} (h : level ≤ 31) : 2 ^ level ≤ 2 ^ 31 :=
  Nat.pow_le_pow_right Nat.two_pos h

theorem jsAnd_mask {hash mask level : ℕ} (hh : hash < 2 ^ 32) (hl : level ≤ 31)
    (hm : mask + 1 = 2 ^ level) : jsAnd hash mask = ((hash % 2 ^ level : ℕ) : ℤ) := by
  have hle := pow_level_le hl
  have hmask : mask = 2 ^ level - 1 := by omega
  have hmod : hash % 2 ^ level < 2 ^ level := Nat.mod_lt _ (Nat.two_pow_pos level)
  have hnat : (BitVec.ofNat 32 hash &&& BitVec.ofNat 32 mask).toNat = hash % 2 ^ level := by
    rw [BitVec.toNat_and, BitVec.toNat_ofNat, BitVec.toNat_ofNat, Nat.mod_eq_of_lt hh,
      Nat.mod_eq_of_lt (by omega), hmask, Nat.and_two_pow_sub_one_eq_mod]
  unfold jsAnd
  rw [BitVec.toInt_eq_toNat_of_lt (by omega), hnat]

theorem inSegment_iff {s : Segment} (hs : s.Valid) {hash : ℕ} (hh : hash < 2 ^ 32) :
    inSegment s hash = true ↔ s.has hash := by
  obtain ⟨level, hl, hm, hid⟩ := hs
  simp only [inSegment, Bool.or_eq_true, beq_iff_eq, Segment.has]
  rw [jsAnd_mask hh hl hm, hm, Nat.cast_inj]
  constructor
  · rintro (hzero | heq)
    · have hone : 2 ^ level = 1 := by omega
      rw [hone, Nat.mod_one]
      omega
    · exact heq
  · exact fun heq => Or.inr heq

/-- Masking a hash finds the segment of the level it is in. -/
theorem jsAnd_eq_iff_has {s : Segment} (hs : s.Valid) {hash : ℕ} (hh : hash < 2 ^ 32) :
    jsAnd hash s.mask = (s.id : ℤ) ↔ s.has hash := by
  obtain ⟨level, hl, hm, -⟩ := hs
  rw [jsAnd_mask hh hl hm, Nat.cast_inj, Segment.has, hm]

/-- The halves of a segment are valid and share its hashes out between them. -/
theorem splitSegment_valid {s : Segment} (hs : s.Valid) (hmask : s.mask < 2 ^ 30) :
    (splitSegment s).1.Valid ∧ (splitSegment s).2.Valid := by
  obtain ⟨level, hl, hm, hid⟩ := hs
  have hlevel : level ≤ 30 := by
    by_contra hgt
    have hpow : 2 ^ 31 ≤ 2 ^ level := Nat.pow_le_pow_right Nat.two_pos (by omega)
    omega
  have hnext : s.mask * 2 + 1 + 1 = 2 ^ (level + 1) := by
    rw [pow_succ]
    omega
  constructor
  · exact ⟨level + 1, by omega, hnext, by simp only [splitSegment]; omega⟩
  · exact ⟨level + 1, by omega, hnext, by simp only [splitSegment]; omega⟩

theorem splitSegment_has {s : Segment} (hid : s.id ≤ s.mask) (hash : ℕ) :
    s.has hash ↔ (splitSegment s).1.has hash ∨ (splitSegment s).2.has hash := by
  have hdouble : s.mask * 2 + 1 + 1 = (s.mask + 1) * 2 := by omega
  simp only [Segment.has, splitSegment, hdouble, Nat.mod_mul]
  have hlt : hash % (s.mask + 1) < s.mask + 1 := Nat.mod_lt _ (Nat.succ_pos _)
  have hbit : hash / (s.mask + 1) % 2 < 2 := Nat.mod_lt _ Nat.two_pos
  rcases Nat.eq_zero_or_pos (hash / (s.mask + 1) % 2) with hz | hz
  · rw [hz, Nat.mul_zero, Nat.add_zero]
    constructor
    · exact Or.inl
    · rintro (h | h)
      · exact h
      · omega
  · have hone : hash / (s.mask + 1) % 2 = 1 := by omega
    rw [hone, Nat.mul_one]
    constructor
    · intro h
      exact Or.inr (by omega)
    · rintro (h | h)
      · omega
      · omega

theorem splitSegment_disjoint {s : Segment} {hash : ℕ} (h₁ : (splitSegment s).1.has hash)
    (h₂ : (splitSegment s).2.has hash) : False := by
  simp only [Segment.has, splitSegment] at h₁ h₂
  omega

/-- Below the sign bit the operators of `mergeableSegmentId` are those of the naturals. -/
theorem mergeableSegmentId_eq {s : Segment} (hs : s.Valid) :
    mergeableSegmentId s = ((s.id ^^^ (s.mask ^^^ s.mask / 2) : ℕ) : ℤ) ∧
      s.id ^^^ (s.mask ^^^ s.mask / 2) ≤ s.mask := by
  obtain ⟨level, hl, hm, hid⟩ := hs
  have hle := pow_level_le hl
  have hshift : (BitVec.ofNat 32 s.mask >>> 1).toNat = s.mask / 2 := by
    rw [BitVec.toNat_ushiftRight, BitVec.toNat_ofNat, Nat.mod_eq_of_lt (by omega),
      Nat.shiftRight_eq_div_pow]
  have hbits : s.id ^^^ (s.mask ^^^ s.mask / 2) < 2 ^ level := by
    apply Nat.xor_lt_two_pow (by omega)
    exact Nat.xor_lt_two_pow (by omega) (by omega)
  have hto : (BitVec.ofNat 32 s.id ^^^ jsXor s.mask (s.mask / 2)).toNat =
      s.id ^^^ (s.mask ^^^ s.mask / 2) := by
    rw [jsXor, BitVec.toNat_xor, BitVec.toNat_xor]
    simp only [BitVec.toNat_ofNat]
    rw [Nat.mod_eq_of_lt (by omega), Nat.mod_eq_of_lt (by omega), Nat.mod_eq_of_lt (by omega)]
  refine ⟨?_, by omega⟩
  rw [mergeableSegmentId, hshift, BitVec.toInt_eq_toNat_of_lt (by omega), hto]

/-- What `mergeableSegmentId` names is the other half of the parent. -/
theorem mergeableSegmentId_spec {s p : Segment} (hs : s.Valid) (hmask : s.mask ≠ 0)
    (hp : (p.id : ℤ) = mergeableSegmentId s) :
    p.id ≠ s.id ∧ p.id % ((s.mask + 1) / 2) = s.id % ((s.mask + 1) / 2) := by
  have hnat : p.id = s.id ^^^ (s.mask ^^^ s.mask / 2) := by
    rw [(mergeableSegmentId_eq hs).1] at hp
    exact_mod_cast hp
  obtain ⟨level, hl, hm, hid⟩ := hs
  obtain ⟨up, rfl⟩ : ∃ up, level = up + 1 := by
    cases level with
    | zero => omega
    | succ up => exact ⟨up, rfl⟩
  rw [pow_succ] at hm
  have hhalf : (s.mask + 1) / 2 = 2 ^ up := by omega
  have hpos : 0 < 2 ^ up := Nat.two_pow_pos up
  have hlow : s.mask % 2 ^ up = s.mask / 2 % 2 ^ up := by
    have hmod : s.mask = 2 ^ up - 1 + 2 ^ up := by omega
    have hdiv : s.mask / 2 = 2 ^ up - 1 := by omega
    rw [hdiv, hmod, Nat.add_mod_right]
  constructor
  · intro heq
    rw [hnat] at heq
    have hzero : s.mask ^^^ s.mask / 2 = 0 := by
      have hcancel := congrArg (fun x => s.id ^^^ x) heq
      simpa [← Nat.xor_assoc] using hcancel
    have hsame : s.mask = s.mask / 2 := Nat.xor_eq_zero_iff.mp hzero
    omega
  · rw [hhalf, hnat, Nat.xor_mod_two_pow, Nat.xor_mod_two_pow, hlow, Nat.xor_self, Nat.xor_zero]

end Kronos.Processing
