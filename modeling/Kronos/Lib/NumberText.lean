import Kronos.Lib.Binary64
import Kronos.Lib.Utf8
import Mathlib.Data.Nat.Digits.Defs

/-!
# Numbers as text

A finite double is a whole number of units of 2^-1074, of 53 significant bits at
most; a decimal is a whole number of units of 10^-1074. The text of a double is
the shortest decimal that rounds to it, laid out as the language does: as it is,
with a point in it, with zeros before it, or with an exponent.
-/
namespace Kronos.Lib.NumberText
open Utf8 (Str)
open Binary64 (unit)

/-! ## Doubles and decimals -/

/-- How far the places of a double go behind the point. -/
@[irreducible] def places : ℕ := 1074

/-- The decimal units in one double unit. -/
def perUnit : ℕ := 5 ^ places

/-- The finite doubles, with one zero. -/
def Finite : Type := {x : ℤ // unit x.natAbs ∣ x.natAbs ∧ x.natAbs < 2 ^ (1024 + places)}

instance : DecidableEq Finite := inferInstanceAs (DecidableEq (Subtype _))

/-- The double nearest to a decimal, the even one of two. -/
def nearest (d : ℕ) : ℕ :=
  let last := unit (d / perUnit)
  let step := perUnit * last
  if 2 * (d % step) < step ∨ 2 * (d % step) = step ∧ d / step % 2 = 0 then d / step * last
  else (d / step + 1) * last

/-- A multiple of 10^j next to a double that rounds to it, the closer one if both do. -/
def candidate (n j : ℕ) : Option ℕ :=
  let exact := n * perUnit
  let below := exact / 10 ^ j
  let closer :=
    if 2 * (exact % 10 ^ j) < 10 ^ j ∨ 2 * (exact % 10 ^ j) = 10 ^ j ∧ below % 2 = 0 then below
    else below + 1
  [closer, 2 * below + 1 - closer].find? fun s => nearest (s * 10 ^ j) = n

/-- The digits and the power of ten of the first candidate, from the greatest power on. -/
def shortest (n : ℕ) : ℕ → ℕ × ℕ
  | 0 => (n * perUnit, 0)
  | j + 1 => (candidate n (j + 1)).elim (shortest n j) fun s => (s, j + 1)

theorem perUnit_pos : 0 < perUnit := Nat.pow_pos (by decide)

theorem nearest_exact {n : ℕ} (h : unit n ∣ n) : nearest (n * perUnit) = n := by
  have hper := perUnit_pos
  have hunit : 0 < perUnit * unit n := Nat.mul_pos hper (Binary64.unit_pos n)
  have hdvd : perUnit * unit n ∣ n * perUnit := by
    rw [Nat.mul_comm n]
    exact Nat.mul_dvd_mul_left _ h
  have hquot : n * perUnit / (perUnit * unit n) = n / unit n := by
    rw [Nat.mul_comm n, Nat.mul_div_mul_left _ _ hper]
  simp only [nearest, Nat.mul_div_cancel _ hper, Nat.mod_eq_zero_of_dvd hdvd, hquot,
    Nat.mul_zero, hunit,
    true_or, if_true]
  exact Nat.div_mul_cancel h

theorem nearest_candidate {n j s : ℕ} (h : candidate n j = some s) : nearest (s * 10 ^ j) = n := by
  simpa using List.find?_some h

theorem nearest_shortest {n : ℕ} (h : unit n ∣ n) (j : ℕ) :
    nearest ((shortest n j).1 * 10 ^ (shortest n j).2) = n := by
  induction j with
  | zero => simpa [shortest] using nearest_exact h
  | succ j ih =>
      rw [shortest]
      cases hc : candidate n (j + 1) with
      | some s => exact nearest_candidate hc
      | none => exact ih

/-! ## Numerals -/

/-- The code unit of a digit, from that of `0` (48) on. -/
def digit (d : ℕ) : UInt16 := UInt16.ofNat (48 + d)

def isDigit (u : UInt16) : Bool := 48 ≤ u && u ≤ 57

def numeral (n : ℕ) : Str := if n = 0 then [48] else (Nat.digits 10 n).reverse.map digit

/-- What a row of digits says. -/
def value (digits : Str) : ℕ := Nat.ofDigits 10 (digits.reverse.map fun u => u.toNat - 48)

theorem toNat_digit {d : ℕ} (h : d < 10) : (digit d).toNat = 48 + d := by
  rw [digit, UInt16.toNat_ofNat']
  exact Nat.mod_eq_of_lt (by omega)

theorem isDigit_digit {d : ℕ} (h : d < 10) : isDigit (digit d) = true := by
  simp only [isDigit, Bool.and_eq_true, decide_eq_true_eq, UInt16.le_iff_toNat_le, toNat_digit h]
  constructor
  · change 48 ≤ 48 + d
    omega
  · change 48 + d ≤ 57
    omega

theorem isDigit_numeral (n : ℕ) : ∀ u ∈ numeral n, isDigit u = true := by
  intro u hu
  rw [numeral] at hu
  split at hu
  · rw [List.mem_singleton.mp hu]
    decide
  · obtain ⟨d, hd, rfl⟩ := List.mem_map.mp hu
    exact isDigit_digit (Nat.digits_lt_base (by decide) (List.mem_reverse.mp hd))

theorem value_numeral (n : ℕ) : value (numeral n) = n := by
  rw [numeral]
  split
  · next h => rw [h]; rfl
  · have hback : ((Nat.digits 10 n).reverse.map digit).reverse.map (fun u => u.toNat - 48) =
        Nat.digits 10 n := by
      rw [← List.map_reverse, List.reverse_reverse, List.map_map]
      conv_rhs => rw [← List.map_id (Nat.digits 10 n)]
      apply List.map_congr_left
      intro d hd
      simp [toNat_digit (Nat.digits_lt_base (by decide) hd)]
    rw [value, hback, Nat.ofDigits_digits]

theorem numeral_ne_nil (n : ℕ) : numeral n ≠ [] := by
  rw [numeral]
  split
  · simp
  · next h => simpa [Nat.digits_eq_nil_iff_eq_zero] using h

theorem value_append_zeros (ds : Str) (z : ℕ) :
    value (ds ++ List.replicate z 48) = value ds * 10 ^ z := by
  simp [value, Nat.ofDigits_append, Nat.ofDigits_replicate_zero, Nat.mul_comm]

theorem value_zeros_append (z : ℕ) (ds : Str) : value (List.replicate z 48 ++ ds) = value ds := by
  simp [value, Nat.ofDigits_append_replicate_zero]

/-! ## Layout -/

/-- The digits before the point, those behind it, and the exponent. -/
structure Parts where
  whole : Str
  fraction : Str
  exponent : ℤ

/-- The `k` digits of `s` times 10^j, with the point behind `n` digits. -/
def layout (s j : ℕ) : Parts :=
  let digits := numeral s
  let k : ℤ := digits.length
  let n : ℤ := k + j - places
  if k ≤ n ∧ n ≤ 21 then ⟨digits ++ List.replicate (n - k).toNat 48, [], 0⟩
  else if 0 < n ∧ n ≤ 21 then ⟨digits.take n.toNat, digits.drop n.toNat, 0⟩
  else if -6 < n ∧ n ≤ 0 then ⟨[48], List.replicate (-n).toNat 48 ++ digits, 0⟩
  else ⟨digits.take 1, digits.drop 1, n - 1⟩

def parts (n : ℕ) : Parts :=
  if n = 0 then ⟨[48], [], 0⟩
  else layout (shortest n (places + 309)).1 (shortest n (places + 309)).2

namespace Parts

/-- The exponent behind an `e` (101), with its sign (43 or 45). -/
def tail (parts : Parts) : Str :=
  if parts.exponent = 0 then []
  else 101 :: (if parts.exponent < 0 then 45 else 43) :: numeral parts.exponent.natAbs

/-- The fraction behind a point (46). -/
def point (parts : Parts) : Str := if parts.fraction = [] then [] else 46 :: parts.fraction

def text (parts : Parts) : Str := parts.whole ++ (parts.point ++ parts.tail)

def decimal (parts : Parts) : ℕ :=
  value (parts.whole ++ parts.fraction) *
    10 ^ (places + parts.exponent - parts.fraction.length).toNat

structure Digits (parts : Parts) : Prop where
  whole : ∀ u ∈ parts.whole, isDigit u = true
  fraction : ∀ u ∈ parts.fraction, isDigit u = true
  nonempty : parts.whole ≠ []

end Parts

/-- The text of a finite number. -/
def numberText (x : Finite) : Str :=
  if x.1 < 0 then 45 :: (parts x.1.natAbs).text else (parts x.1.natAbs).text

theorem layout_decimal (s j : ℕ) : (layout s j).decimal = s * 10 ^ j := by
  have hvalue := value_numeral s
  have hlength : 0 < (numeral s).length := List.length_pos_iff.mpr (numeral_ne_nil s)
  simp only [layout]
  split
  · next h =>
      simp only [Parts.decimal, List.append_nil, value_append_zeros, hvalue, List.length_nil]
      rw [Nat.mul_assoc, ← Nat.pow_add]
      exact congrArg (fun e => s * 10 ^ e) (by omega)
  split
  · next h =>
      simp only [Parts.decimal, List.take_append_drop, hvalue, List.length_drop]
      congr 2
      omega
  split
  · next h =>
      have hzero (z : ℕ) : value (48 :: (List.replicate z 48 ++ numeral s)) = s := by
        rw [← List.cons_append, ← List.replicate_succ, value_zeros_append, hvalue]
      simp only [Parts.decimal, List.cons_append, List.nil_append, hzero, List.length_append,
        List.length_replicate]
      congr 2
      omega
  · next h =>
      simp only [Parts.decimal, List.take_append_drop, hvalue, List.length_drop]
      congr 2
      omega

theorem nearest_parts {n : ℕ} (h : unit n ∣ n) : nearest (parts n).decimal = n := by
  rw [parts]
  split
  · next hzero =>
      rw [hzero] at h ⊢
      have hdecimal : (Parts.decimal ⟨[48], [], 0⟩) = 0 * perUnit := by
        simp [Parts.decimal, value]
      rw [hdecimal, nearest_exact h]
  · rw [layout_decimal]
    exact nearest_shortest h _

theorem layout_digits (s j : ℕ) : (layout s j).Digits := by
  have hdigits := isDigit_numeral s
  have hne := numeral_ne_nil s
  have hlength : 0 < (numeral s).length := List.length_pos_iff.mpr hne
  have hzeros (z : ℕ) : ∀ u ∈ List.replicate z (48 : UInt16), isDigit u = true := by
    intro u hu
    rw [List.eq_of_mem_replicate hu]
    decide
  simp only [layout]
  split
  · exact ⟨List.forall_mem_append.mpr ⟨hdigits, hzeros _⟩, by simp, by simp [hne]⟩
  split
  · next h =>
      have htake : (numeral s).take (((numeral s).length : ℤ) + j - places).toNat ≠ [] := by
        rw [Ne, List.take_eq_nil_iff]
        simp only [hne, or_false]
        omega
      exact ⟨fun u hu => hdigits u (List.mem_of_mem_take hu),
        fun u hu => hdigits u (List.mem_of_mem_drop hu),
        htake⟩
  split
  · exact ⟨by simp [isDigit], List.forall_mem_append.mpr ⟨hzeros _, hdigits⟩, by simp⟩
  · exact ⟨fun u hu => hdigits u (List.mem_of_mem_take hu),
      fun u hu => hdigits u (List.mem_of_mem_drop hu),
      by simp [hne]⟩

theorem parts_digits (n : ℕ) : (parts n).Digits := by
  rw [parts]
  split
  · exact ⟨by simp [isDigit], by simp, by simp⟩
  · exact layout_digits _ _

/-! ## Reading back -/

/-- A row of symbols of one kind ends where another kind begins. -/
theorem row_inj {α : Type*} {p : α → Bool} {v w r t : List α} (hv : ∀ u ∈ v, p u = true)
    (hw : ∀ u ∈ w, p u = true) (hr : ∀ u ∈ r.head?, p u = false) (ht : ∀ u ∈ t.head?, p u = false)
    (h : v ++ r = w ++ t) : v = w ∧ r = t := by
  induction v generalizing w with
  | nil =>
      cases w with
      | nil => exact ⟨rfl, h⟩
      | cons u w =>
          rw [List.nil_append] at h
          simp [h, hw u] at hr
  | cons u v ih =>
      cases w with
      | nil =>
          rw [List.nil_append] at h
          simp [← h, hv u] at ht
      | cons x w =>
          obtain ⟨rfl, hrest⟩ := List.cons.inj h
          obtain ⟨rfl, hrt⟩ :=
            ih (fun y hy => hv y (.tail _ hy)) (fun y hy => hw y (.tail _ hy)) hrest
          exact ⟨rfl, hrt⟩

theorem numeral_injective {m n : ℕ} (h : numeral m = numeral n) : m = n := by
  rw [← value_numeral m, h, value_numeral]

theorem Parts.tail_head (parts : Parts) : ∀ u ∈ parts.tail.head?, u = 101 := by
  rw [tail]
  split <;> simp

theorem Parts.tail_stops (parts : Parts) : ∀ u ∈ parts.tail.head?, isDigit u = false := by
  intro u hu
  rw [parts.tail_head u hu]
  decide

theorem Parts.point_stops (parts : Parts) : ∀ u ∈ (parts.point ++ parts.tail).head?,
    isDigit u = false := by
  rw [point]
  split
  · exact parts.tail_stops
  · simp [isDigit]

theorem Parts.exponent_of_tail {p q : Parts} (h : p.tail = q.tail) : p.exponent = q.exponent := by
  by_cases hp : p.exponent = 0
  · by_cases hq : q.exponent = 0
    · rw [hp, hq]
    · simp [tail, hp, hq] at h
  · by_cases hq : q.exponent = 0
    · simp [tail, hp, hq] at h
    · simp only [tail, hp, hq, if_false, List.cons.injEq, true_and] at h
      have habs := numeral_injective h.2
      have hsign : p.exponent < 0 ↔ q.exponent < 0 := by
        by_cases hneg : p.exponent < 0 <;> by_cases hneg' : q.exponent < 0 <;>
          simp [hneg, hneg'] at h ⊢
      omega

theorem Parts.fraction_of_point {p q : Parts} (hp : p.Digits) (hq : q.Digits)
    (h : p.point ++ p.tail = q.point ++ q.tail) : p.fraction = q.fraction ∧ p.tail = q.tail := by
  by_cases hpf : p.fraction = []
  · by_cases hqf : q.fraction = []
    · rw [point, point, if_pos hpf, if_pos hqf] at h
      exact ⟨hpf.trans hqf.symm, h⟩
    · have hhead := p.tail_head 46
      simp [point, hpf, hqf] at h
      simp [h] at hhead
  · by_cases hqf : q.fraction = []
    · have hhead := q.tail_head 46
      simp [point, hpf, hqf] at h
      simp [← h] at hhead
    · rw [point, point, if_neg hpf, if_neg hqf] at h
      exact row_inj hp.fraction hq.fraction p.tail_stops q.tail_stops (List.cons.inj h).2

theorem Parts.decimal_of_text {p q : Parts} (hp : p.Digits) (hq : q.Digits) (h : p.text = q.text) :
    p.decimal = q.decimal := by
  obtain ⟨hwhole, hrest⟩ := row_inj hp.whole hq.whole p.point_stops q.point_stops h
  obtain ⟨hfraction, htail⟩ := fraction_of_point hp hq hrest
  rw [decimal, decimal, hwhole, hfraction, exponent_of_tail htail]

theorem parts_text_injective {m n : ℕ} (hm : unit m ∣ m) (hn : unit n ∣ n)
    (h : (parts m).text = (parts n).text) : m = n := by
  rw [← nearest_parts hm, ← nearest_parts hn]
  exact congrArg nearest (Parts.decimal_of_text (parts_digits m) (parts_digits n) h)

theorem parts_text_head (n : ℕ) : ∃ u ∈ (parts n).text.head?, isDigit u = true := by
  obtain ⟨hwhole, -, hne⟩ := parts_digits n
  obtain ⟨u, us, hcons⟩ := List.exists_cons_of_ne_nil hne
  refine ⟨u, ?_, hwhole u (by simp [hcons])⟩
  simp [Parts.text, hcons]

theorem numberText_injective {x y : Finite} (h : numberText x = numberText y) : x = y := by
  have hminus {m n : ℕ} : 45 :: (parts m).text ≠ (parts n).text := by
    intro heq
    obtain ⟨u, hu, hdigit⟩ := parts_text_head n
    rw [← heq] at hu
    simp only [List.head?_cons, Option.mem_some_iff] at hu
    rw [← hu] at hdigit
    exact absurd hdigit (by decide)
  have hmagnitude : x.1.natAbs = y.1.natAbs ∧ (x.1 < 0 ↔ y.1 < 0) := by
    rw [numberText, numberText] at h
    by_cases hx : x.1 < 0
    · by_cases hy : y.1 < 0
      · rw [if_pos hx, if_pos hy] at h
        exact ⟨parts_text_injective x.2.1 y.2.1 (List.cons.inj h).2, by simp [hx, hy]⟩
      · rw [if_pos hx, if_neg hy] at h
        exact absurd h hminus
    · by_cases hy : y.1 < 0
      · rw [if_neg hx, if_pos hy] at h
        exact absurd h.symm hminus
      · rw [if_neg hx, if_neg hy] at h
        exact ⟨parts_text_injective x.2.1 y.2.1 h, by simp [hx, hy]⟩
  obtain ⟨habs, hsign⟩ := hmagnitude
  exact Subtype.ext (by omega)

/-- The symbols of a number. -/
def isNumeric (u : UInt16) : Bool := isDigit u || u == 46 || u == 101 || u == 43 || u == 45

theorem isNumeric_of_isDigit {u : UInt16} (h : isDigit u = true) : isNumeric u = true := by
  simp [isNumeric, h]

theorem parts_text_numeric (n : ℕ) : ∀ u ∈ (parts n).text, isNumeric u = true := by
  obtain ⟨hwhole, hfraction, -⟩ := parts_digits n
  have hpoint : ∀ u ∈ (parts n).point, isNumeric u = true := by
    rw [Parts.point]
    split
    · simp
    · exact List.forall_mem_cons.mpr ⟨by decide, fun u hu => isNumeric_of_isDigit (hfraction u hu)⟩
  have htail : ∀ u ∈ (parts n).tail, isNumeric u = true := by
    rw [Parts.tail]
    split
    · simp
    · refine List.forall_mem_cons.mpr ⟨by decide, List.forall_mem_cons.mpr ⟨?_, ?_⟩⟩
      · split <;> decide
      · exact fun u hu => isNumeric_of_isDigit (isDigit_numeral _ u hu)
  have hrest := List.forall_mem_append.mpr ⟨hpoint, htail⟩
  exact List.forall_mem_append.mpr ⟨fun u hu => isNumeric_of_isDigit (hwhole u hu), hrest⟩

theorem numberText_numeric (x : Finite) : ∀ u ∈ numberText x, isNumeric u = true := by
  rw [numberText]
  split
  · exact List.forall_mem_cons.mpr ⟨by decide, parts_text_numeric _⟩
  · exact parts_text_numeric _

theorem numberText_ne_nil (x : Finite) : numberText x ≠ [] := by
  obtain ⟨u, hu, -⟩ := parts_text_head x.1.natAbs
  rw [numberText]
  split
  · simp
  · intro hnil
    simp [hnil] at hu

end Kronos.Lib.NumberText
