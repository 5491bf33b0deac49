import Mathlib.Data.Int.Notation
import Mathlib.Algebra.Order.Ring.Int
import Mathlib.Data.Nat.Log

/-!
# Whole numbers as doubles

A double that is a whole number below 2^64 is kept as that number. The result of
an operation is the exact one rounded to 53 significant bits, to the nearest, and
to the even one of two.
-/
namespace Kronos.Lib.Binary64

/-- What one unit in the last of 53 bits is worth. -/
def unit (n : ℕ) : ℕ := 1 <<< (n.log2 - 52)

def roundNat (n : ℕ) : ℕ :=
  if 2 * (n % unit n) < unit n ∨ 2 * (n % unit n) = unit n ∧
    n / unit n % 2 = 0 then n / unit n * unit n
  else (n / unit n + 1) * unit n

def round : ℤ → ℤ
  | .ofNat n => roundNat n
  | .negSucc n => -(roundNat (n + 1) : ℤ)

def add (a b : ℤ) : ℤ := round (a + b)

def mul (a b : ℤ) : ℤ := round (a * b)

/-- `Number.isSafeInteger`. -/
def Safe (v : ℤ) : Prop := -9007199254740991 ≤ v ∧ v ≤ 9007199254740991

instance : DecidablePred Safe := fun _ => inferInstanceAs (Decidable (_ ∧ _))

theorem unit_pos (n : ℕ) : 0 < unit n := by
  rw [unit, Nat.shiftLeft_eq, Nat.one_mul]
  exact Nat.two_pow_pos _

theorem roundNat_of_dvd {n : ℕ} (h : unit n ∣ n) : roundNat n = n := by
  have hpos := unit_pos n
  rw [roundNat, Nat.mod_eq_zero_of_dvd h, if_pos (.inl (by simpa using hpos)), Nat.div_mul_cancel h]

theorem unit_dvd {n k : ℕ} (h : n.log2 ≤ 52 + k) : unit n ∣ 2 ^ k := by
  rw [unit, Nat.shiftLeft_eq, Nat.one_mul]
  exact Nat.pow_dvd_pow 2 (by omega)

/-- A multiple of a power of two of 53 bits more. -/
theorem roundNat_shifted {m k : ℕ} (h : m < 9007199254740992) :
    roundNat (m * 2 ^ k) = m * 2 ^ k := by
  apply roundNat_of_dvd
  rcases Nat.eq_zero_or_pos m with rfl | hm
  · simp
  · have hne : m * 2 ^ k ≠ 0 := Nat.mul_ne_zero (by omega) (Nat.pow_pos (by decide)).ne'
    have hlog : (m * 2 ^ k).log2 < 53 + k := by
      rw [Nat.log2_lt hne, Nat.pow_add]
      exact Nat.mul_lt_mul_of_pos_right h (Nat.pow_pos (by decide))
    exact Nat.dvd_trans (unit_dvd (by omega)) (Nat.dvd_mul_left _ _)

theorem round_neg (v : ℤ) : round (-v) = -round v := by
  cases v with
  | ofNat n =>
      cases n with
      | zero => rfl
      | succ n => rfl
  | negSucc n => exact (Int.neg_neg _).symm

theorem round_shifted {m : ℤ} {k : ℕ} (h : m.natAbs < 9007199254740992) :
    round (m * 2 ^ k) = m * 2 ^ k := by
  have hnat : ∀ n : ℕ, n < 9007199254740992 → round ((n : ℤ) * 2 ^ k) = (n : ℤ) * 2 ^ k := by
    intro n hn
    have hcast : (n : ℤ) * 2 ^ k = ((n * 2 ^ k : ℕ) : ℤ) := by push_cast; rfl
    rw [hcast]
    exact congrArg Int.ofNat (roundNat_shifted hn)
  rcases Int.natAbs_eq m with heq | heq
  · rw [heq]
    exact hnat _ h
  · rw [heq, Int.neg_mul, round_neg, hnat _ h]

theorem round_safe {v : ℤ} (h : Safe v) : round v = v := by
  simp only [Safe] at h
  have hshifted := round_shifted (m := v) (k := 0) (by omega)
  simpa using hshifted

end Kronos.Lib.Binary64
