import Mathlib.Order.Bounds.Basic
import Mathlib.Order.MinMax
import Mathlib.Order.Nat
import Mathlib.Data.List.Basic

/-!
# Longest common subsequences

The length of a longest common subsequence of two lists, by comparing heads: an
equal head is worth taking, and of two different ones at least one is not used.
-/
namespace Kronos.Lib.Subsequence

variable {α : Type} [DecidableEq α]

def commonLength : List α → List α → ℕ
  | [], _ => 0
  | _, [] => 0
  | x :: xs, y :: ys =>
      if x = y then commonLength xs ys + 1
      else max (commonLength xs (y :: ys)) (commonLength (x :: xs) ys)
termination_by xs ys => xs.length + ys.length

@[simp] theorem commonLength_nil_left (ys : List α) : commonLength [] ys = 0 := by rw [commonLength]

@[simp] theorem commonLength_nil_right (xs : List α) : commonLength xs [] = 0 := by
  cases xs with
  | nil => rw [commonLength]
  | cons x xs =>
      rw [commonLength]
      exact List.cons_ne_nil x xs

theorem commonLength_cons (x y : α) (xs ys : List α) :
    commonLength (x :: xs) (y :: ys) =
      if x = y then commonLength xs ys + 1
      else max (commonLength xs (y :: ys)) (commonLength (x :: xs) ys) := by
  rw [commonLength]

theorem length_le_commonLength {l xs ys : List α} (hx : l.Sublist xs) (hy : l.Sublist ys) :
    l.length ≤ commonLength xs ys := by
  induction xs, ys using commonLength.induct generalizing l with
  | case1 ys => simp [List.sublist_nil.mp hx]
  | case2 xs _ => simp [List.sublist_nil.mp hy]
  | case3 xs y ys ih =>
      have htail := ih hx.tail hy.tail
      rw [commonLength_cons, if_pos rfl]
      simp only [List.length_tail] at htail
      omega
  | case4 x xs y ys hne ihx ihy =>
      rw [commonLength_cons, if_neg hne]
      rcases List.sublist_cons_iff.mp hx with hx' | ⟨l', rfl, hl'⟩
      · exact le_max_of_le_left (ihx hx' hy)
      · -- the head of the subsequence is `x`, so it is found behind `y`
        rcases List.sublist_cons_iff.mp hy with hy' | ⟨l'', heq, -⟩
        · exact le_max_of_le_right (ihy hx hy')
        · exact absurd (List.cons.inj heq).1 hne

theorem exists_common (xs ys : List α) :
    ∃ l : List α, l.Sublist xs ∧ l.Sublist ys ∧ l.length = commonLength xs ys := by
  induction xs, ys using commonLength.induct with
  | case1 ys => exact ⟨[], by simp, by simp, by simp⟩
  | case2 xs _ => exact ⟨[], by simp, by simp, by simp⟩
  | case3 xs y ys ih =>
      obtain ⟨l, hx, hy, hlength⟩ := ih
      exact ⟨y :: l, hx.cons_cons y, hy.cons_cons y, by
        rw [commonLength_cons, if_pos rfl, ← hlength, List.length_cons]⟩
  | case4 x xs y ys hne ihx ihy =>
      rw [commonLength_cons, if_neg hne]
      rcases max_choice (commonLength xs (y :: ys)) (commonLength (x :: xs) ys) with hmax | hmax
      · obtain ⟨l, hx, hy, hlength⟩ := ihx
        exact ⟨l, hx.cons x, hy, hlength.trans hmax.symm⟩
      · obtain ⟨l, hx, hy, hlength⟩ := ihy
        exact ⟨l, hx, hy.cons y, hlength.trans hmax.symm⟩

/-- No common subsequence is longer. -/
theorem isGreatest_commonLength (xs ys : List α) :
    IsGreatest {k | ∃ l : List α, l.Sublist xs ∧ l.Sublist ys ∧ l.length = k}
      (commonLength xs ys) := by
  refine ⟨exists_common xs ys, ?_⟩
  rintro k ⟨l, hx, hy, rfl⟩
  exact length_le_commonLength hx hy

end Kronos.Lib.Subsequence
