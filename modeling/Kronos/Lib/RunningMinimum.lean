import Mathlib.Order.Lattice
import Mathlib.Data.List.Basic

/-!
# The first of the least

A loop that keeps the best so far, and replaces it only by a strictly smaller
one, ends with the first among the least.
-/
namespace Kronos.Lib.RunningMinimum

variable {α T : Type} [LinearOrder T] {f : α → T}

/-- All before it are larger, and none after it is smaller. -/
def FirstLeast (f : α → T) (xs : List α) (x : α) : Prop :=
  ∃ before after, xs = before ++ x :: after ∧ (∀ y ∈ before, f x < f y) ∧ ∀ y ∈ after, f x ≤ f y

theorem FirstLeast.mem {xs : List α} {x : α} (h : FirstLeast f xs x) : x ∈ xs := by
  obtain ⟨before, after, rfl, -, -⟩ := h
  simp

theorem FirstLeast.le {xs : List α} {x : α} (h : FirstLeast f xs x) {y : α} (hy : y ∈ xs) :
    f x ≤ f y := by
  obtain ⟨before, after, rfl, hbefore, hafter⟩ := h
  rcases List.mem_append.mp hy with hy | hy
  · exact (hbefore y hy).le
  · rcases List.mem_cons.mp hy with rfl | hy
    · exact le_rfl
    · exact hafter y hy

theorem FirstLeast.unique {xs : List α} {x y : α} (hx : FirstLeast f xs x)
    (hy : FirstLeast f xs y) : x = y := by
  obtain ⟨before, after, rfl, hbefore, hafter⟩ := id hx
  obtain ⟨before', after', heq, hbefore', -⟩ := id hy
  -- one of the two stands first, and the other is then too small or too large
  rcases List.append_eq_append_iff.mp heq with ⟨between, rfl, hrest⟩ | ⟨between, rfl, hrest⟩
  · cases between with
    | nil => exact (List.cons.inj hrest).1
    | cons z between =>
        obtain ⟨rfl, -⟩ := List.cons.inj hrest
        have hlt := hbefore' x (by simp)
        exact absurd (hx.le hy.mem) hlt.not_ge
  · cases between with
    | nil => exact (List.cons.inj hrest).1.symm
    | cons z between =>
        obtain ⟨rfl, -⟩ := List.cons.inj hrest
        have hlt := hbefore y (by simp)
        exact absurd (hy.le hx.mem) hlt.not_ge

/-- One pass of the loop. -/
def keepLess (f : α → T) (best : Option α × T) (x : α) : Option α × T :=
  if f x < best.2 then (some x, f x) else best

/-- The loop ends with the first of the least, unless nothing is below where it started. -/
theorem foldl_keepLess (xs : List α) (best : Option α × T) :
    (∃ x, FirstLeast f xs x ∧ f x < best.2 ∧ xs.foldl (keepLess f) best = (some x, f x)) ∨
      (∀ x ∈ xs, best.2 ≤ f x) ∧ xs.foldl (keepLess f) best = best := by
  induction xs generalizing best with
  | nil => exact .inr ⟨nofun, rfl⟩
  | cons x xs ih =>
      rw [List.foldl_cons, keepLess]
      split_ifs with hless
      · rcases ih (some x, f x) with ⟨y, hy, hlt, hfold⟩ | ⟨hall, hfold⟩
        · obtain ⟨before, after, rfl, hbefore, hafter⟩ := id hy
          refine .inl ⟨y, ⟨x :: before, after, rfl, ?_, hafter⟩, hlt.trans hless, hfold⟩
          intro z hz
          rcases List.mem_cons.mp hz with rfl | hz
          · exact hlt
          · exact hbefore z hz
        · exact .inl ⟨x, ⟨[], xs, rfl, nofun, hall⟩, hless, hfold⟩
      · rcases ih best with ⟨y, hy, hlt, hfold⟩ | ⟨hall, hfold⟩
        · obtain ⟨before, after, rfl, hbefore, hafter⟩ := id hy
          refine .inl ⟨y, ⟨x :: before, after, rfl, ?_, hafter⟩, hlt, hfold⟩
          intro z hz
          rcases List.mem_cons.mp hz with rfl | hz
          · exact hlt.trans_le (not_lt.mp hless)
          · exact hbefore z hz
        · refine .inr ⟨?_, hfold⟩
          intro z hz
          rcases List.mem_cons.mp hz with rfl | hz
          · exact not_lt.mp hless
          · exact hall z hz

end Kronos.Lib.RunningMinimum
