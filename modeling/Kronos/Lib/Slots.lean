import Mathlib.Data.List.Basic

/-!
# Parties in numbered slots

A list holds the state of each party under its number. A step rewrites one slot
or opens a new one at the end, and may ask whether any party but its own has a
property.
-/
namespace Kronos.Lib.Slots

variable {α : Type} {slots : List α} {i j : ℕ} {a b : α}

theorem getElem?_set_cases (h : (slots.set i a)[j]? = some b) :
    (j = i ∧ b = a) ∨ (j ≠ i ∧ slots[j]? = some b) := by
  rcases eq_or_ne j i with rfl | hne
  · have hlt : j < slots.length := by
      simpa using (List.getElem?_eq_some_iff.mp h).1
    rw [List.getElem?_set_self hlt] at h
    exact .inl ⟨rfl, (Option.some.inj h).symm⟩
  · rw [List.getElem?_set_ne hne.symm] at h
    exact .inr ⟨hne, h⟩

theorem getElem?_concat_cases (h : (slots ++ [a])[j]? = some b) :
    (j = slots.length ∧ b = a) ∨ slots[j]? = some b := by
  rcases Nat.lt_or_ge j slots.length with hlt | hge
  · rw [List.getElem?_append_left hlt] at h
    exact .inr h
  · rw [List.getElem?_append_right hge] at h
    obtain ⟨hlt, hb⟩ := List.getElem?_eq_some_iff.mp h
    have hj : j = slots.length := by simp at hlt; omega
    exact .inl ⟨hj, by simpa [hj] using hb.symm⟩

theorem getElem?_append_of_some {later : List α} (h : slots[j]? = some b) :
    (slots ++ later)[j]? = some b := by
  rw [List.getElem?_append_left (List.getElem?_eq_some_iff.mp h).1]
  exact h

theorem getElem?_set_of_ne (hne : j ≠ i) (h : slots[j]? = some b) :
    (slots.set i a)[j]? = some b := by
  rw [List.getElem?_set_ne hne.symm]
  exact h

theorem getElem?_set_of_some (h : slots[i]? = some b) : (slots.set i a)[i]? = some a :=
  List.getElem?_set_self (List.getElem?_eq_some_iff.mp h).1

theorem set_of_some (h : slots[i]? = some a) : slots.set i a = slots := by
  obtain ⟨hlt, rfl⟩ := List.getElem?_eq_some_iff.mp h
  exact List.set_getElem_self hlt

theorem modify_of_some (h : slots[i]? = some a) (f : α → α) :
    slots.modify i f = slots.set i (f a) := by
  refine List.ext_getElem? fun j => ?_
  rcases eq_or_ne i j with rfl | hne
  · rw [getElem?_set_of_some h]
    simp [h]
  · simp [hne]

theorem getElem?_modify_of_ne (hne : j ≠ i) (f : α → α) : (slots.modify i f)[j]? = slots[j]? := by
  rw [List.getElem?_modify]
  simp [hne.symm]

theorem getElem?_modify_self (f : α → α) : (slots.modify i f)[i]? = slots[i]?.map f := by
  simp

theorem modify_concat_length (slots : List α) (a : α) (f : α → α) :
    (slots ++ [a]).modify slots.length f = slots ++ [f a] := by
  induction slots with
  | nil => rfl
  | cons b slots ih => exact congrArg (b :: ·) ih

theorem modify_concat_of_ne (hne : i ≠ slots.length) (a : α) (f : α → α) :
    (slots ++ [a]).modify i f = slots.modify i f ++ [a] := by
  induction slots generalizing i with
  | nil =>
      cases i with
      | zero => exact absurd rfl hne
      | succ i => simp only [List.nil_append, List.modify_succ_cons, List.modify_nil]
  | cons b slots ih =>
      cases i with
      | zero => rfl
      | succ i => exact congrArg (b :: ·) (ih fun heq => hne (congrArg (· + 1) heq))

/-- A slot that is rewritten is counted as it is now, no longer as it was. -/
theorem countP_set_of_some (h : slots[i]? = some b) (a : α) (p : α → Bool) :
    (slots.set i a).countP p + (p b).toNat = slots.countP p + (p a).toNat := by
  induction slots generalizing i with
  | nil => cases h
  | cons first slots ih =>
      cases i with
      | zero =>
          cases h
          rw [List.set_cons_zero, List.countP_cons, List.countP_cons]
          cases p a <;> cases p b <;> rfl
      | succ i =>
          rw [List.set_cons_succ, List.countP_cons, List.countP_cons]
          have hrest := ih h
          omega

/-- The parties of `numbers` are changed one after another. -/
theorem getElem?_foldl_modify {numbers : List ℕ} (hnodup : numbers.Nodup) (f : α → α) :
    (numbers.foldl (fun slots i => slots.modify i f) slots)[j]? =
      if j ∈ numbers then slots[j]?.map f else slots[j]? := by
  induction numbers generalizing slots with
  | nil => simp
  | cons i numbers ih =>
      obtain ⟨hi, hnodup⟩ := List.nodup_cons.mp hnodup
      rw [List.foldl_cons, ih hnodup]
      rcases eq_or_ne j i with rfl | hne
      · simp [hi]
      · simp only [List.mem_cons, hne, false_or, getElem?_modify_of_ne hne]

/-- Some party other than the one at `i` satisfies `p`. -/
def anyOther (slots : List α) (i : ℕ) (p : α → Bool) : Bool :=
  slots.zipIdx.any fun entry => entry.2 != i && p entry.1

theorem anyOther_eq_false {p : α → Bool} (h : anyOther slots i p = false)
    (hj : slots[j]? = some b) (hne : j ≠ i) : p b = false := by
  have hmem : (b, j) ∈ slots.zipIdx := List.mk_mem_zipIdx_iff_getElem?.mpr hj
  have hboth := List.any_eq_false.mp h (b, j) hmem
  simpa [hne] using hboth

end Kronos.Lib.Slots
