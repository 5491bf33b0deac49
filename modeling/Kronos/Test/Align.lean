import Mathlib.Data.List.Range
import Kronos.Lib.Subsequence

/-!
# Aligning two lists of names

`align` fills a table from the last row and column to the first, where a cell
holds the length of a longest common subsequence of what is left of both lists,
and then walks it from the first cell: equal names make a pair, and of two
different ones the one is skipped behind which more is left.
-/
namespace Kronos.Test.Align
open Lib.Subsequence

variable {α : Type} [DecidableEq α]

/-! ## The table and the walk -/

/-- One aligned slot: an expectation, an actual message, or both. -/
@[ext]
structure Alignment where
  expectedIndex : Option ℕ
  actualIndex : Option ℕ
  deriving DecidableEq

/-- `lcs[i][j]`; a new table is filled with zeros. -/
abbrev Table := ℕ → ℕ → ℕ

def Table.write (lcs : Table) (i j cell : ℕ) : Table := fun i' j' => if i' = i ∧ j' = j then cell
    else lcs i' j'

/-- The inner loop, from `j - 1` down to `0`. -/
def fillRow (expected actual : List α) (i : ℕ) : ℕ → Table → Table
  | 0, lcs => lcs
  | j + 1, lcs =>
      fillRow expected actual i j <| lcs.write i j <|
        if expected[i]? = actual[j]? then lcs (i + 1) (j + 1) + 1
        else max (lcs (i + 1) j) (lcs i (j + 1))

/-- The outer loop, from `i - 1` down to `0`. -/
def fill (expected actual : List α) : ℕ → Table → Table
  | 0, lcs => lcs
  | i + 1, lcs => fill expected actual i (fillRow expected actual i actual.length lcs)

def table (expected actual : List α) : Table := fill expected actual expected.length fun _ _ => 0

/-- The slots from cell `i`, `j` on. -/
def walk (expected actual : List α) (lcs : Table) (i j : ℕ) : List Alignment :=
  if i < expected.length ∧ j < actual.length then
    if expected[i]? = actual[j]? then ⟨some i, some j⟩ :: walk expected actual lcs (i + 1) (j + 1)
    else if lcs i (j + 1) ≤ lcs (i + 1) j then ⟨some i, none⟩ :: walk expected actual lcs (i + 1) j
    else ⟨none, some j⟩ :: walk expected actual lcs i (j + 1)
  else
    (List.range' i (expected.length - i)).map (fun k => ⟨some k, none⟩) ++
      (List.range' j (actual.length - j)).map fun k => ⟨none, some k⟩
termination_by (expected.length - i) + (actual.length - j)

/-- Longest-common-subsequence alignment of two name lists. -/
def align (expected actual : List α) : List Alignment :=
  walk expected actual (table expected actual) 0 0

/-! ## The table holds what is left to pair -/

/-- The rows behind `i` are filled, and row `i` from column `j` on. -/
structure Filled (expected actual : List α) (lcs : Table) (i j : ℕ) : Prop where
  cells : ∀ i' j', i' ≤ expected.length → j' ≤ actual.length → (i < i' ∨ i' = i ∧ j ≤ j') →
    lcs i' j' = commonLength (expected.drop i') (actual.drop j')
  last : ∀ i', lcs i' actual.length = 0

theorem commonLength_drop {expected actual : List α} {i j : ℕ} (hi : i < expected.length)
    (hj : j < actual.length) :
    commonLength (expected.drop i) (actual.drop j) =
      if expected[i]? = actual[j]? then
        commonLength (expected.drop (i + 1)) (actual.drop (j + 1)) + 1
      else max (commonLength (expected.drop (i + 1)) (actual.drop j))
        (commonLength (expected.drop i) (actual.drop (j + 1))) := by
  rw [List.drop_eq_getElem_cons hi, List.drop_eq_getElem_cons hj, commonLength_cons,
    List.getElem?_eq_getElem hi, List.getElem?_eq_getElem hj]
  simp only [Option.some.injEq]

theorem Filled.write {expected actual : List α} {i j : ℕ} {lcs : Table} (hi : i < expected.length)
    (hj : j < actual.length) (h : Filled expected actual lcs i (j + 1)) :
    Filled expected actual (lcs.write i j <|
      if expected[i]? = actual[j]? then lcs (i + 1) (j + 1) + 1
      else max (lcs (i + 1) j) (lcs i (j + 1))) i j := by
  refine ⟨fun i' j' hi' hj' hcell => ?_, fun i' => ?_⟩
  · by_cases hnew : i' = i ∧ j' = j
    · obtain ⟨rfl, rfl⟩ := hnew
      rw [Table.write, if_pos ⟨rfl, rfl⟩, commonLength_drop hi hj]
      rw [h.cells (i' + 1) (j' + 1) hi hj (.inl (by omega)),
        h.cells (i' + 1) j' hi hj' (.inl (by omega)),
        h.cells i' (j' + 1) hi' hj (.inr ⟨rfl, le_rfl⟩)]
    · rw [Table.write, if_neg hnew]
      exact h.cells i' j' hi' hj' (by omega)
  · rw [Table.write, if_neg (by omega)]
    exact h.last i'

theorem Filled.fillRow {expected actual : List α} {i j : ℕ} {lcs : Table} (hi : i < expected.length)
    (hj : j ≤ actual.length) (h : Filled expected actual lcs i j) :
    Filled expected actual (fillRow expected actual i j lcs) i 0 := by
  induction j generalizing lcs with
  | zero => exact h
  | succ j ih => exact ih (by omega) (h.write hi hj)

/-- The next row starts with its last cell, which is zero from the beginning. -/
theorem Filled.next {expected actual : List α} {i : ℕ} {lcs : Table}
    (h : Filled expected actual lcs (i + 1) 0) : Filled expected actual lcs i actual.length := by
  refine ⟨fun i' j' hi' hj' hcell => ?_, h.last⟩
  rcases hcell with hrow | ⟨-, hcolumn⟩
  · exact h.cells i' j' hi' hj' (by omega)
  · obtain rfl : j' = actual.length := by omega
    rw [h.last, List.drop_length, commonLength_nil_right]

theorem Filled.fill {expected actual : List α} {i : ℕ} {lcs : Table} (hi : i ≤ expected.length)
    (h : Filled expected actual lcs i 0) :
    Filled expected actual (fill expected actual i lcs) 0 0 := by
  induction i generalizing lcs with
  | zero => exact h
  | succ i ih => exact ih (by omega) (h.next.fillRow hi le_rfl)

theorem table_eq {expected actual : List α} {i j : ℕ} (hi : i ≤ expected.length)
    (hj : j ≤ actual.length) :
    table expected actual i j = commonLength (expected.drop i) (actual.drop j) := by
  have hempty : Filled expected actual (fun _ _ => 0) expected.length 0 := by
    refine ⟨fun i' j' hi' _ hcell => ?_, fun _ => rfl⟩
    obtain rfl : i' = expected.length := by omega
    rw [List.drop_length, commonLength_nil_left]
  exact (hempty.fill le_rfl).cells i j hi hj (by omega)

/-! ## The walk pairs as many as it can -/

def isPair (slot : Alignment) : Bool := slot.expectedIndex.isSome && slot.actualIndex.isSome

/-- What the slots from `i`, `j` on are. -/
structure Aligned (expected actual : List α) (i j : ℕ) (slots : List Alignment) : Prop where
  expectedOnce : slots.filterMap Alignment.expectedIndex = List.range' i (expected.length - i)
  actualOnce : slots.filterMap Alignment.actualIndex = List.range' j (actual.length - j)
  named : ∀ slot ∈ slots, slot.expectedIndex.isSome = true ∨ slot.actualIndex.isSome = true
  equalNames : ∀ slot ∈ slots, ∀ k l, slot = ⟨some k, some l⟩ → ∃ name, expected[k]? = some name ∧
    actual[l]? = some name
  pairs : slots.countP isPair = commonLength (expected.drop i) (actual.drop j)

theorem range'_step {i n : ℕ} (h : i < n) :
    List.range' i (n - i) = i :: List.range' (i + 1) (n - (i + 1)) := by
  rw [show n - i = n - (i + 1) + 1 by omega, List.range'_succ]

section Steps

variable {expected actual : List α} {i j : ℕ} {slots : List Alignment}

theorem Aligned.pair (hi : i < expected.length) (hj : j < actual.length)
    (heq : expected[i]? = actual[j]?) (h : Aligned expected actual (i + 1) (j + 1) slots) :
    Aligned expected actual i j (⟨some i, some j⟩ :: slots) := by
  refine ⟨?_, ?_, ?_, ?_, ?_⟩
  · rw [range'_step hi, ← h.expectedOnce]
    rfl
  · rw [range'_step hj, ← h.actualOnce]
    rfl
  · exact List.forall_mem_cons.mpr ⟨.inl rfl, h.named⟩
  · refine List.forall_mem_cons.mpr ⟨?_, h.equalNames⟩
    rintro k l ⟨⟩
    exact ⟨expected[i], List.getElem?_eq_getElem hi, heq ▸ List.getElem?_eq_getElem hi⟩
  · rw [List.countP_cons_of_pos rfl, h.pairs, commonLength_drop hi hj, if_pos heq]

theorem Aligned.skipExpected (hi : i < expected.length)
    (hpairs : commonLength (expected.drop i) (actual.drop j) =
      commonLength (expected.drop (i + 1)) (actual.drop j))
    (h : Aligned expected actual (i + 1) j slots) :
    Aligned expected actual i j (⟨some i, none⟩ :: slots) := by
  refine ⟨?_, ?_, ?_, ?_, ?_⟩
  · rw [range'_step hi, ← h.expectedOnce]
    rfl
  · rw [← h.actualOnce]
    rfl
  · exact List.forall_mem_cons.mpr ⟨.inl rfl, h.named⟩
  · exact List.forall_mem_cons.mpr ⟨nofun, h.equalNames⟩
  · rw [List.countP_cons_of_neg (by simp [isPair]), h.pairs, hpairs]

theorem Aligned.skipActual (hj : j < actual.length)
    (hpairs : commonLength (expected.drop i) (actual.drop j) =
      commonLength (expected.drop i) (actual.drop (j + 1)))
    (h : Aligned expected actual i (j + 1) slots) :
    Aligned expected actual i j (⟨none, some j⟩ :: slots) := by
  refine ⟨?_, ?_, ?_, ?_, ?_⟩
  · rw [← h.expectedOnce]
    rfl
  · rw [range'_step hj, ← h.actualOnce]
    rfl
  · exact List.forall_mem_cons.mpr ⟨.inr rfl, h.named⟩
  · exact List.forall_mem_cons.mpr ⟨nofun, h.equalNames⟩
  · rw [List.countP_cons_of_neg (by simp [isPair]), h.pairs, hpairs]

/-- Where one list is at its end, the rest of the other has no partners. -/
theorem aligned_rest (hi : i ≤ expected.length) (hj : j ≤ actual.length)
    (hend : i = expected.length ∨ j = actual.length) :
    Aligned expected actual i j
      ((List.range' i (expected.length - i)).map (fun k => ⟨some k, none⟩) ++
      (List.range' j (actual.length - j)).map fun k => ⟨none, some k⟩) := by
  refine ⟨by simp [List.filterMap_map], by simp [List.filterMap_map], ?_, ?_, ?_⟩
  · simp only [List.forall_mem_append, List.forall_mem_map]
    exact ⟨fun _ _ => .inl rfl, fun _ _ => .inr rfl⟩
  · simp only [List.forall_mem_append, List.forall_mem_map]
    exact ⟨fun _ _ => nofun, fun _ _ => nofun⟩
  · have hzero : commonLength (expected.drop i) (actual.drop j) = 0 := by
      rcases hend with rfl | rfl
      · rw [List.drop_length, commonLength_nil_left]
      · rw [List.drop_length, commonLength_nil_right]
    rw [hzero, List.countP_eq_zero, List.forall_mem_append, List.forall_mem_map,
      List.forall_mem_map]
    exact ⟨fun _ _ => Bool.false_ne_true, fun _ _ => Bool.false_ne_true⟩

end Steps

theorem aligned_walk (expected actual : List α) {i j : ℕ} (hi : i ≤ expected.length)
    (hj : j ≤ actual.length) :
    Aligned expected actual i j (walk expected actual (table expected actual) i j) := by
  induction i, j using walk.induct expected actual (table expected actual) with
  | case1 i j hin heq ih =>
      rw [walk, if_pos hin, if_pos heq]
      exact (ih hin.1 hin.2).pair hin.1 hin.2 heq
  | case2 i j hin hne hle ih =>
      rw [walk, if_pos hin, if_neg hne, if_pos hle]
      refine (ih hin.1 hj).skipExpected hin.1 ?_
      rw [table_eq hi hin.2, table_eq hin.1 hj] at hle
      rw [commonLength_drop hin.1 hin.2, if_neg hne, max_eq_left hle]
  | case3 i j hin hne hlt ih =>
      rw [walk, if_pos hin, if_neg hne, if_neg hlt]
      refine (ih hi hin.2).skipActual hin.2 ?_
      rw [table_eq hi hin.2, table_eq hin.1 hj] at hlt
      rw [commonLength_drop hin.1 hin.2, if_neg hne, max_eq_right (Nat.le_of_not_le hlt)]
  | case4 i j hout =>
      rw [walk, if_neg hout]
      exact aligned_rest hi hj (by omega)

theorem aligned_align (expected actual : List α) :
    Aligned expected actual 0 0 (align expected actual) :=
  aligned_walk expected actual (Nat.zero_le _) (Nat.zero_le _)

/-! ## Equal lists are aligned position by position -/

def diagonal (k : ℕ) : Alignment := ⟨some k, some k⟩

theorem map_eq_of_filterMap {β γ : Type} {f : β → Option γ} {l : List β}
    (h : ∀ b ∈ l, (f b).isSome = true) :
    l.map f = (l.filterMap f).map some := by
  induction l with
  | nil => rfl
  | cons b l ih =>
      obtain ⟨c, hc⟩ := Option.isSome_iff_exists.mp (h b (by simp))
      rw [List.map_cons, List.filterMap_cons_some hc, List.map_cons, hc,
        ih fun b' hb' => h b' (by simp [hb'])]

/-- When every slot is a pair, they are the pairs of equal positions. -/
theorem Aligned.eq_diagonal {expected actual : List α} {slots : List Alignment}
    (h : Aligned expected actual 0 0 slots) (hpair : ∀ slot ∈ slots, isPair slot = true) :
    slots = (List.range expected.length).map diagonal ∧ expected.length = actual.length := by
  have hexpected : slots.map Alignment.expectedIndex = (List.range expected.length).map some := by
    rw [map_eq_of_filterMap fun slot hslot => (Bool.and_eq_true_iff.mp (hpair slot hslot)).1,
      h.expectedOnce,
      Nat.sub_zero, List.range_eq_range']
  have hactual : slots.map Alignment.actualIndex = (List.range actual.length).map some := by
    rw [map_eq_of_filterMap fun slot hslot => (Bool.and_eq_true_iff.mp (hpair slot hslot)).2,
      h.actualOnce,
      Nat.sub_zero, List.range_eq_range']
  have hlength : slots.length = expected.length := by simpa using congrArg List.length hexpected
  have hlength' : slots.length = actual.length := by simpa using congrArg List.length hactual
  refine ⟨List.ext_getElem (by simp [hlength]) fun k hk _ => ?_, hlength.symm.trans hlength'⟩
  have hek : slots[k].expectedIndex = some k := by
    simpa [List.getElem?_eq_getElem hk, hlength ▸ hk] using congrArg (·[k]?) hexpected
  have hak : slots[k].actualIndex = some k := by
    simpa [List.getElem?_eq_getElem hk, hlength' ▸ hk] using congrArg (·[k]?) hactual
  rw [List.getElem_map, List.getElem_range]
  exact Alignment.ext hek hak

theorem walk_self (names : List α) (lcs : Table) {i k : ℕ} (h : i + k = names.length) :
    walk names names lcs i i = (List.range' i k).map diagonal := by
  induction k generalizing i with
  | zero =>
      rw [walk, if_neg (by omega), show names.length - i = 0 by omega]
      rfl
  | succ k ih =>
      rw [walk, if_pos (by omega), if_pos rfl, ih (by omega), List.range'_succ,
        List.map_cons, diagonal]

theorem align_self (names : List α) :
    align names names = (List.range names.length).map diagonal := by
  rw [align, walk_self names _ (Nat.zero_add _), List.range_eq_range']

/-- Every slot is a pair exactly when the two lists are the same. -/
theorem all_pairs_iff {expected actual : List α} :
    (∀ slot ∈ align expected actual, isPair slot = true) ↔ expected = actual := by
  constructor
  · intro hpair
    obtain ⟨hslots, hlength⟩ := (aligned_align expected actual).eq_diagonal hpair
    refine List.ext_getElem hlength fun k hk hk' => ?_
    have hmem : diagonal k ∈ align expected actual := by
      rw [hslots]
      exact List.mem_map_of_mem (List.mem_range.mpr hk)
    obtain ⟨name, hname, hname'⟩ := (aligned_align expected actual).equalNames _ hmem k k rfl
    rw [List.getElem?_eq_getElem hk] at hname
    rw [List.getElem?_eq_getElem hk'] at hname'
    exact (Option.some.inj hname).trans (Option.some.inj hname').symm
  · rintro rfl
    rw [align_self]
    exact List.forall_mem_map.mpr fun _ _ => rfl

end Kronos.Test.Align
