import Mathlib.Data.List.Basic
import Mathlib.Data.List.Sort
import Mathlib.Order.Defs.LinearOrder

/-!
# Windows of a log ordered by key

A log is a list whose keys strictly increase, in any linear order.
`window key p lo hi l` is the part of `l` that satisfies `p` and has its key in
`(lo, hi]`, in log order: what a reader at `lo` passes on its way to `hi`. The
rules below say how windows split at a key, what reading one more element adds,
and that appending beyond `hi` changes nothing.
-/
namespace Kronos.Lib.Window

variable {α κ : Type} [LinearOrder κ] {key : α → κ} {p : α → Bool} {l m : List α} {a b : α}
  {lo mid hi : κ}

/-- Keys strictly increase along the list. -/
def Ordered (key : α → κ) (l : List α) : Prop := l.Pairwise fun a b => key a < key b

def window (key : α → κ) (p : α → Bool) (lo hi : κ) (l : List α) : List α :=
  l.filter fun a => decide (lo < key a) && decide (key a ≤ hi) && p a

/-- The part that satisfies `p` and has its key beyond `lo`. -/
def beyond (key : α → κ) (p : α → Bool) (lo : κ) (l : List α) : List α :=
  l.filter fun a => decide (lo < key a) && p a

theorem mem_window : a ∈ window key p lo hi l ↔ a ∈ l ∧ lo < key a ∧ key a ≤ hi ∧ p a = true := by
  simp only [window, List.mem_filter, Bool.and_eq_true, decide_eq_true_eq, and_assoc]

theorem mem_beyond : a ∈ beyond key p lo l ↔ a ∈ l ∧ lo < key a ∧ p a = true := by
  simp only [beyond, List.mem_filter, Bool.and_eq_true, decide_eq_true_eq]

theorem Ordered.append (hl : Ordered key l) (hm : Ordered key m)
    (h : ∀ a ∈ l, ∀ b ∈ m, key a < key b) : Ordered key (l ++ m) :=
  List.pairwise_append.mpr ⟨hl, hm, h⟩

theorem Ordered.window (h : Ordered key l) (p : α → Bool) (lo hi : κ) :
    Ordered key (window key p lo hi l) :=
  h.filter _

theorem Ordered.beyond (h : Ordered key l) (p : α → Bool) (lo : κ) :
    Ordered key (beyond key p lo l) :=
  h.filter _

theorem Ordered.nodup (h : Ordered key l) : l.Nodup := by
  apply List.Pairwise.imp _ h
  intro a b hlt heq
  exact absurd hlt (heq ▸ lt_irrefl (key a))

/-- An ordered list is determined by its members. -/
theorem Ordered.ext (hl : Ordered key l) (hm : Ordered key m) (h : ∀ a, a ∈ l ↔ a ∈ m) : l = m := by
  have : Std.Irrefl fun a b : α => key a < key b := ⟨fun a => lt_irrefl (key a)⟩
  have : Std.Antisymm fun a b : α => key a < key b := ⟨fun _ _ hab hba => absurd hba hab.asymm⟩
  exact List.Pairwise.eq_of_mem_iff hl hm h

theorem Ordered.key_lt {i j : ℕ} (h : Ordered key l) (ha : l[i]? = some a)
    (hb : l[j]? = some b) (hij : i < j) : key a < key b := by
  obtain ⟨hi, rfl⟩ := List.getElem?_eq_some_iff.mp ha
  obtain ⟨hj, rfl⟩ := List.getElem?_eq_some_iff.mp hb
  exact List.pairwise_iff_getElem.mp h i j hi hj hij

/-- Keys identify the elements of an ordered list. -/
theorem Ordered.eq_of_key (h : Ordered key l) (ha : a ∈ l) (hb : b ∈ l)
    (hk : key a = key b) : a = b := by
  obtain ⟨i, hi⟩ := List.mem_iff_getElem?.mp ha
  obtain ⟨j, hj⟩ := List.mem_iff_getElem?.mp hb
  rcases Nat.lt_trichotomy i j with hij | rfl | hij
  · exact absurd hk (h.key_lt hi hj hij).ne
  · exact Option.some.inj (hi.symm.trans hj)
  · exact absurd hk (h.key_lt hj hi hij).ne'

/-- Two keys a list is in order of compare its elements alike. -/
theorem Ordered.lt_iff {κ' : Type} [LinearOrder κ'] {key' : α → κ'} (h : Ordered key l)
    (h' : Ordered key' l) (ha : a ∈ l) (hb : b ∈ l) : key a < key b ↔ key' a < key' b := by
  obtain ⟨i, hi⟩ := List.mem_iff_getElem?.mp ha
  obtain ⟨j, hj⟩ := List.mem_iff_getElem?.mp hb
  rcases Nat.lt_trichotomy i j with hij | rfl | hij
  · exact iff_of_true (h.key_lt hi hj hij) (h'.key_lt hi hj hij)
  · cases hi.symm.trans hj
    exact iff_of_false (lt_irrefl _) (lt_irrefl _)
  · exact iff_of_false (h.key_lt hj hi hij).asymm (h'.key_lt hj hi hij).asymm

/-- What comes before an element of a prefix is in the prefix. -/
theorem Ordered.mem_take {n : ℕ} (h : Ordered key l) (ha : a ∈ l.take n) (hb : b ∈ l)
    (hlt : key b < key a) : b ∈ l.take n := by
  obtain ⟨j, hj⟩ := List.mem_iff_getElem?.mp hb
  obtain ⟨k, hk⟩ := List.mem_iff_getElem?.mp ha
  rw [List.getElem?_take] at hk
  split_ifs at hk with hkn
  have hjk : j < k := by
    rcases Nat.lt_trichotomy j k with hjk | rfl | hjk
    · exact hjk
    · cases hj.symm.trans hk
      exact absurd hlt (lt_irrefl _)
    · exact absurd (h.key_lt hk hj hjk) hlt.asymm
  apply List.mem_iff_getElem?.mpr ⟨j, ?_⟩
  rw [List.getElem?_take, if_pos (hjk.trans hkn), hj]

/-- The first element of a filtered prefix is the least one that passes the filter. -/
theorem Ordered.head_filter_take {n : ℕ} {q : α → Bool} (h : Ordered key l)
    (ha : ((l.take n).filter q).head? = some a) :
    a ∈ l ∧ q a = true ∧ ∀ b ∈ l, q b = true → key a ≤ key b := by
  obtain ⟨rest, hrest⟩ := List.head?_eq_some_iff.mp ha
  have hmem : a ∈ (l.take n).filter q := by simp [hrest]
  rw [List.mem_filter] at hmem
  refine ⟨List.mem_of_mem_take hmem.1, hmem.2, ?_⟩
  intro b hb hq
  by_contra hlt
  rw [not_le] at hlt
  have hbrest : b ∈ a::rest := by
    rw [← hrest, List.mem_filter]
    exact ⟨h.mem_take hmem.1 hb hlt, hq⟩
  have hord : Ordered key (a::rest) := by
    rw [← hrest]
    exact (h.sublist (List.take_sublist _ _)).filter _
  rcases List.mem_cons.mp hbrest with rfl | hbr
  · exact absurd hlt (lt_irrefl _)
  · exact absurd ((List.pairwise_cons.mp hord).1 b hbr) hlt.asymm

theorem Ordered.le_getLast (h : Ordered key l) (ha : a ∈ l) (hb : l.getLast? = some b) :
    key a ≤ key b := by
  obtain ⟨front, rfl⟩ := List.getLast?_eq_some_iff.mp hb
  rcases List.mem_append.mp ha with ha | ha
  · exact ((List.pairwise_append.mp h).2.2 a ha b (List.mem_singleton_self b)).le
  · rw [List.mem_singleton.mp ha]

/-- Sorting a list whose keys are distinct. -/
theorem ordered_insertionSort (h : l.Pairwise fun a b => key a ≠ key b) :
    Ordered key (l.insertionSort fun a b => key a ≤ key b) := by
  have htotal : Std.Total fun a b : α => key a ≤ key b := ⟨fun a b => le_total (key a) (key b)⟩
  have htrans : IsTrans α fun a b : α => key a ≤ key b := ⟨fun _ _ _ hab hbc => hab.trans hbc⟩
  have hsorted := List.pairwise_insertionSort (fun a b : α => key a ≤ key b) l
  have hne : (l.insertionSort fun a b => key a ≤ key b).Pairwise fun a b => key a ≠ key b :=
    ((List.perm_insertionSort _ l).pairwise_iff fun hab => hab.symm).mpr h
  exact (hsorted.and hne).imp fun hab => lt_of_le_of_ne hab.1 hab.2

/-- A window splits at any key inside it. -/
theorem window_split (h : Ordered key l) (hlo : lo ≤ mid) (hhi : mid ≤ hi) :
    window key p lo mid l ++ window key p mid hi l = window key p lo hi l := by
  have hsplit : Ordered key (window key p lo mid l ++ window key p mid hi l) := by
    apply (h.window p lo mid).append (h.window p mid hi)
    intro a ha b hb
    exact (mem_window.mp ha).2.2.1.trans_lt (mem_window.mp hb).2.1
  apply hsplit.ext (h.window p lo hi)
  intro a
  simp only [List.mem_append, mem_window]
  constructor
  · rintro (⟨ha, h₁, h₂, hp⟩ | ⟨ha, h₁, h₂, hp⟩)
    · exact ⟨ha, h₁, h₂.trans hhi, hp⟩
    · exact ⟨ha, hlo.trans_lt h₁, h₂, hp⟩
  · rintro ⟨ha, h₁, h₂, hp⟩
    rcases le_or_gt (key a) mid with hm | hm
    · exact Or.inl ⟨ha, h₁, hm, hp⟩
    · exact Or.inr ⟨ha, hm, h₂, hp⟩

theorem window_eq_nil (h : ∀ a ∈ l, p a = true → lo < key a → hi < key a) :
    window key p lo hi l = [] := by
  apply List.eq_nil_iff_forall_not_mem.mpr
  intro a ha
  obtain ⟨hal, hlo, hhi, hp⟩ := mem_window.mp ha
  exact absurd hhi (not_le.mpr (h a hal hp hlo))

@[simp] theorem window_self (lo : κ) : window key p lo lo l = [] :=
  window_eq_nil fun _ _ _ h => h

/-- Extending the upper end over a stretch with nothing in it. -/
theorem window_extend (h : Ordered key l) (hlo : lo ≤ mid) (hhi : mid ≤ hi)
    (hnone : ∀ a ∈ l, p a = true → mid < key a → hi < key a) :
    window key p lo hi l = window key p lo mid l := by
  rw [← window_split h hlo hhi, window_eq_nil hnone, List.append_nil]

/-- Reading the element `a`, none of those that satisfy `p` lying before it. -/
theorem window_read (h : Ordered key l) (ha : a ∈ l) (hlo : lo < key a)
    (hfirst : ∀ b ∈ l, p b = true → lo < key b → key a ≤ key b) :
    window key p lo (key a) l = if p a = true then [a] else [] := by
  apply (h.window p lo _).ext
  · split <;> simp [Ordered]
  · intro b
    rw [mem_window]
    constructor
    · rintro ⟨hb, h₁, h₂, hp⟩
      obtain rfl := h.eq_of_key hb ha (le_antisymm h₂ (hfirst b hb hp h₁))
      simp [hp]
    · intro hb
      split at hb
      · rename_i hp
        rw [List.mem_singleton] at hb
        subst hb
        exact ⟨ha, hlo, le_rfl, hp⟩
      · exact absurd hb List.not_mem_nil

/-- The first element of a window, and the window after it. -/
theorem window_cons {rest : List α} (h : Ordered key l) (hw : window key p lo hi l = a::rest) :
    a ∈ l ∧ lo < key a ∧ key a ≤ hi ∧ p a = true ∧
      (∀ b ∈ l, p b = true → lo < key b → key a ≤ key b) ∧ rest = window key p (key a) hi l := by
  have hmem : a ∈ window key p lo hi l := by
    rw [hw]
    exact List.mem_cons_self
  obtain ⟨hal, hlo, hhi, hp⟩ := mem_window.mp hmem
  have hord : Ordered key (a::rest) := by
    rw [← hw]
    exact h.window p lo hi
  have hfirst : ∀ b ∈ l, p b = true → lo < key b → key a ≤ key b := by
    intro b hb hpb hlob
    rcases le_or_gt (key b) hi with hle | hgt
    · have hbw : b ∈ a::rest := by
        rw [← hw]
        exact mem_window.mpr ⟨hb, hlob, hle, hpb⟩
      rcases List.mem_cons.mp hbw with rfl | hbr
      · exact le_rfl
      · exact ((List.pairwise_cons.mp hord).1 b hbr).le
    · exact hhi.trans hgt.le
  refine ⟨hal, hlo, hhi, hp, hfirst, ?_⟩
  have hread := window_read (p := p) h hal hlo hfirst
  have hsplit := window_split (p := p) h hlo.le hhi
  rw [hread, if_pos hp, hw] at hsplit
  exact (List.cons_inj_right a).mp hsplit.symm

/-- Appended elements beyond `hi` are outside the window. -/
theorem window_append (h : ∀ a ∈ m, p a = true → lo < key a → hi < key a) :
    window key p lo hi (l ++ m) = window key p lo hi l := by
  have hm : window key p lo hi m = [] := window_eq_nil h
  simp only [window, List.filter_append] at hm ⊢
  rw [hm, List.append_nil]

/-- Everything beyond `lo`, cut at a key. -/
theorem beyond_split (h : Ordered key l) (hle : lo ≤ mid) :
    beyond key p lo l = window key p lo mid l ++ beyond key p mid l := by
  have hright : Ordered key (window key p lo mid l ++ beyond key p mid l) := by
    apply (h.window p lo mid).append (h.beyond p mid)
    intro a ha b hb
    exact (mem_window.mp ha).2.2.1.trans_lt (mem_beyond.mp hb).2.1
  apply (h.beyond p lo).ext hright
  intro a
  simp only [List.mem_append, mem_window, mem_beyond]
  constructor
  · rintro ⟨ha, hlo, hp⟩
    rcases le_or_gt (key a) mid with hm | hm
    · exact Or.inl ⟨ha, hlo, hm, hp⟩
    · exact Or.inr ⟨ha, hm, hp⟩
  · rintro (⟨ha, hlo, -, hp⟩ | ⟨ha, hm, hp⟩)
    · exact ⟨ha, hlo, hp⟩
    · exact ⟨ha, hle.trans_lt hm, hp⟩

/-- What a reader has taken of everything beyond `lo` is the window up to the
last element it took. -/
theorem taken_eq_window {taken : List α} (h : Ordered key l)
    (htaken : taken ++ [a] <+: beyond key p lo l) : taken ++ [a] = window key p lo (key a) l := by
  obtain ⟨rest, hrest⟩ := htaken
  have hall : Ordered key ((taken ++ [a]) ++ rest) := by
    rw [hrest]
    exact h.beyond p lo
  obtain ⟨htk, -, hcross⟩ := List.pairwise_append.mp hall
  have hlast := (List.pairwise_append.mp htk).2.2
  have hord : Ordered key (taken ++ [a]) := htk
  apply hord.ext (h.window p lo _)
  intro x
  rw [mem_window]
  constructor
  · intro hx
    have hmem : x ∈ beyond key p lo l := hrest ▸ List.mem_append_left _ hx
    obtain ⟨hxl, hlo, hp⟩ := mem_beyond.mp hmem
    refine ⟨hxl, hlo, ?_, hp⟩
    rcases List.mem_append.mp hx with hx | hx
    · exact (hlast x hx a (List.mem_singleton_self a)).le
    · rw [List.mem_singleton.mp hx]
  · rintro ⟨hxl, hlo, hle, hp⟩
    have hmem : x ∈ (taken ++ [a]) ++ rest := hrest ▸ mem_beyond.mpr ⟨hxl, hlo, hp⟩
    rcases List.mem_append.mp hmem with hx | hx
    · exact hx
    · exact absurd (hcross a (by simp) x hx) (not_lt.mpr hle)

/-- A sublist whose members draw in everything before them is a prefix. -/
theorem filter_prefix_filter {l : List α} {p q : α → Bool}
    (hpq : ∀ a ∈ l, p a = true → q a = true)
    (hord : l.Pairwise fun a b => q a = true → p b = true → p a = true) :
    l.filter p <+: l.filter q := by
  induction l with
  | nil => exact List.prefix_refl _
  | cons a l ih =>
      rw [List.pairwise_cons] at hord
      have hl := ih (fun b hb => hpq b (List.mem_cons_of_mem a hb)) hord.2
      by_cases hp : p a = true
      · have hq := hpq a List.mem_cons_self hp
        rw [List.filter_cons_of_pos hp, List.filter_cons_of_pos hq]
        exact (List.prefix_cons_inj a).mpr hl
      · rw [List.filter_cons_of_neg hp]
        by_cases hq : q a = true
        · have hnil : l.filter p = [] := by
            rw [List.filter_eq_nil_iff]
            intro b hb hpb
            exact hp (hord.1 b hb hq hpb)
          rw [hnil]
          exact List.nil_prefix
        · rw [List.filter_cons_of_neg hq]
          exact hl

end Kronos.Lib.Window
