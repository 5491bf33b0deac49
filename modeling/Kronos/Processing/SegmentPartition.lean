import Kronos.Processing.Segment

/-!
# The segments of a processor partition the hashes

A list of segments is a partition when every hash is in exactly one of them.
Splitting a segment and merging two halves keep it one, and from the ids of a
partition `segmentsOf` works out the segments themselves, so the masks need not
be stored.
-/
namespace Kronos.Processing

structure Partition (segs : List Segment) : Prop where
  valid : ∀ s ∈ segs, s.Valid
  covers : ∀ hash, ∃ s ∈ segs, s.has hash
  unique : ∀ hash, ∀ s ∈ segs, ∀ t ∈ segs, s.has hash → t.has hash → s = t

theorem Segment.Valid.has_id {s : Segment} (h : s.Valid) : s.has s.id := by
  obtain ⟨level, -, -, hid⟩ := h
  exact Nat.mod_eq_of_lt (Nat.lt_succ_of_le hid)

/-- The id names the segment. -/
theorem Partition.eq_of_id {segs : List Segment} (h : Partition segs) {s t : Segment}
    (hs : s ∈ segs) (ht : t ∈ segs) (hid : s.id = t.id) : s = t := by
  apply h.unique s.id s hs t ht (h.valid s hs).has_id
  rw [hid]
  exact (h.valid t ht).has_id

theorem Partition.congr {segs segs' : List Segment} (h : Partition segs)
    (hmem : ∀ s, s ∈ segs' ↔ s ∈ segs) : Partition segs' := by
  refine ⟨fun s hs => h.valid s ((hmem s).mp hs), ?_, ?_⟩
  · intro hash
    obtain ⟨s, hs, hhas⟩ := h.covers hash
    exact ⟨s, (hmem s).mpr hs, hhas⟩
  · intro hash s hs t ht
    exact h.unique hash s ((hmem s).mp hs) t ((hmem t).mp ht)

/-- A segment is replaced by segments that share its hashes out. -/
theorem Partition.replace {segs segs' : List Segment} (h : Partition segs)
    {gone come : List Segment} (hgone : ∀ s ∈ gone, s ∈ segs) (hvalid : ∀ s ∈ come, s.Valid)
    (hmem : ∀ s, s ∈ segs' ↔ s ∈ come ∨ s ∈ segs ∧ s ∉ gone)
    (hsame : ∀ hash, (∃ s ∈ gone, s.has hash) ↔ ∃ s ∈ come, s.has hash)
    (huniq : ∀ hash, ∀ s ∈ come, ∀ t ∈ come, s.has hash → t.has hash → s = t) :
    Partition segs' := by
  refine ⟨?_, ?_, ?_⟩
  · intro s hs
    rcases (hmem s).mp hs with hs | ⟨hs, -⟩
    · exact hvalid s hs
    · exact h.valid s hs
  · intro hash
    obtain ⟨s, hs, hhas⟩ := h.covers hash
    by_cases hg : s ∈ gone
    · obtain ⟨t, ht, hthas⟩ := (hsame hash).mp ⟨s, hg, hhas⟩
      exact ⟨t, (hmem t).mpr (Or.inl ht), hthas⟩
    · exact ⟨s, (hmem s).mpr (Or.inr ⟨hs, hg⟩), hhas⟩
  · intro hash s hs t ht hshas hthas
    -- a segment that stayed shares no hash with one that came
    have hcross : ∀ a ∈ come, ∀ b ∈ segs, b ∉ gone → a.has hash → b.has hash → False := by
      intro a ha b hb hbg hahas hbhas
      obtain ⟨g, hg, hghas⟩ := (hsame hash).mpr ⟨a, ha, hahas⟩
      have heq := h.unique hash g (hgone g hg) b hb hghas hbhas
      exact hbg (heq ▸ hg)
    rcases (hmem s).mp hs with hs | ⟨hs, hsg⟩
    · rcases (hmem t).mp ht with ht | ⟨ht, htg⟩
      · exact huniq hash s hs t ht hshas hthas
      · exact (hcross s hs t ht htg hshas hthas).elim
    · rcases (hmem t).mp ht with ht | ⟨ht, htg⟩
      · exact (hcross t ht s hs hsg hthas hshas).elim
      · exact h.unique hash s hs t ht hshas hthas

/-- The halves take the place of the segment. -/
theorem Partition.split {segs segs' : List Segment} (h : Partition segs) {seg : Segment}
    (hseg : seg ∈ segs) (hmask : seg.mask < 2 ^ 30)
    (hmem : ∀ s, s ∈ segs' ↔ (s = (splitSegment seg).1 ∨ s = (splitSegment seg).2) ∨
      s ∈ segs ∧ s ≠ seg) : Partition segs' := by
  obtain ⟨hv₁, hv₂⟩ := splitSegment_valid (h.valid seg hseg) hmask
  obtain ⟨level, -, -, hid⟩ := h.valid seg hseg
  refine h.replace (fun x (hx : x ∈ [seg]) => ?_)
    (fun x (hx : x ∈ [(splitSegment seg).1, (splitSegment seg).2]) => ?_) ?_ ?_ ?_
  · rw [List.mem_singleton.mp hx]
    exact hseg
  · rcases List.mem_pair.mp hx with rfl | rfl
    · exact hv₁
    · exact hv₂
  · intro x
    rw [List.mem_pair, List.mem_singleton]
    exact hmem x
  · intro hash
    simp only [List.mem_singleton, exists_eq_left, List.mem_pair, or_and_right, exists_or]
    exact splitSegment_has hid hash
  · intro hash x hx y hy hxh hyh
    rcases List.mem_pair.mp hx with rfl | rfl <;> rcases List.mem_pair.mp hy with rfl | rfl
    · rfl
    · exact (splitSegment_disjoint hxh hyh).elim
    · exact (splitSegment_disjoint hyh hxh).elim
    · rfl

/-- A segment takes the place of its halves. -/
theorem Partition.merge {segs segs' : List Segment} (h : Partition segs) {parent a b : Segment}
    (hparent : parent.Valid)
    (hids : a = (splitSegment parent).1 ∧ b = (splitSegment parent).2 ∨
      a = (splitSegment parent).2 ∧ b = (splitSegment parent).1) (ha : a ∈ segs) (hb : b ∈ segs)
    (hmem : ∀ s, s ∈ segs' ↔ s = parent ∨ s ∈ segs ∧ ¬ (s = a ∨ s = b)) : Partition segs' := by
  obtain ⟨level, -, -, hid⟩ := id hparent
  refine h.replace (fun x (hx : x ∈ [a, b]) => ?_) (fun x (hx : x ∈ [parent]) => ?_) ?_ ?_ ?_
  · rcases List.mem_pair.mp hx with rfl | rfl
    · exact ha
    · exact hb
  · rw [List.mem_singleton.mp hx]
    exact hparent
  · intro x
    rw [List.mem_pair, List.mem_singleton]
    exact hmem x
  · intro hash
    simp only [List.mem_singleton, exists_eq_left, List.mem_pair, or_and_right, exists_or]
    rw [splitSegment_has hid hash]
    rcases hids with ⟨rfl, rfl⟩ | ⟨rfl, rfl⟩
    · exact Iff.rfl
    · exact or_comm
  · intro hash x hx y hy _ _
    rw [List.mem_singleton.mp hx, List.mem_singleton.mp hy]

/-- The second half's id belongs to the segment that is split, so no segment has it. -/
theorem Partition.second_ne {segs : List Segment} (h : Partition segs) {seg : Segment}
    (hseg : seg ∈ segs) (hmask : seg.mask < 2 ^ 30) {s : Segment} (hs : s ∈ segs) :
    s.id ≠ (splitSegment seg).2.id := by
  intro heq
  obtain ⟨-, hv₂⟩ := splitSegment_valid (h.valid seg hseg) hmask
  obtain ⟨level, -, -, hid⟩ := h.valid seg hseg
  have hhas : seg.has s.id := by
    rw [heq]
    exact (splitSegment_has hid _).mpr (Or.inr hv₂.has_id)
  have hsame := h.unique s.id s hs seg hseg (h.valid s hs).has_id hhas
  rw [hsame] at heq
  simp only [splitSegment] at heq
  omega

/-- The `2 ^ level` segments of one level. -/
theorem partition_level {level : ℕ} (hl : level ≤ 31) :
    Partition ((List.range (2 ^ level)).map fun id => ⟨id, 2 ^ level - 1⟩) := by
  have hpos : 0 < 2 ^ level := Nat.two_pow_pos level
  have hone : 2 ^ level - 1 + 1 = 2 ^ level := by omega
  refine ⟨?_, ?_, ?_⟩
  · intro s hs
    obtain ⟨id, hid, rfl⟩ := List.mem_map.mp hs
    exact ⟨level, hl, hone, Nat.le_pred_of_lt (List.mem_range.mp hid)⟩
  · intro hash
    refine ⟨⟨hash % 2 ^ level, 2 ^ level - 1⟩, ?_, ?_⟩
    · exact List.mem_map.mpr ⟨_, List.mem_range.mpr (Nat.mod_lt _ hpos), rfl⟩
    · simp only [Segment.has, hone]
  · intro hash s hs t ht hshas hthas
    obtain ⟨i, -, rfl⟩ := List.mem_map.mp hs
    obtain ⟨j, -, rfl⟩ := List.mem_map.mp ht
    simp only [Segment.has] at hshas hthas
    rw [← hshas, ← hthas]

/-- Two segments of one size that agree on all but the highest bit are the halves
of a segment. -/
theorem merged_halves {a b : Segment} (ha : a.Valid) (hb : b.Valid) (hmask : a.mask ≠ 0)
    (hsize : b.mask = a.mask) (hne : b.id ≠ a.id)
    (hmod : b.id % ((a.mask + 1) / 2) = a.id % ((a.mask + 1) / 2)) :
    (⟨min a.id b.id, a.mask / 2⟩ : Segment).Valid ∧ a.mask / 2 < 2 ^ 30 ∧
      a.mask / 2 * 2 + 1 = a.mask ∧
      (a = (splitSegment ⟨min a.id b.id, a.mask / 2⟩).1 ∧
          b = (splitSegment ⟨min a.id b.id, a.mask / 2⟩).2 ∨
        a = (splitSegment ⟨min a.id b.id, a.mask / 2⟩).2 ∧
          b = (splitSegment ⟨min a.id b.id, a.mask / 2⟩).1) := by
  obtain ⟨level, hl, hm, hid⟩ := ha
  obtain ⟨-, -, -, hidb⟩ := hb
  have hle := pow_level_le hl
  obtain ⟨up, rfl⟩ : ∃ up, level = up + 1 := by
    cases level with
    | zero => omega
    | succ up => exact ⟨up, rfl⟩
  rw [pow_succ] at hm hle
  have hpos : 0 < 2 ^ up := Nat.two_pow_pos up
  have hhalf : (a.mask + 1) / 2 = 2 ^ up := by omega
  have hdiv : a.mask / 2 + 1 = 2 ^ up := by omega
  have hdouble : a.mask / 2 * 2 + 1 = a.mask := by omega
  rw [hhalf] at hmod
  -- ids below twice the size differ by exactly the size
  have hdiff : b.id = a.id + 2 ^ up ∨ a.id = b.id + 2 ^ up := by
    have hda := Nat.div_add_mod a.id (2 ^ up)
    have hdb := Nat.div_add_mod b.id (2 ^ up)
    have hqa : a.id / 2 ^ up < 2 := Nat.div_lt_of_lt_mul (by omega)
    have hqb : b.id / 2 ^ up < 2 := Nat.div_lt_of_lt_mul (by omega)
    rw [hmod] at hdb
    have hca := Nat.le_one_iff_eq_zero_or_eq_one.mp (Nat.lt_succ_iff.mp hqa)
    have hcb := Nat.le_one_iff_eq_zero_or_eq_one.mp (Nat.lt_succ_iff.mp hqb)
    rcases hca with hca | hca <;> rcases hcb with hcb | hcb <;> rw [hca] at hda <;>
      rw [hcb] at hdb <;> omega
  obtain ⟨aid, amask⟩ := a
  obtain ⟨bid, bmask⟩ := b
  simp only at hsize hdouble hdiv hdiff hne hid hidb hm ⊢
  subst hsize
  refine ⟨⟨up, by omega, hdiv, ?_⟩, ?_, hdouble, ?_⟩
  · simp only
    omega
  · have hpow : 2 ^ up ≤ 2 ^ 30 := Nat.pow_le_pow_right Nat.two_pos (by omega)
    omega
  · simp only [splitSegment, Segment.mk.injEq]
    omega

/-! ## Working the segments out from the ids -/

theorem level_le {s t : Segment} {a b : ℕ} (ha : s.mask + 1 = 2 ^ a) (hb : t.mask + 1 = 2 ^ b)
    (h : s.mask ≤ t.mask) : a ≤ b := by
  apply (Nat.pow_le_pow_iff_right (Nat.one_lt_two)).mp
  omega

/-- No segment of the partition is larger than `seg` and holds its hashes. -/
def Enclosed (segs : List Segment) (seg : Segment) : Prop :=
  ∀ r ∈ segs, r.has seg.id → seg.mask ≤ r.mask

/-- The part of a partition that lies within `seg`. -/
def Within (seg s : Segment) : Prop := seg.mask ≤ s.mask ∧ seg.has s.id

theorem Partition.mem_of_not_smaller {segs : List Segment} (h : Partition segs) {seg : Segment}
    (henc : Enclosed segs seg)
    (hstop : ∀ r ∈ segs, r.has seg.id → r.mask ≤ seg.mask) (hid : seg.id ≤ seg.mask) :
    seg ∈ segs ∧ ∀ s ∈ segs, Within seg s → s = seg := by
  obtain ⟨r, hr, hhas⟩ := h.covers seg.id
  have hmask : r.mask = seg.mask := le_antisymm (hstop r hr hhas) (henc r hr hhas)
  have hrid : r.id = seg.id := by
    simp only [Segment.has, hmask] at hhas
    rw [← hhas, Nat.mod_eq_of_lt (Nat.lt_succ_of_le hid)]
  have hreq : r = seg := by
    cases r
    cases seg
    simp only at hmask hrid
    rw [hmask, hrid]
  subst hreq
  refine ⟨hr, ?_⟩
  rintro s hs ⟨-, hwithin⟩
  exact (h.unique s.id r hr s hs hwithin (h.valid s hs).has_id).symm

/-- The mask of a deeper segment is at least the next one. -/
theorem next_mask_le {s t : Segment} (hs : s.Valid) (ht : t.Valid) (h : s.mask < t.mask) :
    s.mask * 2 + 1 ≤ t.mask := by
  obtain ⟨a, -, ha, -⟩ := hs
  obtain ⟨b, -, hb, -⟩ := ht
  have hab : a < b := by
    apply (Nat.pow_lt_pow_iff_right (Nat.one_lt_two)).mp
    omega
  have hpow : 2 ^ (a + 1) ≤ 2 ^ b := Nat.pow_le_pow_right Nat.two_pos hab
  rw [pow_succ] at hpow
  omega

theorem Partition.enclosed_split {segs : List Segment} (h : Partition segs) {seg t : Segment}
    (hseg : seg.Valid) (henc : Enclosed segs seg) (ht : t ∈ segs)
    (htid : t.id = (splitSegment seg).2.id) :
    seg.mask < t.mask ∧ Enclosed segs (splitSegment seg).1 ∧ Enclosed segs (splitSegment seg).2 ∧
      ∀ s ∈ segs, Within seg s → seg.mask < s.mask := by
  have htvalid := h.valid t ht
  have hdeeper : seg.mask < t.mask := by
    obtain ⟨b, -, -, hb⟩ := htvalid
    simp only [splitSegment] at htid
    omega
  -- a segment of the same size at the same id would hold the second half's id too
  have hsame : ∀ r ∈ segs, r.has seg.id → r.mask = seg.mask → False := by
    intro r hr hhas hmask
    have hrt : r.has t.id := by
      simp only [Segment.has, htid, splitSegment, hmask] at hhas ⊢
      rw [Nat.add_assoc, Nat.add_mod_right]
      exact hhas
    have heq := h.unique t.id r hr t ht hrt htvalid.has_id
    rw [heq] at hmask
    omega
  refine ⟨hdeeper, ?_, ?_, ?_⟩
  · intro r hr hhas
    have hle := henc r hr hhas
    apply next_mask_le hseg (h.valid r hr)
    rcases Nat.lt_or_eq_of_le hle with hlt | heq
    · exact hlt
    · exact (hsame r hr hhas heq.symm).elim
  · intro r hr hhas
    rw [← htid] at hhas
    have heq := h.unique t.id r hr t ht hhas htvalid.has_id
    rw [heq]
    exact next_mask_le hseg htvalid hdeeper
  · rintro s hs ⟨hle, hhas⟩
    rcases Nat.lt_or_eq_of_le hle with hlt | heq
    · exact hlt
    · obtain ⟨a, -, -, hid⟩ := h.valid s hs
      have hsid : s.id = seg.id := by
        simp only [Segment.has] at hhas
        rw [← hhas, Nat.mod_eq_of_lt (by omega)]
      exact (hsame s hs (hsid ▸ (h.valid s hs).has_id) heq.symm).elim

theorem Partition.stops {segs : List Segment} (h : Partition segs) {seg : Segment}
    (hseg : seg.Valid) (hnone : ∀ s ∈ segs, s.id ≠ (splitSegment seg).2.id) :
    ∀ r ∈ segs, r.has seg.id → r.mask ≤ seg.mask := by
  intro r hr hhas
  obtain ⟨q, hq, hqhas⟩ := h.covers (splitSegment seg).2.id
  have hqmask : q.mask ≤ seg.mask := by
    by_contra hgt
    have hnext := next_mask_le hseg (h.valid q hq) (Nat.lt_of_not_le hgt)
    obtain ⟨a, -, -, hid⟩ := hseg
    apply hnone q hq
    rw [← hqhas, Nat.mod_eq_of_lt]
    simp only [splitSegment]
    omega
  have hqid : q.has seg.id := by
    obtain ⟨a, -, ha, -⟩ := hseg
    obtain ⟨b, -, hb, -⟩ := h.valid q hq
    have hdvd : q.mask + 1 ∣ seg.mask + 1 := by
      rw [ha, hb]
      exact Nat.pow_dvd_pow 2 (level_le hb ha hqmask)
    simp only [Segment.has, splitSegment] at hqhas ⊢
    rw [← hqhas, Nat.add_assoc, Nat.add_mod seg.id, Nat.mod_eq_zero_of_dvd hdvd, Nat.add_zero]
    exact (Nat.mod_mod _ _).symm
  rw [h.unique seg.id r hr q hq hhas hqid]
  exact hqmask

/-- Where the walk stops, the segment itself is one of the partition. -/
theorem Partition.mem_stop {segs : List Segment} (h : Partition segs) {seg : Segment}
    (hvalid : seg.Valid) (henc : Enclosed segs seg)
    (hle : ∀ r ∈ segs, r.has seg.id → r.mask ≤ seg.mask) (s : Segment) :
    s ∈ [seg] ↔ s ∈ segs ∧ Within seg s := by
  obtain ⟨level, -, -, hid⟩ := id hvalid
  obtain ⟨hmem, honly⟩ := h.mem_of_not_smaller henc hle hid
  rw [List.mem_singleton]
  constructor
  · rintro rfl
    exact ⟨hmem, le_rfl, hvalid.has_id⟩
  · rintro ⟨hs, hwithin⟩
    exact honly s hs hwithin

/-- The walk finds the segments within the one it starts from. -/
theorem Partition.mem_walk {segs : List Segment} (h : Partition segs) {ids : List ℕ}
    (hids : ∀ i, i ∈ ids ↔ ∃ s ∈ segs, s.id = i) (depth : ℕ) {level : ℕ} {seg : Segment}
    (hlevel : level + depth = 31) (hm : seg.mask + 1 = 2 ^ level) (hid : seg.id ≤ seg.mask)
    (henc : Enclosed segs seg) (s : Segment) :
    s ∈ walk ids depth seg ↔ s ∈ segs ∧ Within seg s := by
  induction depth generalizing level seg with
  | zero =>
      apply h.mem_stop ⟨level, by omega, hm, hid⟩ henc
      intro r hr _
      obtain ⟨b, hb, hrm, -⟩ := h.valid r hr
      have hpow := pow_level_le hb
      rw [show level = 31 by omega] at hm
      omega
  | succ depth ih =>
      have hvalid : seg.Valid := ⟨level, by omega, hm, hid⟩
      have hmask : seg.mask < 2 ^ 30 := by
        have hpow : 2 ^ level ≤ 2 ^ 30 := Nat.pow_le_pow_right Nat.two_pos (by omega)
        omega
      unfold walk
      by_cases hin : (splitSegment seg).2.id ∈ ids
      · obtain ⟨t, ht, htid⟩ := (hids _).mp hin
        obtain ⟨-, henc₁, henc₂, hlt⟩ := h.enclosed_split hvalid henc ht htid
        have hnext : seg.mask * 2 + 1 + 1 = 2 ^ (level + 1) := by
          rw [pow_succ]
          omega
        have hfirst := ih (show level + 1 + depth = 31 by omega) hnext
          (show seg.id ≤ seg.mask * 2 + 1 by omega) henc₁
        have hsecond := ih (show level + 1 + depth = 31 by omega) hnext
          (show seg.id + seg.mask + 1 ≤ seg.mask * 2 + 1 by omega) henc₂
        rw [if_pos (by
          simp only [Bool.and_eq_true, decide_eq_true_eq, List.contains_iff_mem]
          exact ⟨hmask, hin⟩), List.mem_append, hfirst, hsecond]
        constructor
        · rintro (⟨hs, hle, hhas⟩ | ⟨hs, hle, hhas⟩)
          · exact ⟨hs, (show seg.mask ≤ seg.mask * 2 + 1 by omega).trans hle,
              (splitSegment_has hid _).mpr (Or.inl hhas)⟩
          · exact ⟨hs, (show seg.mask ≤ seg.mask * 2 + 1 by omega).trans hle,
              (splitSegment_has hid _).mpr (Or.inr hhas)⟩
        · rintro ⟨hs, hle, hhas⟩
          have hdeep := next_mask_le hvalid (h.valid s hs) (hlt s hs ⟨hle, hhas⟩)
          rcases (splitSegment_has hid _).mp hhas with hhas | hhas
          · exact Or.inl ⟨hs, hdeep, hhas⟩
          · exact Or.inr ⟨hs, hdeep, hhas⟩
      · rw [if_neg (by
          simp only [Bool.and_eq_true, decide_eq_true_eq, List.contains_iff_mem]
          exact fun hcon => hin hcon.2)]
        apply h.mem_stop hvalid henc
        apply h.stops hvalid
        intro r hr heq
        exact hin ((hids _).mpr ⟨r, hr, heq⟩)

/-- The ids of a partition are enough to work its segments out. -/
theorem Partition.mem_segmentsOf {segs : List Segment} (h : Partition segs) {ids : List ℕ}
    (hids : ∀ i, i ∈ ids ↔ ∃ s ∈ segs, s.id = i) (s : Segment) : s ∈ segmentsOf ids ↔ s ∈ segs := by
  have hne : ids ≠ [] := by
    obtain ⟨t, ht, -⟩ := h.covers 0
    exact List.ne_nil_of_mem ((hids t.id).mpr ⟨t, ht, rfl⟩)
  have henc : Enclosed segs whole := fun r _ _ => Nat.zero_le _
  unfold segmentsOf
  rw [if_neg (by simpa using hne), List.mem_insertionSort,
    h.mem_walk hids 31 (show 0 + 31 = 31 from rfl) rfl le_rfl henc]
  constructor
  · exact fun hs => hs.1
  · exact fun hs => ⟨hs, Nat.zero_le _, Nat.mod_one _⟩

/-! ## Ids that name a partition -/

/-- The ids of token rows that name the segments of a partition. -/
structure IdsCut (ids : List ℕ) : Prop where
  nodup : ids.Nodup
  partition : Partition (segmentsOf ids)
  mem_iff : ∀ i, i ∈ ids ↔ ∃ s ∈ segmentsOf ids, s.id = i

theorem Partition.idsCut {segs : List Segment} (h : Partition segs) {ids : List ℕ}
    (hnodup : ids.Nodup) (hids : ∀ i, i ∈ ids ↔ ∃ s ∈ segs, s.id = i) : IdsCut ids := by
  have hmem := h.mem_segmentsOf hids
  refine ⟨hnodup, h.congr hmem, ?_⟩
  intro i
  rw [hids i]
  simp only [hmem]

theorem idsCut_level {level : ℕ} (hl : level ≤ 31) : IdsCut (List.range (2 ^ level)) :=
  (partition_level hl).idsCut List.nodup_range (by simp)

theorem IdsCut.id_mem {ids : List ℕ} (h : IdsCut ids) {s : Segment} (hs : s ∈ segmentsOf ids) :
    s.id ∈ ids :=
  (h.mem_iff s.id).mpr ⟨s, hs, rfl⟩

/-- A row for the second half splits the segment. -/
theorem IdsCut.split {ids : List ℕ} (h : IdsCut ids) {seg : Segment} (hseg : seg ∈ segmentsOf ids)
    (hmask : seg.mask < 2 ^ 30) :
    (splitSegment seg).2.id ∉ ids ∧ IdsCut (ids ++ [(splitSegment seg).2.id]) ∧
      ∀ s, s ∈ segmentsOf (ids ++ [(splitSegment seg).2.id]) ↔
        (s = (splitSegment seg).1 ∨ s = (splitSegment seg).2) ∨ s ∈ segmentsOf ids ∧ s ≠ seg := by
  have hnew : (splitSegment seg).2.id ∉ ids := by
    intro hin
    obtain ⟨s, hs, heq⟩ := (h.mem_iff _).mp hin
    exact h.partition.second_ne hseg hmask hs heq
  have hmem : ∀ s, s ∈ (splitSegment seg).1 :: (splitSegment seg).2 ::
      (segmentsOf ids).filter (· ≠ seg) ↔
        (s = (splitSegment seg).1 ∨ s = (splitSegment seg).2) ∨ s ∈ segmentsOf ids ∧ s ≠ seg := by
    intro s
    simp [or_assoc]
  have hpart := h.partition.split hseg hmask hmem
  have hids : ∀ i, i ∈ ids ++ [(splitSegment seg).2.id] ↔
      ∃ s ∈ (splitSegment seg).1 :: (splitSegment seg).2 :: (segmentsOf ids).filter (· ≠ seg),
        s.id = i := by
    intro i
    simp only [List.mem_append, List.mem_singleton, hmem, h.mem_iff i]
    constructor
    · rintro (⟨s, hs, rfl⟩ | rfl)
      · by_cases hsame : s = seg
        · exact ⟨_, Or.inl (Or.inl rfl), by rw [hsame]; rfl⟩
        · exact ⟨s, Or.inr ⟨hs, hsame⟩, rfl⟩
      · exact ⟨_, Or.inl (Or.inr rfl), rfl⟩
    · rintro ⟨s, (rfl | rfl) | ⟨hs, -⟩, rfl⟩
      · exact Or.inl ⟨seg, hseg, rfl⟩
      · exact Or.inr rfl
      · exact Or.inl ⟨s, hs, rfl⟩
  refine ⟨hnew, hpart.idsCut ?_ hids, ?_⟩
  · exact h.nodup.append (List.nodup_singleton _) (by simpa using hnew)
  · intro s
    rw [hpart.mem_segmentsOf hids, hmem]

/-- Without the row of one half its id, the other half's id names the parent. -/
theorem IdsCut.merge {ids : List ℕ} (h : IdsCut ids) {parent a b : Segment} (hparent : parent.Valid)
    (hids : a = (splitSegment parent).1 ∧ b = (splitSegment parent).2 ∨
      a = (splitSegment parent).2 ∧ b = (splitSegment parent).1)
    (ha : a ∈ segmentsOf ids) (hb : b ∈ segmentsOf ids) :
    IdsCut (ids.filter (· ≠ (splitSegment parent).2.id)) ∧
      ∀ s, s ∈ segmentsOf (ids.filter (· ≠ (splitSegment parent).2.id)) ↔
        s = parent ∨ s ∈ segmentsOf ids ∧ ¬ (s = a ∨ s = b) := by
  have hfirst : (splitSegment parent).1 ∈ segmentsOf ids := by
    rcases hids with ⟨rfl, -⟩ | ⟨-, rfl⟩
    · exact ha
    · exact hb
  have hsecond : (splitSegment parent).2 ∈ segmentsOf ids := by
    rcases hids with ⟨-, rfl⟩ | ⟨rfl, -⟩
    · exact hb
    · exact ha
  have hsame : ∀ s, (s = a ∨ s = b) ↔
      (s = (splitSegment parent).1 ∨ s = (splitSegment parent).2) := by
    intro s
    rcases hids with ⟨rfl, rfl⟩ | ⟨rfl, rfl⟩
    · exact Iff.rfl
    · exact or_comm
  have hmem : ∀ s, s ∈ parent :: (segmentsOf ids).filter (fun s => ¬ (s = a ∨ s = b)) ↔
      s = parent ∨ s ∈ segmentsOf ids ∧ ¬ (s = a ∨ s = b) := by
    intro s
    simp
  have hpart := h.partition.merge hparent hids ha hb hmem
  have hcut : ∀ i, i ∈ ids.filter (· ≠ (splitSegment parent).2.id) ↔
      ∃ s ∈ parent :: (segmentsOf ids).filter (fun s => ¬ (s = a ∨ s = b)), s.id = i := by
    intro i
    simp only [List.mem_filter, decide_eq_true_eq, hmem, h.mem_iff i]
    simp only [hsame]
    constructor
    · rintro ⟨⟨s, hs, rfl⟩, hne⟩
      by_cases hone : s = (splitSegment parent).1
      · exact ⟨parent, Or.inl rfl, by rw [hone]; rfl⟩
      · refine ⟨s, Or.inr ⟨hs, ?_⟩, rfl⟩
        rintro (heq | heq)
        · exact hone heq
        · exact hne (by rw [heq])
    · rintro ⟨s, rfl | ⟨hs, hne⟩, rfl⟩
      · refine ⟨⟨_, hfirst, rfl⟩, ?_⟩
        simp only [splitSegment]
        omega
      · refine ⟨⟨s, hs, rfl⟩, ?_⟩
        intro heq
        exact hne (Or.inr (h.partition.eq_of_id hs hsecond heq))
  refine ⟨hpart.idsCut (h.nodup.filter _) hcut, ?_⟩
  intro s
  rw [hpart.mem_segmentsOf hcut, hmem]

end Kronos.Processing
