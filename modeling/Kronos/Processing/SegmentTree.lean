import Kronos.Processing.SegmentPartition

/-!
# Every set of segments a processor can have

A processor starts with a power of two of segments of one size. Splitting one of
them replaces it by its halves, merging two halves replaces them by the segment
they came from. However unbalanced the tree grows that way, its leaves share the
hashes out and their ids say which segments they are.
-/
namespace Kronos.Processing

/-- The segments of one level: those a processor with `2 ^ level` segments starts with. -/
def segmentsAt (level : ℕ) : List Segment :=
  (List.range (2 ^ level)).map fun id => ⟨id, 2 ^ level - 1⟩

/-- The segments a processor comes to have by splits, of masks `segmentsOf` goes
below, and merges. -/
inductive Grown : List Segment → Prop where
  | start {level : ℕ} (hlevel : level ≤ 31) : Grown (segmentsAt level)
  | split {segs : List Segment} {seg : Segment} (h : Grown segs) (hseg : seg ∈ segs)
      (hmask : seg.mask < 2 ^ 30) :
      Grown (segs.erase seg ++ [(splitSegment seg).1, (splitSegment seg).2])
  | merge {segs : List Segment} {parent : Segment} (h : Grown segs)
      (hfirst : (splitSegment parent).1 ∈ segs) (hsecond : (splitSegment parent).2 ∈ segs) :
      Grown ((segs.erase (splitSegment parent).1).erase (splitSegment parent).2 ++ [parent])

theorem splitSegment_ne (seg : Segment) : (splitSegment seg).1 ≠ (splitSegment seg).2 := by
  intro heq
  have hid := congrArg Segment.id heq
  simp only [splitSegment] at hid
  omega

/-- A half has a larger mask than the segment it came from. -/
theorem ne_splitSegment (seg : Segment) :
    (splitSegment seg).1 ≠ seg ∧ (splitSegment seg).2 ≠ seg := by
  constructor
  · intro heq
    have hmask := congrArg Segment.mask heq
    simp only [splitSegment] at hmask
    omega
  · intro heq
    have hmask := congrArg Segment.mask heq
    simp only [splitSegment] at hmask
    omega

/-- What has two valid halves is valid itself. -/
theorem valid_of_halves {parent : Segment} (h : (splitSegment parent).2.Valid) :
    parent.Valid ∧ parent.mask < 2 ^ 30 := by
  obtain ⟨level, hl, hm, hid⟩ := h
  have hle := pow_level_le hl
  simp only [splitSegment] at hm hid
  cases level with
  | zero => omega
  | succ up =>
      rw [pow_succ] at hm hle
      refine ⟨⟨up, by omega, by omega, by omega⟩, ?_⟩
      omega

/-- Two halves that lie in one partition, or a segment and its half, share a hash. -/
theorem Partition.no_half {segs : List Segment} (h : Partition segs) {seg : Segment}
    (hseg : seg ∈ segs) :
    (splitSegment seg).1 ∉ segs ∧ (splitSegment seg).2 ∉ segs := by
  obtain ⟨level, -, -, hid⟩ := h.valid seg hseg
  constructor
  · intro hmem
    have hhas := (h.valid _ hmem).has_id
    have hparent := (splitSegment_has hid _).mpr (.inl hhas)
    exact (ne_splitSegment seg).1 (h.unique _ _ hmem _ hseg hhas hparent)
  · intro hmem
    have hhas := (h.valid _ hmem).has_id
    have hparent := (splitSegment_has hid _).mpr (.inr hhas)
    exact (ne_splitSegment seg).2 (h.unique _ _ hmem _ hseg hhas hparent)

theorem Grown.partition {segs : List Segment} (h : Grown segs) : Partition segs ∧ segs.Nodup := by
  induction h with
  | start hlevel =>
      refine ⟨partition_level hlevel, List.nodup_range.map ?_⟩
      intro a b heq
      exact congrArg Segment.id heq
  | @split segs seg _ hseg hmask ih =>
      obtain ⟨hpart, hnodup⟩ := ih
      obtain ⟨hfirst, hsecond⟩ := hpart.no_half hseg
      constructor
      · apply hpart.split hseg hmask
        intro s
        rw [List.mem_append, List.mem_pair, hnodup.mem_erase_iff]
        tauto
      · apply (hnodup.erase seg).append
        · simp [splitSegment_ne seg]
        · intro s hs hhalf
          rcases List.mem_pair.mp hhalf with rfl | rfl
          · exact hfirst (List.mem_of_mem_erase hs)
          · exact hsecond (List.mem_of_mem_erase hs)
  | @merge segs parent _ hfirst hsecond ih =>
      obtain ⟨hpart, hnodup⟩ := ih
      obtain ⟨hparent, -⟩ := valid_of_halves (hpart.valid _ hsecond)
      constructor
      · apply hpart.merge hparent (.inl ⟨rfl, rfl⟩) hfirst hsecond
        intro s
        rw [List.mem_append, List.mem_singleton, (hnodup.erase _).mem_erase_iff,
          hnodup.mem_erase_iff]
        tauto
      · apply ((hnodup.erase _).erase _).append (List.nodup_singleton _)
        intro s hs hsame
        rw [List.mem_singleton.mp hsame] at hs
        exact (hpart.no_half (List.mem_of_mem_erase (List.mem_of_mem_erase hs))).1 hfirst

/-! ## The list `segmentsOf` returns -/

/-- The walks of the two halves have nothing in common. -/
theorem Partition.nodup_walk {segs : List Segment} (h : Partition segs) {ids : List ℕ}
    (hids : ∀ i, i ∈ ids ↔ ∃ s ∈ segs, s.id = i) (depth : ℕ) {level : ℕ} {seg : Segment}
    (hlevel : level + depth = 31) (hm : seg.mask + 1 = 2 ^ level) (hid : seg.id ≤ seg.mask)
    (henc : Enclosed segs seg) : (walk ids depth seg).Nodup := by
  induction depth generalizing level seg with
  | zero => exact List.nodup_singleton seg
  | succ depth ih =>
      unfold walk
      split
      case isTrue hcond =>
        simp only [Bool.and_eq_true, decide_eq_true_eq, List.contains_iff_mem] at hcond
        obtain ⟨t, ht, htid⟩ := (hids _).mp hcond.2
        obtain ⟨-, henc₁, henc₂, -⟩ := h.enclosed_split ⟨level, by omega, hm, hid⟩ henc ht htid
        have hnext : seg.mask * 2 + 1 + 1 = 2 ^ (level + 1) := by
          rw [pow_succ]
          omega
        have hdepth : level + 1 + depth = 31 := by omega
        have hid₁ : seg.id ≤ seg.mask * 2 + 1 := by omega
        have hid₂ : seg.id + seg.mask + 1 ≤ seg.mask * 2 + 1 := by omega
        apply (ih hdepth hnext hid₁ henc₁).append (ih hdepth hnext hid₂ henc₂)
        intro s hs₁ hs₂
        obtain ⟨-, -, hhas₁⟩ := (h.mem_walk hids depth hdepth hnext hid₁ henc₁ s).mp hs₁
        obtain ⟨-, -, hhas₂⟩ := (h.mem_walk hids depth hdepth hnext hid₂ henc₂ s).mp hs₂
        exact splitSegment_disjoint hhas₁ hhas₂
      case isFalse => exact List.nodup_singleton seg

/-- From the ids of a partition, in any order, `segmentsOf` returns its segments
in the order of their ids. -/
theorem Partition.segmentsOf_perm {segs : List Segment} (h : Partition segs) (hnodup : segs.Nodup)
    {ids : List ℕ} (hperm : ids.Perm (segs.map Segment.id)) :
    (segmentsOf ids).Perm segs ∧ (segmentsOf ids).Pairwise fun a b => a.id < b.id := by
  have hids : ∀ i, i ∈ ids ↔ ∃ s ∈ segs, s.id = i := by
    intro i
    rw [hperm.mem_iff, List.mem_map]
  have hmem := h.mem_segmentsOf hids
  obtain ⟨t, ht, -⟩ := h.covers 0
  have hne : ids ≠ [] := List.ne_nil_of_mem ((hids t.id).mpr ⟨t, ht, rfl⟩)
  have hwalk : segmentsOf ids = (walk ids 31 whole).insertionSort fun a b => a.id ≤ b.id := by
    rw [segmentsOf, if_neg (by simpa using hne)]
  have hfound : (segmentsOf ids).Nodup := by
    rw [hwalk, (List.perm_insertionSort _ _).nodup_iff]
    exact h.nodup_walk hids 31 rfl rfl le_rfl fun r _ _ => Nat.zero_le _
  refine ⟨(List.perm_ext_iff_of_nodup hfound hnodup).mpr hmem, ?_⟩
  have hsorted : (segmentsOf ids).Pairwise fun a b => a.id ≤ b.id := by
    rw [hwalk]
    exact List.pairwise_insertionSort _ _
  apply (hsorted.and hfound).imp_of_mem
  rintro a b ha hb ⟨hle, hdiff⟩
  apply Nat.lt_of_le_of_ne hle
  intro heq
  exact hdiff (h.eq_of_id ((hmem a).mp ha) ((hmem b).mp hb) heq)

/-! ## The other half -/

/-- `mergeableSegmentId` leads from each half of a segment to the other and back. -/
theorem mergeableSegmentId_halves {s : Segment} (hs : s.Valid) (hmask : s.mask ≠ 0) :
    ∃ parent other : Segment, parent.mask < 2 ^ 30 ∧
      (s = (splitSegment parent).1 ∧ other = (splitSegment parent).2 ∨
        s = (splitSegment parent).2 ∧ other = (splitSegment parent).1) ∧
      mergeableSegmentId s = (other.id : ℤ) ∧ mergeableSegmentId other = (s.id : ℤ) := by
  obtain ⟨heq, hle⟩ := mergeableSegmentId_eq hs
  generalize hv : s.id ^^^ (s.mask ^^^ s.mask / 2) = v at heq hle
  have hother : (⟨v, s.mask⟩ : Segment).Valid := by
    obtain ⟨level, hl, hm, -⟩ := hs
    exact ⟨level, hl, hm, hle⟩
  obtain ⟨hne, hmod⟩ := mergeableSegmentId_spec (p := ⟨v, s.mask⟩) hs hmask heq.symm
  obtain ⟨-, hparent, -, hhalves⟩ := merged_halves hs hother hmask rfl hne hmod
  refine ⟨_, ⟨v, s.mask⟩, hparent, hhalves, heq, ?_⟩
  obtain ⟨hback, hwle⟩ := mergeableSegmentId_eq hother
  generalize (⟨v, s.mask⟩ : Segment).id ^^^ _ = w at hback hwle
  obtain ⟨hwne, hwmod⟩ := mergeableSegmentId_spec (p := ⟨w, s.mask⟩) hother hmask hback.symm
  obtain ⟨-, -, -, hhalves'⟩ :=
    merged_halves hother (b := ⟨w, s.mask⟩) (by
      obtain ⟨level, hl, hm, -⟩ := hs
      exact ⟨level, hl, hm, hwle⟩) hmask rfl hwne hwmod
  -- of the two ids that differ by half the size, `v` is one, so `w` is the segment's own again
  have hw : w = s.id := by
    obtain ⟨level, -, -, hid⟩ := hs
    obtain ⟨id, mask⟩ := s
    simp only [splitSegment, Segment.mk.injEq] at hhalves hhalves' hid hle hwle hne hwne ⊢
    omega
  rw [hback, hw]

/-- The ids are enough, every hash has its one segment, halves share their
parent's hashes out, and `mergeableSegmentId` names the other half. -/
theorem Grown.determined {segs : List Segment} (h : Grown segs) :
    (∀ ids : List ℕ, ids.Perm (segs.map Segment.id) →
      (segmentsOf ids).Perm segs ∧ (segmentsOf ids).Pairwise fun a b => a.id < b.id) ∧
    (∀ hash < 2 ^ 32, ∃! s, s ∈ segs ∧ inSegment s hash = true) ∧
    (∀ s ∈ segs, s.mask < 2 ^ 30 → ∀ hash < 2 ^ 32,
      (inSegment s hash = true ↔
        Xor (inSegment (splitSegment s).1 hash = true)
          (inSegment (splitSegment s).2 hash = true))) ∧
    (∀ s ∈ segs, s.mask ≠ 0 → ∃ parent other : Segment, parent.mask < 2 ^ 30 ∧
      (s = (splitSegment parent).1 ∧ other = (splitSegment parent).2 ∨
        s = (splitSegment parent).2 ∧ other = (splitSegment parent).1) ∧
      mergeableSegmentId s = (other.id : ℤ) ∧ mergeableSegmentId other = (s.id : ℤ)) := by
  obtain ⟨hpart, hnodup⟩ := h.partition
  refine ⟨fun ids hperm => hpart.segmentsOf_perm hnodup hperm, ?_, ?_, ?_⟩
  · intro hash hlt
    obtain ⟨s, hs, hhas⟩ := hpart.covers hash
    refine ⟨s, ⟨hs, (inSegment_iff (hpart.valid s hs) hlt).mpr hhas⟩, ?_⟩
    rintro t ⟨ht, hin⟩
    exact hpart.unique hash t ht s hs ((inSegment_iff (hpart.valid t ht) hlt).mp hin) hhas
  · intro s hs hmask hash hlt
    obtain ⟨hv₁, hv₂⟩ := splitSegment_valid (hpart.valid s hs) hmask
    obtain ⟨level, -, -, hid⟩ := hpart.valid s hs
    rw [inSegment_iff (hpart.valid s hs) hlt, inSegment_iff hv₁ hlt, inSegment_iff hv₂ hlt,
      splitSegment_has hid, xor_iff_or_and_not_and]
    constructor
    · intro hor
      exact ⟨hor, fun hand => splitSegment_disjoint hand.1 hand.2⟩
    · exact fun hand => hand.1
  · intro s hs hmask
    exact mergeableSegmentId_halves (hpart.valid s hs) hmask

/-- Four segments, the second of them split again. -/
theorem determined_unbalanced :
    (segmentsOf [5, 2, 0, 1, 3]).Perm [⟨0, 3⟩, ⟨2, 3⟩, ⟨3, 3⟩, ⟨1, 7⟩, ⟨5, 7⟩] := by
  have hstart : Grown (segmentsAt 2) := .start (by decide)
  have hgrown := hstart.split (show ⟨1, 3⟩ ∈ segmentsAt 2 by decide) (by decide)
  exact (Grown.determined hgrown).1 [5, 2, 0, 1, 3] (by decide) |>.1

end Kronos.Processing
