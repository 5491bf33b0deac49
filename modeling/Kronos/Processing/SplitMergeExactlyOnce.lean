import Kronos.Processing.SplitMerge
import Mathlib.Algebra.Order.Ring.Nat

/-!
# Splitting and merging handle every event exactly once

The tokens of a run without resets are bare positions, or the two halves of a
merge that are bare positions. Advancing such a token to `m` raises the position
of every hash of its segment to at least `m`, whichever half the hash is in, and
a batch delivers of each hash just what its position is raised over.
-/
namespace Kronos.Processing.SplitMerge
open Kronos.Lib.Transition Kronos.Lib.Window SharedStream TrackingToken

variable {K E I : Type}

/-! ## Tokens -/

/-- The tokens a segment can have. -/
inductive TokenOk (segment : Segment) : TrackingToken K → Prop
  | plain (n : ℕ) : TokenOk segment (globalSequence n)
  | halves (a b na nb : ℕ) (hmask : segment.mask < 2 ^ 30)
      (hids : a = (splitSegment segment).1.id ∧ b = (splitSegment segment).2.id ∨
        a = (splitSegment segment).2.id ∧ b = (splitSegment segment).1.id) :
      TokenOk segment (merged (segment.mask * 2 + 1) a (globalSequence na) b (globalSequence nb))

/-- A hash of a segment is in one of its halves. -/
theorem half_of_hash {segment : Segment} (hs : segment.Valid) (hmask : segment.mask < 2 ^ 30)
    {hash : ℕ} (hh : hash < 2 ^ 32) (hhas : segment.has hash) :
    jsAnd hash (segment.mask * 2 + 1) = ((splitSegment segment).1.id : ℤ) ∨
      jsAnd hash (segment.mask * 2 + 1) = ((splitSegment segment).2.id : ℤ) := by
  obtain ⟨hv₁, hv₂⟩ := splitSegment_valid hs hmask
  obtain ⟨level, -, -, hid⟩ := hs
  rcases (splitSegment_has hid hash).mp hhas with hhalf | hhalf
  · exact Or.inl ((jsAnd_eq_iff_has hv₁ hh).mpr hhalf)
  · exact Or.inr ((jsAnd_eq_iff_has hv₂ hh).mpr hhalf)

/-- The position of a hash in a merged token is its half's. -/
theorem reachOf_merged {mask a b : ℕ} (ta tb : TrackingToken K) (hash : ℕ)
    (h : jsAnd hash mask = (a : ℤ) ∨ jsAnd hash mask = (b : ℤ)) :
    reachOf (merged mask a ta b tb) hash =
      if jsAnd hash mask = (a : ℤ) then ta.position else tb.position := by
  by_cases ha : jsAnd hash mask = (a : ℤ)
  · simp only [reachOf, if_pos ha]
  · have hb : jsAnd hash mask = (b : ℤ) := h.resolve_left ha
    simp only [reachOf, if_neg ha, if_pos hb]

theorem TokenOk.reads_behind {segment : Segment} {token : TrackingToken K}
    (h : TokenOk segment token) (hs : segment.Valid) {hash : ℕ} (hh : hash < 2 ^ 32)
    (hhas : segment.has hash) : token.position ≤ reachOf token hash := by
  cases h with
  | plain n => exact le_rfl
  | halves a b na nb hmask hids =>
      have hhalf : jsAnd hash (segment.mask * 2 + 1) = (a : ℤ) ∨
          jsAnd hash (segment.mask * 2 + 1) = (b : ℤ) := by
        rcases hids with ⟨rfl, rfl⟩ | ⟨rfl, rfl⟩
        · exact half_of_hash hs hmask hh hhas
        · exact (half_of_hash hs hmask hh hhas).symm
      rw [reachOf_merged _ _ _ hhalf, position_merged]
      split_ifs
      · exact min_le_left _ _
      · exact min_le_right _ _

theorem advance_half (n m : ℕ) :
    (if (globalSequence n : TrackingToken K).covers (globalSequence m) then globalSequence n
      else globalSequence m : TrackingToken K) = globalSequence (max n m) := by
  by_cases hle : m ≤ n
  · simp [hle]
  · simp [hle, max_eq_right (Nat.le_of_not_le hle)]

/-- Two halves moved to `m`, or left where they were past it. -/
theorem reachOf_advanced {mask a b na nb m : ℕ} {hash : ℕ}
    (h : jsAnd hash mask = (a : ℤ) ∨ jsAnd hash mask = (b : ℤ)) :
    reachOf (advanceTokenTo
        (merged mask a (globalSequence na) b (globalSequence nb) : TrackingToken K)
        (globalSequence m)) hash =
      max (reachOf (merged mask a (globalSequence na) b (globalSequence nb) : TrackingToken K) hash)
        m := by
  rw [reachOf_merged _ _ _ h]
  simp only [advanceTokenTo, advance_half, mergedToken]
  split_ifs with hsame ha ha
  · rfl
  · exact samePositionAs_iff.mp hsame
  · rw [reachOf_merged _ _ _ h, if_pos ha]
    rfl
  · rw [reachOf_merged _ _ _ h, if_neg ha]
    rfl

/-- Advancing to `m` raises the position of every hash of the segment to at least `m`. -/
theorem TokenOk.advance {segment : Segment} {token : TrackingToken K} (h : TokenOk segment token)
    {m : ℕ} (hm : token.position < m) :
    TokenOk segment (advanceTokenTo token (globalSequence m)) ∧
      (advanceTokenTo token (globalSequence m)).position = m ∧
      (segment.Valid → ∀ hash < 2 ^ 32, segment.has hash →
        reachOf (advanceTokenTo token (globalSequence m)) hash = max (reachOf token hash) m) := by
  cases h with
  | plain n =>
      refine ⟨.plain m, rfl, ?_⟩
      intro _ hash _ _
      exact (max_eq_right (le_of_lt hm)).symm
  | halves a b na nb hmask hids =>
      rw [position_merged] at hm
      simp only [position_globalSequence] at hm
      refine ⟨?_, ?_, ?_⟩
      · simp only [advanceTokenTo, advance_half, mergedToken]
        split_ifs
        · exact .plain _
        · exact .halves _ _ _ _ hmask hids
      · simp only [advanceTokenTo, advance_half, mergedToken_position, position_globalSequence]
        omega
      · intro hs hash hh hhas
        apply reachOf_advanced
        rcases hids with ⟨rfl, rfl⟩ | ⟨rfl, rfl⟩
        · exact half_of_hash hs hmask hh hhas
        · exact (half_of_hash hs hmask hh hhas).symm

/-- An event is fresh when its hash has not got past it. -/
theorem TokenOk.isFresh_iff {segment : Segment} {token : TrackingToken K}
    (h : TokenOk segment token) (hs : segment.Valid) {hashOf : E → ℕ} {e : SequencedEvent K E}
    (hh : hashOf e.event < 2 ^ 32) (hhas : segment.has (hashOf e.event))
    (htok : e.token = none) (hpos : token.position < pastPosition e) :
    SegmentWorker.isFresh hashOf token e = true ↔
      reachOf token (hashOf e.event) < pastPosition e := by
  have hpast : e.past = globalSequence (pastPosition e) := by
    simp only [SequencedEvent.past, htok, Option.getD_none, pastPosition]
  cases h with
  | plain n =>
      simp only [SegmentWorker.isFresh, isMergedToken, Bool.false_and, Bool.not_false, true_iff]
      exact hpos
  | halves a b na nb hmask hids =>
      have hhalf : jsAnd (hashOf e.event) (segment.mask * 2 + 1) = (a : ℤ) ∨
          jsAnd (hashOf e.event) (segment.mask * 2 + 1) = (b : ℤ) := by
        rcases hids with ⟨rfl, rfl⟩ | ⟨rfl, rfl⟩
        · exact half_of_hash hs hmask hh hhas
        · exact (half_of_hash hs hmask hh hhas).symm
      rw [reachOf_merged _ _ _ hhalf]
      simp only [SegmentWorker.isFresh, isMergedToken, handledByMergedHalf, hpast, Bool.true_and,
        Bool.not_eq_true', covers_globalSequence, position_globalSequence]
      by_cases ha : jsAnd (hashOf e.event) (segment.mask * 2 + 1) = (a : ℤ)
      · simp only [if_pos ha, decide_eq_false_iff_not, Nat.not_le]
      · have hb := hhalf.resolve_left ha
        simp only [if_neg ha, if_pos hb, decide_eq_false_iff_not, Nat.not_le]

/-! ## Batches -/

/-- The handled events of one hash. -/
def ofHash (cfg : Config E I) (hash : ℕ) (e : SequencedEvent K E) : Bool :=
  cfg.hashOf e.event == hash && cfg.handled e.event

theorem Config.hashOf_lt (cfg : Config E I) (e : E) : cfg.hashOf e < 2 ^ 32 :=
  cfg.hash_lt (cfg.sequenceOf e)

theorem ofHash_iff {cfg : Config E I} {hash : ℕ} {e : SequencedEvent K E} :
    ofHash cfg hash e = true ↔ cfg.hashOf e.event = hash ∧ cfg.handled e.event = true := by
  simp [ofHash]

/-- A segment accepts the handled events of its hashes. -/
theorem accepts_iff {cfg : Config E I} {segment : Segment} (hs : segment.Valid)
    {e : SequencedEvent K E} :
    accepts cfg segment e = true ↔
      cfg.handled e.event = true ∧ segment.has (cfg.hashOf e.event) := by
  simp only [accepts, Bool.and_eq_true, inSegment_iff hs (cfg.hashOf_lt _)]

theorem accepts_of_ofHash {cfg : Config E I} {segment : Segment} (hs : segment.Valid) {hash : ℕ}
    (hhas : segment.has hash) {e : SequencedEvent K E} (h : ofHash cfg hash e = true) :
    accepts cfg segment e = true := by
  obtain ⟨rfl, hhandled⟩ := ofHash_iff.mp h
  exact (accepts_iff hs).mpr ⟨hhandled, hhas⟩

section Batch
variable {cfg : Config E I} {segment : Segment} {log : Log K E} {token : TrackingToken K}

/-- One event of a batch is delivered just when its hash moves over it. -/
theorem event_delivered (hs : segment.Valid) (hord : Ordered pastPosition log)
    (hok : TokenOk segment token) {e : SequencedEvent K E} (he : e ∈ log) (htok : e.token = none)
    (hpos : token.position < pastPosition e) (hacc : accepts cfg segment e = true)
    (hfirst : ∀ b ∈ log, accepts cfg segment b = true → token.position < pastPosition b →
      pastPosition e ≤ pastPosition b)
    {hash : ℕ} (hh : hash < 2 ^ 32) (hhas : segment.has hash) :
    (if SegmentWorker.isFresh cfg.hashOf token e then [e] else []).filter (ofHash cfg hash) =
      window pastPosition (ofHash cfg hash) (reachOf token hash)
        (max (reachOf token hash) (pastPosition e)) log := by
  obtain ⟨hhandled, hhase⟩ := (accepts_iff hs).mp hacc
  have hreads := hok.reads_behind hs hh hhas
  have hbehind : ∀ b ∈ log, ofHash cfg hash b = true → reachOf token hash < pastPosition b →
      pastPosition e ≤ pastPosition b := by
    intro b hb hp hlt
    exact hfirst b hb (accepts_of_ofHash hs hhas hp) (hreads.trans_lt hlt)
  have hfresh := hok.isFresh_iff hs (cfg.hashOf_lt _) hhase htok hpos
  by_cases hsame : cfg.hashOf e.event = hash
  · have hof : ofHash cfg hash e = true := ofHash_iff.mpr ⟨hsame, hhandled⟩
    rw [hsame] at hfresh
    by_cases hlt : reachOf token hash < pastPosition e
    · rw [if_pos (hfresh.mpr hlt), max_eq_right hlt.le, window_read hord he hlt hbehind]
      simp [hof]
    · rw [if_neg (fun hcon => hlt (hfresh.mp hcon)), max_eq_left (Nat.le_of_not_lt hlt),
        window_self,
        List.filter_nil]
  · have hof : ofHash cfg hash e = false := by
      rw [← Bool.not_eq_true]
      exact fun hcon => hsame (ofHash_iff.mp hcon).1
    -- the hash moves over a stretch without events of its own
    have hnone : window pastPosition (ofHash cfg hash) (reachOf token hash)
        (max (reachOf token hash) (pastPosition e)) log = [] := by
      apply window_eq_nil
      intro b hb hp hlt
      have hge := hbehind b hb hp hlt
      have hne : pastPosition e ≠ pastPosition b := by
        intro heq
        rw [hord.eq_of_key he hb heq, hp] at hof
        cases hof
      exact max_lt hlt (lt_of_le_of_ne hge hne)
    rw [hnone]
    split_ifs
    · simp [hof]
    · rfl

/-- A batch delivers of every hash what its position is raised over. -/
theorem prepare_spec (hs : segment.Valid) (hord : Ordered pastPosition log)
    (hplain : ∀ e ∈ log, e.token = none) {hi : ℕ} (batch : List (SequencedEvent K E))
    (hok : TokenOk segment token)
    (hbatch : window pastPosition (accepts cfg segment) token.position hi log = batch) :
    TokenOk segment (SegmentWorker.prepare cfg.hashOf token batch).2 ∧
      (∀ e ∈ (SegmentWorker.prepare cfg.hashOf token batch).1, e ∈ batch) ∧
      ∀ hash < 2 ^ 32, segment.has hash →
        reachOf token hash ≤ reachOf (SegmentWorker.prepare cfg.hashOf token batch).2 hash ∧
        reachOf (SegmentWorker.prepare cfg.hashOf token batch).2 hash ≤
          max (reachOf token hash) hi ∧
        (SegmentWorker.prepare cfg.hashOf token batch).1.filter (ofHash cfg hash) =
          window pastPosition (ofHash cfg hash) (reachOf token hash)
            (reachOf (SegmentWorker.prepare cfg.hashOf token batch).2 hash) log := by
  induction batch generalizing token with
  | nil =>
      refine ⟨hok, fun e he => he, ?_⟩
      intro hash _ _
      refine ⟨le_rfl, le_max_left _ _, ?_⟩
      simp [SegmentWorker.prepare]
  | cons e batch ih =>
      obtain ⟨he, hlo, hle, hacc, hfirst, hrest⟩ := window_cons hord hbatch
      have htok := hplain e he
      have hpast : e.past = globalSequence (pastPosition e) := by
        simp only [SequencedEvent.past, htok, Option.getD_none, pastPosition]
      obtain ⟨hok', hpos', hreach'⟩ := hok.advance hlo
      rw [← hpast] at hok' hpos' hreach'
      rw [← hpos'] at hrest
      obtain ⟨hokEnd, hmem, hall⟩ := ih hok' hrest.symm
      simp only [SegmentWorker.prepare]
      refine ⟨hokEnd, ?_, ?_⟩
      · intro x hx
        split_ifs at hx
        · rcases List.mem_cons.mp hx with rfl | hx
          · exact List.mem_cons_self
          · exact List.mem_cons_of_mem _ (hmem x hx)
        · exact List.mem_cons_of_mem _ (hmem x hx)
      · intro hash hh hhas
        obtain ⟨hmono, hbound, hwindow⟩ := hall hash hh hhas
        have hraise := hreach' hs hash hh hhas
        have hevent := event_delivered hs hord hok he htok hlo hacc hfirst hh hhas
        rw [← hraise] at hevent
        have hup : reachOf token hash ≤ reachOf (advanceTokenTo token e.past) hash := by
          rw [hraise]
          exact le_max_left _ _
        refine ⟨hup.trans hmono, ?_, ?_⟩
        · rw [hraise] at hbound
          omega
        · rw [← window_split hord hup hmono, ← hevent, ← hwindow, ← List.filter_append]
          congr 1
          split_ifs <;> rfl

end Batch

/-! ## The invariant -/

structure SplitMergeInv (cfg : Config E I) (s : State K E) : Prop where
  ordered : Ordered pastPosition s.log
  below : ∀ e ∈ s.log, e.sequence < s.head
  plain : ∀ e ∈ s.log, e.token = none
  partition : Partition (s.rows.map (·.segment))
  byId : ∀ r ∈ s.rows, ∀ t ∈ s.rows, r.segment.id = t.segment.id → r = t
  tokens : ∀ r ∈ s.rows, TokenOk r.segment r.tokenNow
  bounded : ∀ r ∈ s.rows, ∀ hash < 2 ^ 32, r.segment.has hash → reachOf r.tokenNow hash ≤ s.head
  known : ∀ e ∈ s.delivered, e ∈ s.log ∧ cfg.handled e.event = true
  account : ∀ r ∈ s.rows, ∀ hash < 2 ^ 32, r.segment.has hash →
    s.delivered.filter (ofHash cfg hash) =
      window pastPosition (ofHash cfg hash) 0 (reachOf r.tokenNow hash) s.log

theorem inv_initial (cfg : Config E I) {level : ℕ} (hl : level ≤ 31) :
    SplitMergeInv cfg (initial level : State K E) := by
  have hlevel := partition_level hl
  have hids : ∀ i, i ∈ List.range (2 ^ level) ↔
      ∃ s ∈ (List.range (2 ^ level)).map (fun id => (⟨id, 2 ^ level - 1⟩ : Segment)), s.id = i := by
    intro i
    simp
  have hpart : Partition (segmentsOf (List.range (2 ^ level))) :=
    hlevel.congr fun s => hlevel.mem_segmentsOf hids s
  have hsegs : (initial level : State K E).rows.map (·.segment) =
      segmentsOf (List.range (2 ^ level)) := by
    simp only [initial, List.map_map]
    exact List.map_id _
  have hrow : ∀ r ∈ (initial level : State K E).rows, r.token = none := by
    intro r hr
    obtain ⟨segment, -, rfl⟩ := List.mem_map.mp hr
    rfl
  refine ⟨List.Pairwise.nil, ?_, ?_, ?_, ?_, ?_, ?_, ?_, ?_⟩
  · exact fun e he => absurd he List.not_mem_nil
  · exact fun e he => absurd he List.not_mem_nil
  · rw [hsegs]
    exact hpart
  · intro r hr t ht hid
    obtain ⟨a, ha, rfl⟩ := List.mem_map.mp hr
    obtain ⟨b, hb, rfl⟩ := List.mem_map.mp ht
    rw [hpart.eq_of_id ha hb hid]
  · intro r hr
    rw [Row.tokenNow, hrow r hr]
    exact .plain 0
  · intro r hr hash _ _
    rw [Row.tokenNow, hrow r hr]
    exact le_rfl
  · exact fun e he => absurd he List.not_mem_nil
  · intro r hr hash _ _
    rfl

section Rows
variable {cfg : Config E I} {s : State K E}

theorem SplitMergeInv.valid (h : SplitMergeInv cfg s) {r : Row K} (hr : r ∈ s.rows) :
    r.segment.Valid :=
  h.partition.valid r.segment (List.mem_map_of_mem hr)

/-- Two rows that hold a hash are one row. -/
theorem SplitMergeInv.row_unique (h : SplitMergeInv cfg s) {r t : Row K} (hr : r ∈ s.rows)
    (ht : t ∈ s.rows) {hash : ℕ} (hrh : r.segment.has hash) (hth : t.segment.has hash) : r = t := by
  apply h.byId r hr t ht
  rw [h.partition.unique hash r.segment (List.mem_map_of_mem hr) t.segment (List.mem_map_of_mem ht)
    hrh hth]

theorem SplitMergeInv.mem_segmentsNow (h : SplitMergeInv cfg s) (segment : Segment) :
    segment ∈ segmentsNow s ↔ ∃ r ∈ s.rows, r.segment = segment := by
  have hids : ∀ i, i ∈ s.rows.map (·.segment.id) ↔ ∃ t ∈ s.rows.map (·.segment), t.id = i := by
    intro i
    simp
  rw [segmentsNow, h.partition.mem_segmentsOf hids, List.mem_map]

theorem rowOf_some {id : ℕ} {row : Row K} (h : rowOf s id = some row) :
    row ∈ s.rows ∧ row.segment.id = id := by
  refine ⟨List.mem_of_find?_eq_some h, ?_⟩
  simpa using List.find?_some h

theorem mem_setToken {rows : List (Row K)} {id : ℕ} {token : TrackingToken K} {r : Row K}
    (h : r ∈ setToken rows id token) :
    ∃ old ∈ rows, r.segment = old.segment ∧
      (old.segment.id = id ∧ r.token = some token ∨ old.segment.id ≠ id ∧ r = old) := by
  obtain ⟨old, hold, rfl⟩ := List.mem_map.mp h
  refine ⟨old, hold, ?_⟩
  split_ifs with hid
  · exact ⟨rfl, Or.inl ⟨hid, rfl⟩⟩
  · exact ⟨rfl, Or.inr ⟨hid, rfl⟩⟩

theorem setToken_segments (rows : List (Row K)) (id : ℕ) (token : TrackingToken K) :
    (setToken rows id token).map (·.segment) = rows.map (·.segment) := by
  simp only [setToken, List.map_map]
  apply List.map_congr_left
  intro r _
  simp only [Function.comp_apply]
  split_ifs <;> rfl

/-- A row's token moves on, delivering of each of its hashes what lies in between. -/
theorem inv_setToken (h : SplitMergeInv cfg s) {row : Row K} (hrow : row ∈ s.rows)
    {token : TrackingToken K} (hok : TokenOk row.segment token)
    {fresh : List (SequencedEvent K E)}
    (hfresh : ∀ e ∈ fresh, e ∈ s.log ∧ cfg.handled e.event = true ∧
      row.segment.has (cfg.hashOf e.event))
    (hmoves : ∀ hash < 2 ^ 32, row.segment.has hash →
      reachOf row.tokenNow hash ≤ reachOf token hash ∧ reachOf token hash ≤ s.head ∧
        fresh.filter (ofHash cfg hash) =
          window pastPosition (ofHash cfg hash) (reachOf row.tokenNow hash) (reachOf token hash)
            s.log) :
    SplitMergeInv cfg { s with
      rows := setToken s.rows row.segment.id token, delivered := s.delivered ++ fresh } := by
  have hcases : ∀ r ∈ setToken s.rows row.segment.id token,
      r.segment = row.segment ∧ r.tokenNow = token ∨
        r ∈ s.rows ∧ r.segment.id ≠ row.segment.id := by
    intro r hr
    obtain ⟨old, hold, hseg, ⟨hid, htok⟩ | ⟨hid, rfl⟩⟩ := mem_setToken hr
    · obtain rfl := h.byId old hold row hrow hid
      exact Or.inl ⟨hseg, by rw [Row.tokenNow, htok, Option.getD_some]⟩
    · exact Or.inr ⟨hold, hid⟩
  refine ⟨h.ordered, h.below, h.plain, ?_, ?_, ?_, ?_, ?_, ?_⟩
  · rw [setToken_segments]
    exact h.partition
  · intro r hr t ht hid
    obtain ⟨a, ha, hra⟩ := List.mem_map.mp hr
    obtain ⟨b, hb, htb⟩ := List.mem_map.mp ht
    have hsegr : r.segment = a.segment := by
      rw [← hra]
      split_ifs <;> rfl
    have hsegt : t.segment = b.segment := by
      rw [← htb]
      split_ifs <;> rfl
    have hab : a = b := h.byId a ha b hb (by rw [← hsegr, ← hsegt, hid])
    rw [← hra, ← htb, hab]
  · intro r hr
    rcases hcases r hr with ⟨hseg, htok⟩ | ⟨hold, -⟩
    · rw [hseg, htok]
      exact hok
    · exact h.tokens r hold
  · intro r hr hash hh hhas
    rcases hcases r hr with ⟨hseg, htok⟩ | ⟨hold, -⟩
    · rw [htok]
      exact (hmoves hash hh (hseg ▸ hhas)).2.1
    · exact h.bounded r hold hash hh hhas
  · intro e he
    rcases List.mem_append.mp he with he | he
    · exact h.known e he
    · exact ⟨(hfresh e he).1, (hfresh e he).2.1⟩
  · intro r hr hash hh hhas
    simp only [List.filter_append]
    rcases hcases r hr with ⟨hseg, htok⟩ | ⟨hold, hid⟩
    · obtain ⟨hmono, -, hwindow⟩ := hmoves hash hh (hseg ▸ hhas)
      rw [htok, h.account row hrow hash hh (hseg ▸ hhas), hwindow,
        window_split h.ordered (Nat.zero_le _) hmono]
    · -- nothing of this hash was in the batch
      have hnone : fresh.filter (ofHash cfg hash) = [] := by
        apply List.filter_eq_nil_iff.mpr
        intro e he hof
        obtain ⟨rfl, -⟩ := ofHash_iff.mp hof
        have heq := h.row_unique hold hrow hhas (hfresh e he).2.2
        exact hid (by rw [heq])
      rw [hnone, List.append_nil]
      exact h.account r hold hash hh hhas

end Rows

/-! ## The steps -/

section Steps
variable {cfg : Config E I} {s t : State K E}

theorem inv_grow (h : SplitMergeInv cfg s) {e : SequencedEvent K E} (he : s.head ≤ e.sequence)
    (htok : e.token = none) :
    SplitMergeInv cfg { s with log := s.log ++ [e], head := e.sequence + 1 } := by
  refine ⟨?_, ?_, ?_, h.partition, h.byId, h.tokens, ?_, ?_, ?_⟩
  · apply h.ordered.append (List.pairwise_singleton _ _)
    intro a ha b hb
    rw [List.mem_singleton.mp hb]
    exact Nat.succ_lt_succ ((h.below a ha).trans_le he)
  · intro a ha
    rcases List.mem_append.mp ha with ha | ha
    · exact (h.below a ha).trans_le (he.trans (Nat.le_succ _))
    · rw [List.mem_singleton.mp ha]
      exact Nat.lt_succ_self _
  · intro a ha
    rcases List.mem_append.mp ha with ha | ha
    · exact h.plain a ha
    · rw [List.mem_singleton.mp ha]
      exact htok
  · intro r hr hash hh hhas
    exact (h.bounded r hr hash hh hhas).trans (he.trans (Nat.le_succ _))
  · intro a ha
    exact ⟨List.mem_append_left _ (h.known a ha).1, (h.known a ha).2⟩
  · intro r hr hash hh hhas
    rw [h.account r hr hash hh hhas, window_append]
    intro a ha _ _
    rw [List.mem_singleton.mp ha]
    exact Nat.lt_succ_of_le ((h.bounded r hr hash hh hhas).trans he)

/-- What a batch of a segment is: everything the segment accepts up to its last event. -/
theorem batch_window {log : Log K E} (hord : Ordered pastPosition log) {segment : Segment}
    {lo n : ℕ} (hne : (asked log lo (accepts cfg segment)).take n ≠ []) :
    ∃ init last, (asked log lo (accepts cfg segment)).take n = init ++ [last] ∧ last ∈ log ∧
      window pastPosition (accepts cfg segment) lo (pastPosition last) log =
        (asked log lo (accepts cfg segment)).take n := by
  obtain ⟨init, last, hlast⟩ : ∃ init last,
      (asked log lo (accepts cfg segment)).take n = init ++ [last] :=
    ⟨_, _, (List.dropLast_append_getLast hne).symm⟩
  have hpre : init ++ [last] <+: beyond pastPosition (accepts cfg segment) lo log := by
    rw [← hlast, asked_eq_beyond]
    exact List.take_prefix _ _
  have hwindow := taken_eq_window hord hpre
  refine ⟨init, last, hlast, ?_, by rw [hlast, hwindow]⟩
  have hmem : last ∈ init ++ [last] := by simp
  rw [hwindow, mem_window] at hmem
  exact hmem.1

theorem inv_batch (h : SplitMergeInv cfg s) {row : Row K} (hrow : row ∈ s.rows) {n : ℕ}
    (hne : (asked s.log row.tokenNow.position (accepts cfg row.segment)).take n ≠ []) :
    SplitMergeInv cfg { s with
      rows := setToken s.rows row.segment.id (SegmentWorker.prepare cfg.hashOf row.tokenNow
        ((asked s.log row.tokenNow.position (accepts cfg row.segment)).take n)).2
      delivered := s.delivered ++ (SegmentWorker.prepare cfg.hashOf row.tokenNow
        ((asked s.log row.tokenNow.position (accepts cfg row.segment)).take n)).1.filter
          fun e => cfg.handled e.event } := by
  have hvalid := h.valid hrow
  obtain ⟨init, last, hbatch, hlast, hwindow⟩ := batch_window h.ordered hne
  generalize (asked s.log row.tokenNow.position (accepts cfg row.segment)).take n = batch
    at hbatch hwindow ⊢
  have hmember : ∀ e ∈ batch, e ∈ s.log ∧ cfg.handled e.event = true ∧
      row.segment.has (cfg.hashOf e.event) := by
    intro e he
    rw [← hwindow] at he
    obtain ⟨hel, -, -, hacc⟩ := mem_window.mp he
    exact ⟨hel, (accepts_iff hvalid).mp hacc⟩
  have hend : pastPosition last ≤ s.head := h.below last hlast
  obtain ⟨hok, hsub, hmoves⟩ :=
    prepare_spec hvalid h.ordered h.plain batch (h.tokens row hrow) hwindow
  have hhandled : (SegmentWorker.prepare cfg.hashOf row.tokenNow batch).1.filter
      (fun e => cfg.handled e.event) = (SegmentWorker.prepare cfg.hashOf row.tokenNow batch).1 := by
    apply List.filter_eq_self.mpr
    intro e he
    exact (hmember e (hsub e he)).2.1
  rw [hhandled]
  apply inv_setToken h hrow hok
  · intro e he
    exact hmember e (hsub e he)
  · intro hash hh hhas
    obtain ⟨hmono, hbound, hfilter⟩ := hmoves hash hh hhas
    exact ⟨hmono, hbound.trans (max_le (h.bounded row hrow hash hh hhas) hend), hfilter⟩

/-- A quiet stretch has nothing in it for any hash of the segment. -/
theorem quiet_moves (h : SplitMergeInv cfg s) {row : Row K} (hrow : row ∈ s.rows) {n : ℕ}
    (hlt : row.tokenNow.position < n) (hhead : n ≤ s.head)
    (hnone : ∀ e ∈ asked s.log row.tokenNow.position (accepts cfg row.segment), n ≤ e.sequence)
    {hash : ℕ} (hh : hash < 2 ^ 32) (hhas : row.segment.has hash) :
    reachOf row.tokenNow hash ≤ reachOf (advanceTokenTo row.tokenNow (globalSequence n)) hash ∧
      reachOf (advanceTokenTo row.tokenNow (globalSequence n)) hash ≤ s.head ∧
      window pastPosition (ofHash cfg hash) (reachOf row.tokenNow hash)
        (reachOf (advanceTokenTo row.tokenNow (globalSequence n)) hash) s.log = [] := by
  have hvalid := h.valid hrow
  obtain ⟨-, -, hreach⟩ := (h.tokens row hrow).advance hlt
  rw [hreach hvalid hash hh hhas]
  refine ⟨le_max_left _ _, max_le (h.bounded row hrow hash hh hhas) hhead, ?_⟩
  apply window_eq_nil
  intro e he hof hlo
  have hreads := (h.tokens row hrow).reads_behind hvalid hh hhas
  have hasked : e ∈ asked s.log row.tokenNow.position (accepts cfg row.segment) := by
    rw [asked_eq_beyond, mem_beyond]
    exact ⟨he, hreads.trans_lt hlo, accepts_of_ofHash hvalid hhas hof⟩
  exact max_lt hlo (Nat.lt_succ_of_le (hnone e hasked))

theorem inv_quiet (h : SplitMergeInv cfg s) {row : Row K} (hrow : row ∈ s.rows) {n : ℕ}
    (hlt : row.tokenNow.position < n) (hhead : n ≤ s.head)
    (hnone : ∀ e ∈ asked s.log row.tokenNow.position (accepts cfg row.segment), n ≤ e.sequence) :
    SplitMergeInv cfg { s with
      rows := setToken s.rows row.segment.id
        (advanceTokenTo row.tokenNow (globalSequence n)) } := by
  have hnew : ∀ e ∈ ([] : List (SequencedEvent K E)), e ∈ s.log ∧ cfg.handled e.event = true ∧
      row.segment.has (cfg.hashOf e.event) := fun e he => absurd he List.not_mem_nil
  have hset := inv_setToken h hrow ((h.tokens row hrow).advance hlt).1 hnew ?_
  · simpa using hset
  · intro hash hh hhas
    obtain ⟨hmono, hbound, hnil⟩ := quiet_moves h hrow hlt hhead hnone hh hhas
    exact ⟨hmono, hbound, hnil.symm⟩

/-- A token that is not a merged one is a bare position. -/
theorem TokenOk.eq_plain {segment : Segment} {token : TrackingToken K} (h : TokenOk segment token)
    (hm : token.isMergedToken = false) : ∃ n, token = globalSequence n := by
  cases h with
  | plain n => exact ⟨n, rfl⟩
  | halves a b na nb hmask hids => cases hm

/-- The rows are cut anew, and every hash keeps its position. -/
structure Recut (old new : List (Row K)) : Prop where
  partition : Partition (new.map (·.segment))
  byId : ∀ r ∈ new, ∀ t ∈ new, r.segment.id = t.segment.id → r = t
  tokens : ∀ r ∈ new, TokenOk r.segment r.tokenNow
  keeps : ∀ r ∈ new, ∀ hash < 2 ^ 32, r.segment.has hash →
    ∃ q ∈ old, q.segment.has hash ∧ reachOf r.tokenNow hash = reachOf q.tokenNow hash

theorem inv_recut (h : SplitMergeInv cfg s) {rows : List (Row K)} (hcut : Recut s.rows rows) :
    SplitMergeInv cfg { s with rows := rows } := by
  refine ⟨h.ordered, h.below, h.plain, hcut.partition, hcut.byId, hcut.tokens, ?_, h.known, ?_⟩
  · intro r hr hash hh hhas
    obtain ⟨old, hold, hohas, heq⟩ := hcut.keeps r hr hash hh hhas
    rw [heq]
    exact h.bounded old hold hash hh hohas
  · intro r hr hash hh hhas
    obtain ⟨old, hold, hohas, heq⟩ := hcut.keeps r hr hash hh hhas
    rw [heq]
    exact h.account old hold hash hh hohas

/-- A row is replaced by the rows of its halves. -/
theorem mem_split_rows {rows : List (Row K)} {row : Row K} (hrow : row ∈ rows)
    (hbyId : ∀ r ∈ rows, ∀ t ∈ rows, r.segment.id = t.segment.id → r = t)
    (hno : ∀ r ∈ rows, r.segment.id ≠ (splitSegment row.segment).2.id) (r : Row K) :
    r ∈ ((rows.filter (·.segment.id ≠ (splitSegment row.segment).2.id)).map fun r =>
        if r.segment.id = row.segment.id then { r with segment := (splitSegment row.segment).1 }
        else r) ++ [⟨(splitSegment row.segment).2, some row.tokenNow⟩] ↔
      r = { row with segment := (splitSegment row.segment).1 } ∨
        r = ⟨(splitSegment row.segment).2, some row.tokenNow⟩ ∨
        r ∈ rows ∧ r.segment.id ≠ row.segment.id := by
  simp only [List.mem_append, List.mem_map, List.mem_filter, List.mem_singleton]
  constructor
  · rintro (⟨old, ⟨hold, -⟩, rfl⟩ | rfl)
    · split_ifs with hid
      · rw [hbyId old hold row hrow hid]
        exact Or.inl rfl
      · exact Or.inr (Or.inr ⟨hold, hid⟩)
    · exact Or.inr (Or.inl rfl)
  · rintro (rfl | rfl | ⟨hr, hid⟩)
    · exact Or.inl ⟨row, ⟨hrow, by simpa using hno row hrow⟩, by simp⟩
    · exact Or.inr rfl
    · exact Or.inl ⟨r, ⟨hr, by simpa using hno r hr⟩, by simp [hid]⟩

theorem split_recut (h : SplitMergeInv cfg s) {id : ℕ}
    (hfits : ∀ segment ∈ segmentsNow s, segment.id = id → segment.mask < 2 ^ 30)
    (hs : split s id = some t) : Recut s.rows t.rows ∧ t = { s with rows := t.rows } := by
  unfold split at hs
  split at hs
  · rename_i segment row hfind hrowOf
    split_ifs at hs with hmerged
    cases hs
    obtain ⟨hrow, rfl⟩ := rowOf_some hrowOf
    have hsegment : segment = row.segment := by
      have hmem := List.mem_of_find?_eq_some hfind
      obtain ⟨r, hr, rfl⟩ := (h.mem_segmentsNow segment).mp hmem
      rw [h.byId r hr row hrow (by simpa using List.find?_some hfind)]
    subst hsegment
    have hvalid := h.valid hrow
    have hmask := hfits row.segment (List.mem_of_find?_eq_some hfind) rfl
    obtain ⟨hv₁, hv₂⟩ := splitSegment_valid hvalid hmask
    obtain ⟨n, hn⟩ := (h.tokens row hrow).eq_plain (by simpa using hmerged)
    obtain ⟨level, -, -, hid⟩ := id hvalid
    have hno : ∀ r ∈ s.rows, r.segment.id ≠ (splitSegment row.segment).2.id := fun r hr =>
      h.partition.second_ne (List.mem_map_of_mem hrow) hmask (List.mem_map_of_mem hr)
    have hmem := mem_split_rows hrow h.byId hno
    have hother : ∀ r ∈ s.rows, r.segment.id ≠ row.segment.id ↔ r.segment ≠ row.segment := by
      intro r hr
      constructor
      · exact fun hne heq => hne (by rw [heq])
      · exact fun hne heq => hne (by rw [h.byId r hr row hrow heq])
    refine ⟨⟨?_, ?_, ?_, ?_⟩, rfl⟩
    · refine h.partition.split (List.mem_map_of_mem hrow) hmask ?_
      intro x
      rw [List.mem_map]
      constructor
      · rintro ⟨r, hr, rfl⟩
        rcases (hmem r).mp hr with rfl | rfl | ⟨hr, hne⟩
        · exact Or.inl (Or.inl rfl)
        · exact Or.inl (Or.inr rfl)
        · exact Or.inr ⟨List.mem_map_of_mem hr, (hother r hr).mp hne⟩
      · rintro ((rfl | rfl) | ⟨hx, hne⟩)
        · exact ⟨_, (hmem _).mpr (Or.inl rfl), rfl⟩
        · exact ⟨_, (hmem _).mpr (Or.inr (Or.inl rfl)), rfl⟩
        · obtain ⟨r, hr, rfl⟩ := List.mem_map.mp hx
          exact ⟨r, (hmem r).mpr (Or.inr (Or.inr ⟨hr, (hother r hr).mpr hne⟩)), rfl⟩
    · -- the halves' ids differ, and neither is another row's
      have hfirst : (splitSegment row.segment).1.id = row.segment.id := rfl
      have hsecond : (splitSegment row.segment).2.id ≠ row.segment.id := fun heq =>
        hno row hrow heq.symm
      intro r hr q hq heq
      rcases (hmem r).mp hr with rfl | rfl | ⟨hr, hne⟩ <;>
        rcases (hmem q).mp hq with rfl | rfl | ⟨hq, hne'⟩
      · rfl
      · exact absurd heq.symm hsecond
      · exact absurd heq.symm hne'
      · exact absurd heq hsecond
      · rfl
      · exact absurd heq.symm (hno q hq)
      · exact absurd heq hne
      · exact absurd heq (hno r hr)
      · exact h.byId r hr q hq heq
    · intro r hr
      rcases (hmem r).mp hr with rfl | rfl | ⟨hr, hne⟩
      · show TokenOk _ row.tokenNow
        rw [hn]
        exact .plain n
      · show TokenOk _ row.tokenNow
        rw [hn]
        exact .plain n
      · exact h.tokens r hr
    · intro r hr hash _ hhas
      rcases (hmem r).mp hr with rfl | rfl | ⟨hr, hne⟩
      · exact ⟨row, hrow, (splitSegment_has hid hash).mpr (Or.inl hhas), rfl⟩
      · exact ⟨row, hrow, (splitSegment_has hid hash).mpr (Or.inr hhas), rfl⟩
      · exact ⟨r, hr, hhas, rfl⟩
  · cases hs

theorem inv_split (h : SplitMergeInv cfg s) {id : ℕ}
    (hfits : ∀ segment ∈ segmentsNow s, segment.id = id → segment.mask < 2 ^ 30)
    (hs : split s id = some t) : SplitMergeInv cfg t := by
  obtain ⟨hcut, heq⟩ := split_recut h hfits hs
  rw [heq]
  exact inv_recut h hcut

/-- Two rows are replaced by one. -/
theorem mem_merge_rows {rows : List (Row K)} {keep drop : ℕ} {new : Row K} (hne : keep ≠ drop)
    (hkeep : ∃ r ∈ rows, r.segment.id = keep) (r : Row K) :
    r ∈ ((rows.filter (·.segment.id ≠ drop)).map fun r => if r.segment.id = keep then new else r) ↔
      r = new ∨ r ∈ rows ∧ r.segment.id ≠ keep ∧ r.segment.id ≠ drop := by
  simp only [List.mem_map, List.mem_filter, decide_eq_true_eq]
  constructor
  · rintro ⟨old, ⟨hold, hdrop⟩, rfl⟩
    split_ifs with hid
    · exact Or.inl rfl
    · exact Or.inr ⟨hold, hid, hdrop⟩
  · rintro (rfl | ⟨hr, hid, hdrop⟩)
    · obtain ⟨old, hold, hid⟩ := hkeep
      exact ⟨old, ⟨hold, hid ▸ hne⟩, if_pos hid⟩
    · exact ⟨r, ⟨hr, hdrop⟩, if_neg hid⟩

/-- The merged token keeps each hash at its half's position. -/
theorem mergedToken_spec {segment : Segment} (hs : segment.Valid) (hmask : segment.mask < 2 ^ 30)
    {a b : Segment} (hids : a = (splitSegment segment).1 ∧ b = (splitSegment segment).2 ∨
      a = (splitSegment segment).2 ∧ b = (splitSegment segment).1) (na nb : ℕ) :
    TokenOk segment (mergedToken (segment.mask * 2 + 1) a.id (globalSequence na) b.id
        (globalSequence nb) : TrackingToken K) ∧
      ∀ hash < 2 ^ 32,
        (a.has hash → reachOf (mergedToken (segment.mask * 2 + 1) a.id (globalSequence na) b.id
          (globalSequence nb) : TrackingToken K) hash = na) ∧
        (b.has hash → reachOf (mergedToken (segment.mask * 2 + 1) a.id (globalSequence na) b.id
          (globalSequence nb) : TrackingToken K) hash = nb) := by
  obtain ⟨hv₁, hv₂⟩ := splitSegment_valid hs hmask
  have hva : a.Valid ∧ a.mask = segment.mask * 2 + 1 := by
    rcases hids with ⟨rfl, rfl⟩ | ⟨rfl, rfl⟩
    · exact ⟨hv₁, rfl⟩
    · exact ⟨hv₂, rfl⟩
  have hvb : b.Valid ∧ b.mask = segment.mask * 2 + 1 := by
    rcases hids with ⟨rfl, rfl⟩ | ⟨rfl, rfl⟩
    · exact ⟨hv₂, rfl⟩
    · exact ⟨hv₁, rfl⟩
  have hdiff : (a.id : ℤ) ≠ b.id := by
    rcases hids with ⟨rfl, rfl⟩ | ⟨rfl, rfl⟩ <;> simp only [splitSegment] <;> omega
  unfold mergedToken
  split_ifs with hsame
  · have heq : na = nb := samePositionAs_iff.mp hsame
    refine ⟨.plain na, fun hash _ => ⟨fun _ => rfl, fun _ => ?_⟩⟩
    exact heq
  · refine ⟨.halves _ _ _ _ hmask ?_, ?_⟩
    · rcases hids with ⟨rfl, rfl⟩ | ⟨rfl, rfl⟩
      · exact Or.inl ⟨rfl, rfl⟩
      · exact Or.inr ⟨rfl, rfl⟩
    · intro hash hh
      have ha := jsAnd_eq_iff_has hva.1 hh
      have hb := jsAnd_eq_iff_has hvb.1 hh
      rw [hva.2] at ha
      rw [hvb.2] at hb
      constructor
      · intro hhas
        rw [reachOf_merged _ _ _ (Or.inl (ha.mpr hhas)), if_pos (ha.mpr hhas)]
        rfl
      · intro hhas
        have hnot : ¬ jsAnd hash (segment.mask * 2 + 1) = (a.id : ℤ) := by
          rw [hb.mpr hhas]
          exact hdiff.symm
        rw [reachOf_merged _ _ _ (Or.inr (hb.mpr hhas)), if_neg hnot]
        rfl

/-- The rows of two halves become the row of the segment they are the halves of. -/
theorem mergeRows_recut (h : SplitMergeInv cfg s) {row other : Row K} (hrow : row ∈ s.rows)
    (hother : other ∈ s.rows) {parent : Segment} (hparent : parent.Valid)
    (hmask : parent.mask < 2 ^ 30)
    (hids : row.segment = (splitSegment parent).1 ∧ other.segment = (splitSegment parent).2 ∨
      row.segment = (splitSegment parent).2 ∧ other.segment = (splitSegment parent).1)
    {na nb : ℕ} (hna : row.tokenNow = globalSequence na) (hnb : other.tokenNow = globalSequence nb)
    {rows : List (Row K)} (hmem : ∀ r, r ∈ rows ↔
      r = ⟨parent, some (mergedToken (parent.mask * 2 + 1) row.segment.id row.tokenNow
        other.segment.id other.tokenNow)⟩ ∨
        r ∈ s.rows ∧ r.segment.id ≠ row.segment.id ∧ r.segment.id ≠ other.segment.id) :
    Recut s.rows rows := by
  obtain ⟨hok, hreach⟩ := mergedToken_spec (K := K) hparent hmask hids na nb
  rw [hna, hnb] at hmem
  obtain ⟨level, -, -, hid⟩ := id hparent
  have hshare : ∀ hash, parent.has hash ↔ row.segment.has hash ∨ other.segment.has hash := by
    intro hash
    rw [splitSegment_has hid hash]
    rcases hids with ⟨h₁, h₂⟩ | ⟨h₁, h₂⟩
    · rw [h₁, h₂]
    · rw [h₁, h₂, or_comm]
  have hstays : ∀ r ∈ s.rows, r.segment.id ≠ row.segment.id ∧ r.segment.id ≠ other.segment.id ↔
      ¬ (r.segment = row.segment ∨ r.segment = other.segment) := by
    intro r hr
    rw [not_or]
    constructor
    · exact fun hne => ⟨fun heq => hne.1 (by rw [heq]), fun heq => hne.2 (by rw [heq])⟩
    · exact fun hne => ⟨fun heq => hne.1 (by rw [h.byId r hr row hrow heq]),
        fun heq => hne.2 (by rw [h.byId r hr other hother heq])⟩
  refine ⟨?_, ?_, ?_, ?_⟩
  · refine h.partition.merge hparent hids (List.mem_map_of_mem hrow) (List.mem_map_of_mem hother) ?_
    intro x
    rw [List.mem_map]
    constructor
    · rintro ⟨r, hr, rfl⟩
      rcases (hmem r).mp hr with rfl | ⟨hr, hne⟩
      · exact Or.inl rfl
      · exact Or.inr ⟨List.mem_map_of_mem hr, (hstays r hr).mp hne⟩
    · rintro (rfl | ⟨hx, hne⟩)
      · exact ⟨_, (hmem _).mpr (Or.inl rfl), rfl⟩
      · obtain ⟨r, hr, rfl⟩ := List.mem_map.mp hx
        exact ⟨r, (hmem r).mpr (Or.inr ⟨hr, (hstays r hr).mpr hne⟩), rfl⟩
  · -- the parent's id is one of the two that went
    have hgone : parent.id = row.segment.id ∨ parent.id = other.segment.id := by
      rcases hids with ⟨h₁, -⟩ | ⟨-, h₂⟩
      · exact Or.inl (by rw [h₁]; rfl)
      · exact Or.inr (by rw [h₂]; rfl)
    intro r hr q hq heq
    rcases (hmem r).mp hr with rfl | ⟨hr, hne, hne'⟩ <;>
      rcases (hmem q).mp hq with rfl | ⟨hq, hqne, hqne'⟩
    · rfl
    · rcases hgone with hg | hg
      · exact absurd (heq.symm.trans hg) hqne
      · exact absurd (heq.symm.trans hg) hqne'
    · rcases hgone with hg | hg
      · exact absurd (heq.trans hg) hne
      · exact absurd (heq.trans hg) hne'
    · exact h.byId r hr q hq heq
  · intro r hr
    rcases (hmem r).mp hr with rfl | ⟨hr, -⟩
    · exact hok
    · exact h.tokens r hr
  · intro r hr hash hh hhas
    rcases (hmem r).mp hr with rfl | ⟨hr, -⟩
    · rcases (hshare hash).mp hhas with hhalf | hhalf
      · refine ⟨row, hrow, hhalf, ?_⟩
        rw [hna]
        exact (hreach hash hh).1 hhalf
      · refine ⟨other, hother, hhalf, ?_⟩
        rw [hnb]
        exact (hreach hash hh).2 hhalf
    · exact ⟨r, hr, hhas, rfl⟩

/-- The row of a segment the ids name is the row with that segment. -/
theorem row_of_found (h : SplitMergeInv cfg s) {segment : Segment} (hmem : segment ∈ segmentsNow s)
    {row : Row K} (hrow : rowOf s segment.id = some row) :
    row ∈ s.rows ∧ row.segment = segment := by
  obtain ⟨hr, hid⟩ := rowOf_some hrow
  obtain ⟨q, hq, rfl⟩ := (h.mem_segmentsNow segment).mp hmem
  exact ⟨hr, by rw [h.byId row hr q hq hid]⟩

theorem merge_recut (h : SplitMergeInv cfg s) {id : ℕ} (hs : merge s id = some t) :
    Recut s.rows t.rows ∧ t = { s with rows := t.rows } := by
  unfold merge at hs
  split at hs
  · cases hs
  · rename_i segment hfind
    split_ifs at hs with hzero
    split at hs
    · cases hs
    · rename_i partner hpartner
      split at hs
      · rename_i row other hrowOf hotherOf
        split_ifs at hs with hbusy
        cases hs
        simp only [Bool.or_eq_true, not_or, Bool.not_eq_true] at hbusy
        obtain ⟨hrow, rfl⟩ := row_of_found h (List.mem_of_find?_eq_some hfind) hrowOf
        obtain ⟨hother, rfl⟩ := row_of_found h (List.mem_of_find?_eq_some hpartner) hotherOf
        obtain ⟨na, hna⟩ := (h.tokens row hrow).eq_plain hbusy.1.1.2
        obtain ⟨nb, hnb⟩ := (h.tokens other hother).eq_plain hbusy.2
        have hfound := List.find?_some hpartner
        simp only [Bool.and_eq_true, decide_eq_true_eq, beq_iff_eq] at hfound
        have hvalid := h.valid hrow
        obtain ⟨hne, hmod⟩ := mergeableSegmentId_spec hvalid hzero hfound.1
        obtain ⟨hparent, hsmall, hdouble, hids⟩ :=
          merged_halves hvalid (h.valid hother) hzero hfound.2 hne hmod
        have hshift : (BitVec.ofNat 32 row.segment.mask >>> 1).toNat = row.segment.mask / 2 := by
          rw [BitVec.toNat_ushiftRight, BitVec.toNat_ofNat, Nat.mod_eq_of_lt (by omega),
            Nat.shiftRight_eq_div_pow]
        have hkeep : ∃ r ∈ s.rows, r.segment.id = min row.segment.id other.segment.id := by
          rcases le_total row.segment.id other.segment.id with hle | hle
          · exact ⟨row, hrow, (min_eq_left hle).symm⟩
          · exact ⟨other, hother, (min_eq_right hle).symm⟩
        refine ⟨mergeRows_recut h hrow hother hparent hsmall hids hna hnb ?_, rfl⟩
        intro r
        rw [mem_merge_rows (by omega) hkeep, hshift, hdouble]
        have hends : (r.segment.id ≠ min row.segment.id other.segment.id ∧
            r.segment.id ≠ max row.segment.id other.segment.id) ↔
            (r.segment.id ≠ row.segment.id ∧ r.segment.id ≠ other.segment.id) := by
          omega
        rw [hends]
      · cases hs

theorem inv_merge (h : SplitMergeInv cfg s) {id : ℕ} (hs : merge s id = some t) :
    SplitMergeInv cfg t := by
  obtain ⟨hcut, heq⟩ := merge_recut h hs
  rw [heq]
  exact inv_recut h hcut

end Steps

/-! ## Every run -/

/-- A split is of a segment that `segmentsOf` would still split. -/
def SplitsFit (s : State K E) : Action K E → Prop
  | .split id => ∀ segment ∈ segmentsNow s, segment.id = id → segment.mask < 2 ^ 30
  | _ => True

instance (s : State K E) (a : Action K E) : Decidable (SplitsFit s a) :=
  match a with
  | .split id =>
      inferInstanceAs
        (Decidable (∀ segment ∈ segmentsNow s, segment.id = id → segment.mask < 2 ^ 30))
  | .grow _ => .isTrue trivial
  | .batch _ _ => .isTrue trivial
  | .quiet _ _ => .isTrue trivial
  | .merge _ => .isTrue trivial

theorem inv_step {cfg : Config E I} {s t : State K E} {a : Action K E} (h : SplitMergeInv cfg s)
    (hfit : SplitsFit s a) (hs : step cfg s a = some t) : SplitMergeInv cfg t := by
  cases a with
  | grow e =>
      simp only [step] at hs
      split_ifs at hs with hadm
      cases hs
      exact inv_grow h hadm.1 (Option.isNone_iff_eq_none.mp hadm.2)
  | batch id n =>
      simp only [step] at hs
      split at hs
      · cases hs
      · rename_i row hrow
        split_ifs at hs with hempty
        cases hs
        obtain ⟨hmem, rfl⟩ := rowOf_some hrow
        exact inv_batch h hmem (by simpa using hempty)
  | quiet id n =>
      simp only [step] at hs
      split at hs
      · cases hs
      · rename_i row hrow
        split_ifs at hs with hquiet
        cases hs
        obtain ⟨hmem, rfl⟩ := rowOf_some hrow
        exact inv_quiet h hmem hquiet.1 hquiet.2.1 hquiet.2.2
  | split id => exact inv_split h hfit hs
  | merge id => exact inv_merge h hs

theorem inv_reach {cfg : Config E I} {level : ℕ} (hl : level ≤ 31) {s : State K E}
    (h : Reach (step cfg) SplitsFit (initial level) s) : SplitMergeInv cfg s :=
  h.invariant (inv_initial cfg hl) fun _ _ _ _ hi hok hs => inv_step hi hok hs

theorem accountsFor_iff (token : TrackingToken K) (hash n : ℕ) :
    accountsFor token hash (globalSequence (n + 1)) = true ↔ n + 1 ≤ reachOf token hash := by
  cases token with
  | globalSequence m => simp [accountsFor, isMergedToken, reachOf]
  | gapAware m k => simp [accountsFor, isMergedToken, reachOf, covers_iff]
  | replay r c => simp [accountsFor, isMergedToken, reachOf, covers_iff]
  | merged mask a ta b tb =>
      simp only [accountsFor, isMergedToken, if_true, handledByMergedHalf, reachOf]
      split_ifs
      · exact covers_iff
      · exact covers_iff
      · simp

/-- Whether an event was delivered is what the position of its hash says. -/
theorem SplitMergeInv.delivered_iff {cfg : Config E I} {s : State K E} (h : SplitMergeInv cfg s)
    {row : Row K} (hrow : row ∈ s.rows) {e : SequencedEvent K E} (he : e ∈ s.log)
    (hhandled : cfg.handled e.event = true) (hhas : row.segment.has (cfg.hashOf e.event)) :
    e ∈ s.delivered ↔ pastPosition e ≤ reachOf row.tokenNow (cfg.hashOf e.event) := by
  have hof : ofHash cfg (cfg.hashOf e.event) e = true := ofHash_iff.mpr ⟨rfl, hhandled⟩
  have haccount := h.account row hrow _ (cfg.hashOf_lt e.event) hhas
  have hfilter : e ∈ s.delivered ↔ e ∈ s.delivered.filter (ofHash cfg (cfg.hashOf e.event)) := by
    simp [hof]
  rw [hfilter, haccount, mem_window]
  exact ⟨fun hw => hw.2.2.1, fun hle => ⟨he, Nat.succ_pos _, hle, hof⟩⟩

/-- Events of one hash are delivered in log order. -/
theorem SplitMergeInv.delivered_order {cfg : Config E I} {s : State K E} (h : SplitMergeInv cfg s) :
    s.delivered.Pairwise fun a b =>
      cfg.hashOf a.event = cfg.hashOf b.event → a.sequence < b.sequence := by
  rw [List.pairwise_iff_forall_sublist]
  intro a b hsub hsame
  have hahandled := (h.known a (hsub.subset (by simp))).2
  have hbhandled := (h.known b (hsub.subset (by simp))).2
  have hboth : [a, b].filter (ofHash cfg (cfg.hashOf a.event)) = [a, b] := by
    have hof : ofHash cfg (cfg.hashOf a.event) a = true := ofHash_iff.mpr ⟨rfl, hahandled⟩
    have hof' : ofHash cfg (cfg.hashOf a.event) b = true := ofHash_iff.mpr ⟨hsame.symm, hbhandled⟩
    simp [hof, hof']
  have hfilter := hsub.filter (ofHash cfg (cfg.hashOf a.event))
  obtain ⟨segment, hsegment, hhas⟩ := h.partition.covers (cfg.hashOf a.event)
  obtain ⟨row, hrow, rfl⟩ := List.mem_map.mp hsegment
  rw [hboth, h.account row hrow _ (cfg.hashOf_lt a.event) hhas] at hfilter
  have hord := List.Pairwise.sublist hfilter (h.ordered.window _ _ _)
  have hlt : pastPosition a < pastPosition b := by simpa using hord
  exact Nat.lt_of_succ_lt_succ hlt

/-- Every event is delivered at most once; it belongs to one segment and has been
delivered exactly when that segment's token accounts for it; the events of a
sequence are delivered in log order. -/
structure ExactlyOnce (cfg : Config E I) (s : State K E) : Prop where
  once : s.delivered.Nodup
  accounted : ∀ e ∈ s.log, cfg.handled e.event = true →
    ∃ row ∈ s.rows, inSegment row.segment (cfg.hashOf e.event) = true ∧
      (∀ r ∈ s.rows, inSegment r.segment (cfg.hashOf e.event) = true → r = row) ∧
      (e ∈ s.delivered ↔ accountsFor row.tokenNow (cfg.hashOf e.event) e.past = true)
  inOrder : s.delivered.Pairwise fun a b =>
    cfg.sequenceOf a.event = cfg.sequenceOf b.event → a.sequence < b.sequence

/-- Every run whose splits stay within the depth `segmentsOf` walks. -/
theorem split_merge_exactly_once (cfg : Config E I) {level : ℕ} (hl : level ≤ 16) {s : State K E}
    (h : Reach (step cfg) SplitsFit (initial level) s) : ExactlyOnce cfg s := by
  have hinv := inv_reach (hl.trans (by decide)) h
  have horder := hinv.delivered_order
  refine ⟨?_, ?_, ?_⟩
  · apply List.Pairwise.imp _ horder
    intro a b hlt heq
    have hcon := hlt (by rw [heq])
    rw [heq] at hcon
    exact Nat.lt_irrefl _ hcon
  · intro e he hhandled
    have hlt := cfg.hashOf_lt e.event
    obtain ⟨segment, hsegment, hhas⟩ := hinv.partition.covers (cfg.hashOf e.event)
    obtain ⟨row, hrow, rfl⟩ := List.mem_map.mp hsegment
    refine ⟨row, hrow, (inSegment_iff (hinv.valid hrow) hlt).mpr hhas, ?_, ?_⟩
    · intro r hr hin
      exact hinv.row_unique hr hrow ((inSegment_iff (hinv.valid hr) hlt).mp hin) hhas
    · have hpast : e.past = globalSequence (e.sequence + 1) := by
        simp only [SequencedEvent.past, hinv.plain e he, Option.getD_none]
      rw [hpast, accountsFor_iff, hinv.delivered_iff hrow he hhandled hhas]
      rfl
  · apply List.Pairwise.imp _ horder
    intro a b hlt hsame
    apply hlt
    simp only [Config.hashOf, hsame]

theorem mod_hash_lt (n : ℕ) : n % 2 ^ 32 < 2 ^ 32 := Nat.mod_lt n (by decide)

/-- Events that are their own sequence and hash. -/
def numbered : Config ℕ ℕ where
  handled _ := true
  sequenceOf n := n
  sequenceHash n := n % 2 ^ 32
  hash_lt := mod_hash_lt

/-- A split, the halves read to different places, and the merge read on. -/
def splitThenMerge : List (Action Unit ℕ) :=
  [.split 0, .grow ⟨0, 0, none⟩, .grow ⟨1, 1, none⟩, .grow ⟨2, 2, none⟩, .grow ⟨3, 3, none⟩,
    .batch 0 1, .batch 1 2, .merge 1, .batch 0 1, .batch 0 1]

theorem split_merge_exactly_once_splitThenMerge :
    ∃ s : State Unit ℕ, Reach (step numbered) SplitsFit (initial 0) s ∧
      s.delivered.map (·.sequence) = [0, 1, 3, 2] ∧ s.delivered.Nodup := by
  obtain ⟨s, hs, hdelivered⟩ := reach_guarded_any
    (show ((exec (guarded (step numbered) SplitsFit) (initial 0 : State Unit ℕ) splitThenMerge).any
      fun s => decide (s.delivered.map (·.sequence) = [0, 1, 3, 2])) = true by decide +kernel)
  exact ⟨s, hs, hdelivered, (split_merge_exactly_once numbered (Nat.zero_le _) hs).once⟩

/-- A split 32 levels down leaves a hash in no segment: masking it gives a negative number. -/
theorem deep_split_loses_hash :
    ¬ ∀ s : State Unit ℕ, Reach (step numbered) always (initial 0) s → ExactlyOnce numbered s := by
  intro h
  obtain ⟨s, hs, hmem, hnone⟩ := reach_exec_any
    (show ((exec (step numbered) (initial 0 : State Unit ℕ)
      (List.replicate 32 (.split 0) ++ [.grow ⟨0, 2 ^ 31, none⟩])).any fun s =>
        decide ((⟨0, 2 ^ 31, none⟩ : SequencedEvent Unit ℕ) ∈ s.log ∧
          ∀ r ∈ s.rows, inSegment r.segment (2 ^ 31) = false)) = true by decide +kernel)
  obtain ⟨row, hrow, hin, -⟩ := (h s hs).accounted _ hmem rfl
  have hfalse := hnone row hrow
  exact absurd hin (by simpa [numbered, Config.hashOf] using hfalse)

end Kronos.Processing.SplitMerge
