import Kronos.Processing.Replay
import Kronos.Processing.SplitMergeExactlyOnce

/-!
# The replay flag tells the truth

A replaying segment has one foot in the past: what counts for being handled is
the token at its reset, and where it reads is the current token. `settled` looks
only at the former, and leaves out the deliveries that are replays. Seen so, a
reset of a segment that is in one piece does nothing, a batch inside a replay
does nothing, and every other step is a step of `SplitMerge`; so `SplitMergeInv`
holds of every run, and it says of every event whether it was handled.

A reset of a merged segment is different: the token it leaves is where the half
ahead had got to, for both halves. `ResetFits` asks that the half behind has
nothing left to handle on the way there.
-/
namespace Kronos.Processing.Replay
open Kronos.Lib.Transition Kronos.Lib.Window SharedStream TrackingToken
open SplitMerge

variable {K E I : Type}

/-! ## Settled tokens -/

/-- Where a token had got to before it was reset. -/
def settle : TrackingToken K → TrackingToken K
  | replay tokenAtReset _ => tokenAtReset
  | token => token

theorem settle_of_not_replay {token : TrackingToken K} (h : token.isReplayToken = false) :
    settle token = token := by
  cases token with
  | globalSequence n => rfl
  | gapAware n k => rfl
  | replay r c => cases h
  | merged mask a ta b tb => rfl

theorem TokenOk.not_replay {segment : Segment} {token : TrackingToken K}
    (h : TokenOk segment token) : token.isReplayToken = false := by
  cases h with
  | plain n => rfl
  | halves a b na nb hmask hids => rfl

/-- A segment that reads at `n` and had got to `reached`. -/
def replayTo (reached n : ℕ) : TrackingToken K :=
  if reached ≤ n then globalSequence n
  else replay (globalSequence reached) (globalSequence n)

theorem replayTo_of_lt {reached n : ℕ} (h : n < reached) :
    (replayTo reached n : TrackingToken K) = replay (globalSequence reached) (globalSequence n) :=
  if_neg (Nat.not_le_of_lt h)

@[simp] theorem settle_replayTo (reached n : ℕ) :
    settle (replayTo reached n : TrackingToken K) = globalSequence (max reached n) := by
  unfold replayTo
  split_ifs with h
  · rw [max_eq_right h]
    rfl
  · rw [max_eq_left (Nat.le_of_not_le h)]
    rfl

@[simp] theorem isMergedToken_replayTo (reached n : ℕ) :
    (replayTo reached n : TrackingToken K).isMergedToken = false := by
  unfold replayTo
  split_ifs
  · rfl
  · rfl

theorem advanceTokenTo_replayTo {reached n m : ℕ} (h : n < m) :
    advanceTokenTo (replayTo reached n : TrackingToken K) (globalSequence m) =
      replayTo reached m := by
  unfold replayTo
  by_cases hn : reached ≤ n
  · rw [if_pos hn, if_pos (hn.trans h.le)]
    rfl
  · rw [if_neg hn]
    simp only [advanceTokenTo, covers_globalSequence, decide_eq_true_eq]

theorem id_lt {segment : Segment} (hs : segment.Valid) : segment.id < 2 ^ 32 := by
  obtain ⟨level, hlevel, hmask, hid⟩ := hs
  have hpow := pow_level_le hlevel
  omega

/-- The id of a half is a hash of that half. -/
theorem half_id {segment : Segment} (hs : segment.Valid) (hmask : segment.mask < 2 ^ 30)
    {id : ℕ} (hid : id = (splitSegment segment).1.id ∨ id = (splitSegment segment).2.id) :
    id < 2 ^ 32 ∧ segment.has id ∧ jsAnd id (segment.mask * 2 + 1) = (id : ℤ) := by
  obtain ⟨hv₁, hv₂⟩ := splitSegment_valid hs hmask
  obtain ⟨level, -, -, hle⟩ := hs
  rcases hid with rfl | rfl
  · exact ⟨id_lt hv₁, (splitSegment_has hle _).mpr (Or.inl hv₁.has_id),
      (jsAnd_eq_iff_has hv₁ (id_lt hv₁)).mpr hv₁.has_id⟩
  · exact ⟨id_lt hv₂, (splitSegment_has hle _).mpr (Or.inr hv₂.has_id),
      (jsAnd_eq_iff_has hv₂ (id_lt hv₂)).mpr hv₂.has_id⟩

/-- A segment in one piece or two had got furthest with one of its hashes. -/
theorem reachedBy_spec {segment : Segment} (hs : segment.Valid) {token : TrackingToken K}
    (h : TokenOk segment token) :
    ∃ reached, reachedBy token = globalSequence reached ∧
      (∀ hash < 2 ^ 32, segment.has hash → reachOf token hash ≤ reached) ∧
      ∃ hash < 2 ^ 32, segment.has hash ∧ reachOf token hash = reached := by
  cases h with
  | plain n =>
      exact ⟨n, rfl, fun _ _ _ => le_rfl, segment.id, id_lt hs, hs.has_id, rfl⟩
  | halves a b na nb hmask hids =>
      have hhalf : ∀ hash < 2 ^ 32, segment.has hash →
          jsAnd hash (segment.mask * 2 + 1) = (a : ℤ) ∨
            jsAnd hash (segment.mask * 2 + 1) = (b : ℤ) := by
        intro hash hh hhas
        rcases hids with ⟨rfl, rfl⟩ | ⟨rfl, rfl⟩
        · exact half_of_hash hs hmask hh hhas
        · exact (half_of_hash hs hmask hh hhas).symm
      obtain ⟨ha, hb, hab⟩ : (a = (splitSegment segment).1.id ∨ a = (splitSegment segment).2.id) ∧
          (b = (splitSegment segment).1.id ∨ b = (splitSegment segment).2.id) ∧ (b : ℤ) ≠ a := by
        rcases hids with ⟨rfl, rfl⟩ | ⟨rfl, rfl⟩
        · exact ⟨Or.inl rfl, Or.inr rfl, by simp only [splitSegment]; omega⟩
        · exact ⟨Or.inr rfl, Or.inl rfl, by simp only [splitSegment]; omega⟩
      refine ⟨max na nb, ?_, ?_, ?_⟩
      · by_cases hle : nb ≤ na
        · rw [max_eq_left hle]
          exact if_pos hle
        · rw [max_eq_right (Nat.le_of_not_le hle)]
          exact if_neg hle
      · intro hash hh hhas
        rw [reachOf_merged _ _ _ (hhalf hash hh hhas)]
        split_ifs
        · exact le_max_left _ _
        · exact le_max_right _ _
      · rcases le_total nb na with hle | hle
        · obtain ⟨hlt, hhas, hself⟩ := half_id hs hmask ha
          refine ⟨a, hlt, hhas, ?_⟩
          rw [reachOf_merged _ _ _ (Or.inl hself), if_pos hself, max_eq_left hle]
          rfl
        · obtain ⟨hlt, hhas, hself⟩ := half_id hs hmask hb
          refine ⟨b, hlt, hhas, ?_⟩
          rw [reachOf_merged _ _ _ (Or.inr hself), if_neg (by rw [hself]; exact hab),
            max_eq_right hle]
          rfl

/-! ## Looking at a state with the replays left out -/

def settledRow (row : Row K) : Row K := { row with token := row.token.map settle }

/-- The deliveries that are not replays. -/
def firsts (deliveries : List (Delivery K E)) : List (SequencedEvent K E) :=
  (deliveries.filter fun d => !d.isReplay).map (·.event)

def settled (s : State K E) : SplitMerge.State K E where
  log := s.base.log
  head := s.base.head
  rows := s.base.rows.map settledRow
  delivered := firsts s.deliveries

theorem settledRow_tokenNow (row : Row K) : (settledRow row).tokenNow = settle row.tokenNow := by
  obtain ⟨segment, token⟩ := row
  cases token with
  | none => rfl
  | some token => rfl

theorem mem_firsts {deliveries : List (Delivery K E)} {e : SequencedEvent K E} :
    e ∈ firsts deliveries ↔ ∃ d ∈ deliveries, d.isReplay = false ∧ d.event = e := by
  simp only [firsts, List.mem_map, List.mem_filter, Bool.not_eq_true', and_assoc]

theorem firsts_append (old new : List (Delivery K E)) :
    firsts (old ++ new) = firsts old ++ firsts new := by
  simp only [firsts, List.filter_append, List.map_append]

theorem settled_setToken (rows : List (Row K)) (id : ℕ) (token : TrackingToken K) :
    (setToken rows id token).map settledRow =
      setToken (rows.map settledRow) id (settle token) := by
  simp only [setToken, List.map_map]
  apply List.map_congr_left
  intro row _
  simp only [Function.comp_apply]
  by_cases hid : row.segment.id = id
  · have hsettled : (settledRow row).segment.id = id := hid
    rw [if_pos hid, if_pos hsettled]
    rfl
  · have hsettled : (settledRow row).segment.id ≠ id := hid
    rw [if_neg hid, if_neg hsettled]

theorem segmentsNow_settled (s : State K E) : segmentsNow (settled s) = segmentsNow s.base := by
  simp only [segmentsNow, settled, List.map_map]
  rfl

theorem rowOf_settled (s : State K E) (id : ℕ) :
    rowOf (settled s) id = (rowOf s.base id).map settledRow := by
  simp only [rowOf, settled, List.find?_map]
  rfl

/-! ## The invariant -/

/-- The chain of a hash whose segment is replaying up to `reached`. -/
structure ChainOk (cfg : Config E I) (log : Log K E) (hash reached : ℕ) (chain : Chain K E) :
    Prop where
  reached_eq : chain.reached = reached
  below : ∀ e ∈ chain.before, ofHash cfg hash e = true → pastPosition e ≤ reached
  complete : ∀ e ∈ log, ofHash cfg hash e = true → pastPosition e ≤ reached → e ∈ chain.before

/-- Either the chains of a row's hashes are over, or its token says where they began. -/
inductive RowOk (cfg : Config E I) (log : Log K E) (chains : ℕ → Chain K E) (row : Row K) : Prop
  | arrived (htoken : row.tokenNow.isReplayToken = false)
      (hover : ∀ hash < 2 ^ 32, row.segment.has hash →
        (chains hash).reached ≤ reachOf row.tokenNow hash) : RowOk cfg log chains row
  | behind (reached current : ℕ) (htoken : row.tokenNow = replayTo reached current)
      (hlt : current < reached)
      (hchains : ∀ hash < 2 ^ 32, row.segment.has hash →
        ChainOk cfg log hash reached (chains hash)) : RowOk cfg log chains row

structure ReplayInv (cfg : Config E I) (s : State K E) : Prop where
  settled : SplitMergeInv cfg (settled s)
  events : s.deliveries.map (·.event) = s.base.delivered
  known : ∀ e ∈ s.base.delivered, e ∈ firsts s.deliveries
  rows : ∀ row ∈ s.base.rows, RowOk cfg s.base.log s.chains row
  truthful : ∀ d ∈ s.deliveries, d.Truthful

theorem RowOk.replayTo {cfg : Config E I} {log : Log K E} {chains : ℕ → Chain K E} {row : Row K}
    {reached n : ℕ} (htoken : row.tokenNow = replayTo reached n)
    (hchains : ∀ hash < 2 ^ 32, row.segment.has hash →
      ChainOk cfg log hash reached (chains hash)) : RowOk cfg log chains row := by
  by_cases hn : reached ≤ n
  · have hplain : row.tokenNow = globalSequence n := by
      rw [htoken]
      exact if_pos hn
    refine .arrived (by rw [hplain]; rfl) ?_
    intro hash hh hhas
    rw [hplain, (hchains hash hh hhas).reached_eq]
    exact hn
  · exact .behind reached n htoken (Nat.lt_of_not_le hn) hchains

section Inv
variable {cfg : Config E I} {s t : State K E}

theorem ReplayInv.row (h : ReplayInv cfg s) {row : Row K} (hrow : row ∈ s.base.rows) :
    row.segment.Valid ∧ TokenOk row.segment (settle row.tokenNow) := by
  have hmem : settledRow row ∈ (Replay.settled s).rows := List.mem_map_of_mem hrow
  have hvalid : (settledRow row).segment.Valid := h.settled.valid hmem
  refine ⟨hvalid, ?_⟩
  rw [← settledRow_tokenNow]
  exact h.settled.tokens _ hmem

/-- What a segment had got past was delivered, and only that. -/
theorem ReplayInv.delivered_iff (h : ReplayInv cfg s) {row : Row K} (hrow : row ∈ s.base.rows)
    {e : SequencedEvent K E} (he : e ∈ s.base.log) (hhandled : cfg.handled e.event = true)
    (hhas : row.segment.has (cfg.hashOf e.event)) :
    e ∈ s.base.delivered ↔ pastPosition e ≤ reachOf (settle row.tokenNow) (cfg.hashOf e.event) := by
  have hmem : settledRow row ∈ (Replay.settled s).rows := List.mem_map_of_mem hrow
  have hiff := h.settled.delivered_iff hmem he hhandled hhas
  rw [settledRow_tokenNow] at hiff
  rw [← hiff]
  constructor
  · exact h.known e
  · intro hfirst
    obtain ⟨d, hd, -, rfl⟩ := mem_firsts.mp hfirst
    rw [← h.events]
    exact List.mem_map_of_mem hd

/-- No segment had got past the head. -/
theorem ReplayInv.reached_le_head (h : ReplayInv cfg s) {row : Row K} (hrow : row ∈ s.base.rows)
    {reached : ℕ} (hsettle : settle row.tokenNow = globalSequence reached) :
    reached ≤ s.base.head := by
  have hvalid := (h.row hrow).1
  have hbound := h.settled.bounded (settledRow row) (List.mem_map_of_mem hrow) row.segment.id
    (id_lt hvalid) hvalid.has_id
  rwa [settledRow_tokenNow, hsettle] at hbound

/-- The chains of a row go no further than the row had got. -/
theorem RowOk.reached_le {log : Log K E} {chains : ℕ → Chain K E} {row : Row K}
    (h : RowOk cfg log chains row) {hash : ℕ} (hh : hash < 2 ^ 32) (hhas : row.segment.has hash) :
    (chains hash).reached ≤ reachOf (settle row.tokenNow) hash := by
  cases h with
  | arrived htoken hover =>
      rw [settle_of_not_replay htoken]
      exact hover hash hh hhas
  | behind reached current htoken hlt hchains =>
      rw [htoken, settle_replayTo, (hchains hash hh hhas).reached_eq]
      exact le_max_left _ _

/-! ## One segment moves on -/

/-- A row's token moves on: what is delivered and no replay is what lies in between. -/
theorem inv_move (h : ReplayInv cfg s) {row : Row K} (hrow : row ∈ s.base.rows)
    {token : TrackingToken K} {new : List (Delivery K E)}
    (hok : TokenOk row.segment (settle token))
    (hnew : ∀ d ∈ new, d.event ∈ s.base.log ∧ cfg.handled d.event.event = true ∧
      row.segment.has (cfg.hashOf d.event.event))
    (hmoves : ∀ hash < 2 ^ 32, row.segment.has hash →
      reachOf (settle row.tokenNow) hash ≤ reachOf (settle token) hash ∧
        reachOf (settle token) hash ≤ s.base.head ∧
        (firsts new).filter (ofHash cfg hash) =
          window pastPosition (ofHash cfg hash) (reachOf (settle row.tokenNow) hash)
            (reachOf (settle token) hash) s.base.log)
    (hrowOk : ∀ r : Row K, r.segment = row.segment → r.tokenNow = token →
      RowOk cfg s.base.log s.chains r)
    (hknown : ∀ d ∈ new, d.isReplay = true → d.event ∈ s.base.delivered)
    (htruthful : ∀ d ∈ new, d.Truthful) :
    ReplayInv cfg { s with
      base := { s.base with
        rows := setToken s.base.rows row.segment.id token
        delivered := s.base.delivered ++ new.map (·.event) }
      deliveries := s.deliveries ++ new } where
  settled := by
    have hmem : settledRow row ∈ (Replay.settled s).rows := List.mem_map_of_mem hrow
    have hfirsts : ∀ e ∈ firsts new, e ∈ s.base.log ∧ cfg.handled e.event = true ∧
        row.segment.has (cfg.hashOf e.event) := by
      intro e he
      obtain ⟨d, hd, -, rfl⟩ := mem_firsts.mp he
      exact hnew d hd
    have hset := inv_setToken h.settled hmem hok hfirsts (by rwa [settledRow_tokenNow])
    have heq : Replay.settled { s with
        base := { s.base with
          rows := setToken s.base.rows row.segment.id token
          delivered := s.base.delivered ++ new.map (·.event) }
        deliveries := s.deliveries ++ new } =
        { Replay.settled s with
          rows := setToken (Replay.settled s).rows row.segment.id (settle token)
          delivered := (Replay.settled s).delivered ++ firsts new } := by
      simp only [Replay.settled, settled_setToken, firsts_append]
    rw [heq]
    exact hset
  events := by
    rw [List.map_append, h.events]
  known := by
    intro e he
    rw [firsts_append]
    rcases List.mem_append.mp he with he | he
    · exact List.mem_append_left _ (h.known e he)
    · obtain ⟨d, hd, rfl⟩ := List.mem_map.mp he
      cases hreplay : d.isReplay with
      | false => exact List.mem_append_right _ (mem_firsts.mpr ⟨d, hd, hreplay, rfl⟩)
      | true => exact List.mem_append_left _ (h.known _ (hknown d hd hreplay))
  rows := by
    intro r hr
    obtain ⟨old, hold, hseg, ⟨hid, htok⟩ | ⟨-, rfl⟩⟩ := mem_setToken hr
    · apply hrowOk
      · have hsame := h.settled.byId (settledRow old) (List.mem_map_of_mem hold) (settledRow row)
          (List.mem_map_of_mem hrow) hid
        have hsegs : (settledRow old).segment = (settledRow row).segment := by rw [hsame]
        exact hseg.trans hsegs
      · rw [Row.tokenNow, htok, Option.getD_some]
    · exact h.rows r hold
  truthful := by
    intro d hd
    rcases List.mem_append.mp hd with hd | hd
    · exact h.truthful d hd
    · exact htruthful d hd

end Inv

/-! ## Batches -/

section Deliver
variable {hashOf : E → ℕ} {chains : ℕ → Chain K E} {batch : List (SequencedEvent K E)}

theorem past_of_plain {e : SequencedEvent K E} (h : e.token = none) :
    e.past = globalSequence (pastPosition e) := by
  simp only [SequencedEvent.past, h, Option.getD_none, pastPosition]

variable (chains) in
/-- The flag is computed beside the batch and changes nothing in it. -/
theorem deliver_events (token : TrackingToken K) :
    (deliver hashOf chains token batch).map (·.event) =
      (SegmentWorker.prepare hashOf token batch).1 := by
  induction batch generalizing token with
  | nil => rfl
  | cons e batch ih =>
      simp only [deliver, SegmentWorker.prepare]
      split_ifs
      · rw [List.map_cons, ih]
      · exact ih _

theorem mem_deliver (token : TrackingToken K) :
    ∀ d ∈ deliver hashOf chains token batch,
      d.event ∈ batch ∧ d.chain = chains (hashOf d.event.event) := by
  induction batch generalizing token with
  | nil => exact fun d hd => absurd hd List.not_mem_nil
  | cons e batch ih =>
      have hrest : ∀ d ∈ deliver hashOf chains (advanceTokenTo token e.past) batch,
          d.event ∈ e::batch ∧ d.chain = chains (hashOf d.event.event) := by
        intro d hd
        obtain ⟨hmem, hchain⟩ := ih _ d hd
        exact ⟨List.mem_cons_of_mem e hmem, hchain⟩
      intro d hd
      simp only [deliver] at hd
      split_ifs at hd
      · rcases List.mem_cons.mp hd with rfl | hd
        · exact ⟨List.mem_cons_self, rfl⟩
        · exact hrest d hd
      · exact hrest d hd

/-- A segment that is not replaying delivers nothing as a replay, and no hash of it
falls back. -/
theorem deliver_over {segment : Segment} (hs : segment.Valid) (hhash : ∀ e, hashOf e < 2 ^ 32)
    {token : TrackingToken K} (hok : TokenOk segment token) (hord : Ordered pastPosition batch)
    (hplain : ∀ e ∈ batch, e.token = none)
    (hhas : ∀ e ∈ batch, segment.has (hashOf e.event))
    (hahead : ∀ e ∈ batch, token.position < pastPosition e) :
    ∀ d ∈ deliver hashOf chains token batch,
      d.isReplay = false ∧ reachOf token (hashOf d.event.event) ≤ d.position := by
  induction batch generalizing token with
  | nil => exact fun d hd => absurd hd List.not_mem_nil
  | cons e batch ih =>
      obtain ⟨hfirst, hrest⟩ := List.pairwise_cons.mp hord
      have hlo := hahead e List.mem_cons_self
      have hpast := past_of_plain (hplain e List.mem_cons_self)
      obtain ⟨hok', hpos', hreach'⟩ := hok.advance hlo
      rw [← hpast] at hok' hpos' hreach'
      have hlater := ih hok' hrest (fun x hx => hplain x (List.mem_cons_of_mem e hx))
        (fun x hx => hhas x (List.mem_cons_of_mem e hx)) (fun x hx => by
          rw [hpos']; exact hfirst x hx)
      have hdeliver : ∀ d ∈ deliver hashOf chains (advanceTokenTo token e.past) batch,
          d.isReplay = false ∧ reachOf token (hashOf d.event.event) ≤ d.position := by
        intro d hd
        obtain ⟨hflag, hle⟩ := hlater d hd
        refine ⟨hflag, ?_⟩
        have hmem := (mem_deliver _ d hd).1
        rw [hreach' hs _ (hhash _) (hhas _ (List.mem_cons_of_mem e hmem))] at hle
        exact (le_max_left _ _).trans hle
      intro d hd
      simp only [deliver] at hd
      split_ifs at hd
      · rcases List.mem_cons.mp hd with rfl | hd
        · refine ⟨?_, le_rfl⟩
          cases hok with
          | plain n => rfl
          | halves a b na nb hmask hids => rfl
        · exact hdeliver d hd
      · exact hdeliver d hd

variable (hashOf chains) in
/-- A replaying segment delivers everything, and as a replay what it had got past. -/
theorem deliver_behind (reached : ℕ) {n : ℕ} (hord : Ordered pastPosition batch)
    (hplain : ∀ e ∈ batch, e.token = none) (hahead : ∀ e ∈ batch, n < pastPosition e) :
    (deliver hashOf chains (replayTo reached n) batch).map (·.event) = batch ∧
      (∀ d ∈ deliver hashOf chains (replayTo reached n) batch,
        d.isReplay = decide (pastPosition d.event ≤ reached)) ∧
      (SegmentWorker.prepare hashOf (replayTo reached n) batch).2 =
        replayTo reached (batch.foldl (fun _ e => pastPosition e) n) := by
  induction batch generalizing n with
  | nil => exact ⟨rfl, fun d hd => absurd hd List.not_mem_nil, rfl⟩
  | cons e batch ih =>
      obtain ⟨hfirst, hrest⟩ := List.pairwise_cons.mp hord
      have hlo := hahead e List.mem_cons_self
      have hpast := past_of_plain (hplain e List.mem_cons_self)
      obtain ⟨hevents, hflags, hend⟩ := ih (n := pastPosition e) hrest
        (fun x hx => hplain x (List.mem_cons_of_mem e hx)) hfirst
      have hfresh : SegmentWorker.isFresh hashOf (replayTo reached n) e = true := by
        simp only [SegmentWorker.isFresh, isMergedToken_replayTo, Bool.false_and, Bool.not_false]
      have hflag : replaying (replayTo reached n) e = decide (pastPosition e ≤ reached) := by
        unfold replayTo
        by_cases hn : reached ≤ n
        · rw [if_pos hn]
          exact (decide_eq_false (Nat.not_le_of_lt (hn.trans_lt hlo))).symm
        · rw [if_neg hn]
          simp only [replaying, hpast, covers_globalSequence]
      simp only [deliver, SegmentWorker.prepare, hfresh, if_true, hpast,
        advanceTokenTo_replayTo hlo, List.map_cons, hevents, List.foldl_cons]
      refine ⟨trivial, ?_, hend⟩
      intro d hd
      rcases List.mem_cons.mp hd with rfl | hd
      · exact hflag
      · exact hflags d hd

end Deliver

section Steps
variable {cfg : Config E I} {s t : State K E}

/-- A batch of a segment that is not replaying. -/
theorem inv_batch_over (h : ReplayInv cfg s) {row : Row K} (hrow : row ∈ s.base.rows)
    (htoken : row.tokenNow.isReplayToken = false)
    (hover : ∀ hash < 2 ^ 32, row.segment.has hash →
      (s.chains hash).reached ≤ reachOf row.tokenNow hash)
    {hi : ℕ} {batch : List (SequencedEvent K E)} (hhi : hi ≤ s.base.head)
    (hwindow : window pastPosition (accepts cfg row.segment) row.tokenNow.position hi s.base.log =
      batch) :
    ReplayInv cfg { s with
      base := { s.base with
        rows := setToken s.base.rows row.segment.id
          (SegmentWorker.prepare cfg.hashOf row.tokenNow batch).2
        delivered := s.base.delivered ++
          (deliver cfg.hashOf s.chains row.tokenNow batch).map (·.event) }
      deliveries := s.deliveries ++ deliver cfg.hashOf s.chains row.tokenNow batch } := by
  obtain ⟨hvalid, hok⟩ := h.row hrow
  rw [settle_of_not_replay htoken] at hok
  have hmember : ∀ e ∈ batch, e ∈ s.base.log ∧ row.tokenNow.position < pastPosition e ∧
      cfg.handled e.event = true ∧ row.segment.has (cfg.hashOf e.event) := by
    intro e he
    rw [← hwindow] at he
    obtain ⟨hel, hlo, -, hacc⟩ := mem_window.mp he
    exact ⟨hel, hlo, (accepts_iff hvalid).mp hacc⟩
  have hordered : Ordered pastPosition batch := hwindow ▸ h.settled.ordered.window _ _ _
  obtain ⟨hend, -, hmoves⟩ :=
    prepare_spec hvalid h.settled.ordered h.settled.plain batch hok hwindow
  have hflags : ∀ d ∈ deliver cfg.hashOf s.chains row.tokenNow batch,
      d.isReplay = false ∧ reachOf row.tokenNow (cfg.hashOf d.event.event) ≤ d.position :=
    deliver_over hvalid cfg.hashOf_lt hok hordered
      (fun e he => h.settled.plain e (hmember e he).1) (fun e he => (hmember e he).2.2.2)
      (fun e he => (hmember e he).2.1)
  have hfirsts : firsts (deliver cfg.hashOf s.chains row.tokenNow batch) =
      (SegmentWorker.prepare cfg.hashOf row.tokenNow batch).1 := by
    rw [← deliver_events s.chains, firsts]
    congr 1
    apply List.filter_eq_self.mpr
    intro d hd
    rw [(hflags d hd).1]
    rfl
  have hsettle := settle_of_not_replay (TokenOk.not_replay hend)
  apply inv_move h hrow
  · rw [hsettle]
    exact hend
  · intro d hd
    obtain ⟨hel, -, hacc⟩ := hmember d.event (mem_deliver _ d hd).1
    exact ⟨hel, hacc⟩
  · intro hash hh hhas
    obtain ⟨hmono, hbound, hfilter⟩ := hmoves hash hh hhas
    have hmem : settledRow row ∈ (settled s).rows := List.mem_map_of_mem hrow
    have hhead := h.settled.bounded (settledRow row) hmem hash hh hhas
    rw [settledRow_tokenNow, settle_of_not_replay htoken] at hhead
    rw [hsettle, settle_of_not_replay htoken, hfirsts]
    exact ⟨hmono, hbound.trans (max_le hhead hhi), hfilter⟩
  · intro r hseg htok
    refine .arrived (by rw [htok]; exact TokenOk.not_replay hend) ?_
    intro hash hh hhas
    rw [hseg] at hhas
    rw [htok]
    exact (hover hash hh hhas).trans (hmoves hash hh hhas).1
  · intro d hd hreplay
    rw [(hflags d hd).1] at hreplay
    cases hreplay
  · intro d hd
    obtain ⟨hflag, hle⟩ := hflags d hd
    obtain ⟨hmem, hchain⟩ := mem_deliver _ d hd
    constructor
    · intro hreplay
      rw [hflag] at hreplay
      cases hreplay
    · intro _ hbehind
      have hreached := hover _ (cfg.hashOf_lt d.event.event) (hmember d.event hmem).2.2.2
      rw [hchain] at hbehind
      omega

/-- What is no replay of a batch lies past where the segment had got to. -/
theorem firsts_behind {deliveries : List (Delivery K E)} {batch : List (SequencedEvent K E)}
    {reached : ℕ} (hevents : deliveries.map (·.event) = batch)
    (hflags : ∀ d ∈ deliveries, d.isReplay = decide (pastPosition d.event ≤ reached)) :
    firsts deliveries = batch.filter fun e => decide (reached < pastPosition e) := by
  rw [← hevents, List.filter_map, firsts]
  congr 1
  apply List.filter_congr
  intro d hd
  rw [hflags d hd, Function.comp_apply, ← decide_not]
  exact decide_eq_decide.mpr Nat.not_le

/-- A batch of a replaying segment. -/
theorem inv_batch_behind (h : ReplayInv cfg s) {row : Row K} (hrow : row ∈ s.base.rows)
    {reached current : ℕ} (htoken : row.tokenNow = replayTo reached current)
    (hlt : current < reached)
    (hchains : ∀ hash < 2 ^ 32, row.segment.has hash →
      ChainOk cfg s.base.log hash reached (s.chains hash))
    {init : List (SequencedEvent K E)} {last : SequencedEvent K E} (hlast : last ∈ s.base.log)
    (hwindow : window pastPosition (accepts cfg row.segment) current
      (pastPosition last) s.base.log =
      init ++ [last]) :
    ReplayInv cfg { s with
      base := { s.base with
        rows := setToken s.base.rows row.segment.id
          (SegmentWorker.prepare cfg.hashOf row.tokenNow (init ++ [last])).2
        delivered := s.base.delivered ++
          (deliver cfg.hashOf s.chains row.tokenNow (init ++ [last])).map (·.event) }
      deliveries :=
        s.deliveries ++ deliver cfg.hashOf s.chains row.tokenNow (init ++ [last]) } := by
  obtain ⟨hvalid, -⟩ := h.row hrow
  have hsettle : settle row.tokenNow = globalSequence reached := by
    rw [htoken, settle_replayTo, max_eq_left hlt.le]
  have hmember : ∀ e ∈ init ++ [last], e ∈ s.base.log ∧ current < pastPosition e ∧
      cfg.handled e.event = true ∧ row.segment.has (cfg.hashOf e.event) := by
    intro e he
    rw [← hwindow] at he
    obtain ⟨hel, hlo, -, hacc⟩ := mem_window.mp he
    exact ⟨hel, hlo, (accepts_iff hvalid).mp hacc⟩
  have hordered : Ordered pastPosition (init ++ [last]) := hwindow ▸ h.settled.ordered.window _ _ _
  have hhead := h.reached_le_head hrow hsettle
  obtain ⟨hevents, hflags, hend⟩ := deliver_behind cfg.hashOf s.chains reached hordered
    (fun e he => h.settled.plain e (hmember e he).1) (fun e he => (hmember e he).2.1)
  rw [List.foldl_append, List.foldl_cons, List.foldl_nil, ← htoken] at hend
  rw [← htoken] at hevents hflags
  have hfirsts := firsts_behind hevents hflags
  have hin : ∀ d ∈ deliver cfg.hashOf s.chains row.tokenNow (init ++ [last]),
      d.event ∈ s.base.log ∧ cfg.handled d.event.event = true ∧
        row.segment.has (cfg.hashOf d.event.event) := by
    intro d hd
    obtain ⟨hel, -, hacc⟩ := hmember d.event (mem_deliver _ d hd).1
    exact ⟨hel, hacc⟩
  rw [hend]
  apply inv_move h hrow
  · rw [settle_replayTo]
    exact .plain _
  · exact hin
  · intro hash hh hhas
    rw [settle_replayTo, hsettle, hfirsts]
    refine ⟨le_max_left _ _, max_le hhead (h.settled.below last hlast), ?_⟩
    have hfiltered : Ordered pastPosition (((init ++ [last]).filter fun e =>
        decide (reached < pastPosition e)).filter (ofHash cfg hash)) :=
      (hordered.filter _).filter _
    apply hfiltered.ext (h.settled.ordered.window _ _ _)
    intro e
    rw [mem_window, List.mem_filter, List.mem_filter, ← hwindow, mem_window, decide_eq_true_eq]
    constructor
    · rintro ⟨⟨⟨hel, -, hle, -⟩, hpast⟩, hof⟩
      exact ⟨hel, hpast, hle.trans (le_max_right _ _), hof⟩
    · rintro ⟨hel, hpast, hle, hof⟩
      have hpast' : reached < pastPosition e := hpast
      have hle' : pastPosition e ≤ pastPosition last :=
        (le_max_iff.mp hle).resolve_left (Nat.not_le_of_lt hpast)
      exact ⟨⟨⟨hel, hlt.trans hpast', hle', accepts_of_ofHash hvalid hhas hof⟩, hpast⟩, hof⟩
  · intro r hseg htok
    exact .replayTo htok (hseg ▸ hchains)
  · intro d hd hreplay
    obtain ⟨hel, hhandled, hhas⟩ := hin d hd
    rw [h.delivered_iff hrow hel hhandled hhas, hsettle]
    rw [hflags d hd] at hreplay
    exact of_decide_eq_true hreplay
  · intro d hd
    obtain ⟨hel, hhandled, hhas⟩ := hin d hd
    have hchain := hchains _ (cfg.hashOf_lt d.event.event) hhas
    have hof : ofHash cfg (cfg.hashOf d.event.event) d.event = true :=
      ofHash_iff.mpr ⟨rfl, hhandled⟩
    rw [Delivery.Truthful, hflags d hd, (mem_deliver _ d hd).2, decide_eq_true_eq]
    exact ⟨hchain.complete d.event hel hof, fun hbefore _ => hchain.below d.event hbefore hof⟩

theorem inv_batch (h : ReplayInv cfg s) {row : Row K} (hrow : row ∈ s.base.rows) {n : ℕ}
    (hne : (asked s.base.log row.tokenNow.position (accepts cfg row.segment)).take n ≠ []) :
    ReplayInv cfg { s with
      base := { s.base with
        rows := setToken s.base.rows row.segment.id (SegmentWorker.prepare cfg.hashOf row.tokenNow
          ((asked s.base.log row.tokenNow.position (accepts cfg row.segment)).take n)).2
        delivered := s.base.delivered ++ (deliver cfg.hashOf s.chains row.tokenNow
          ((asked s.base.log row.tokenNow.position (accepts cfg row.segment)).take n)).map
            (·.event) }
      deliveries := s.deliveries ++ deliver cfg.hashOf s.chains row.tokenNow
        ((asked s.base.log row.tokenNow.position (accepts cfg row.segment)).take n) } := by
  have hordered : Ordered pastPosition s.base.log := h.settled.ordered
  obtain ⟨init, last, hbatch, hlast, hwindow⟩ := batch_window hordered hne
  cases h.rows row hrow with
  | arrived htoken hover =>
      exact inv_batch_over h hrow htoken hover (h.settled.below last hlast) hwindow
  | behind reached current htoken hlt hchains =>
      have hpos : row.tokenNow.position = current := by
        rw [htoken, replayTo_of_lt hlt]
        rfl
      rw [hbatch] at hwindow ⊢
      rw [hpos] at hwindow
      exact inv_batch_behind h hrow htoken hlt hchains hlast hwindow

theorem inv_quiet (h : ReplayInv cfg s) {row : Row K} (hrow : row ∈ s.base.rows) {n : ℕ}
    (hlt : row.tokenNow.position < n) (hhead : n ≤ s.base.head)
    (hnone : ∀ e ∈ asked s.base.log row.tokenNow.position (accepts cfg row.segment),
      n ≤ e.sequence) :
    ReplayInv cfg { s with
      base := { s.base with
        rows := setToken s.base.rows row.segment.id
          (advanceTokenTo row.tokenNow (globalSequence n)) } } := by
  obtain ⟨hvalid, hok⟩ := h.row hrow
  have hmove := @inv_move K E I cfg s h row hrow (advanceTokenTo row.tokenNow (globalSequence n)) []
  simp only [List.map_nil, List.append_nil] at hmove
  have hnil : ∀ {p : Delivery K E → Prop}, ∀ d ∈ ([] : List (Delivery K E)), p d :=
    fun d hd => absurd hd List.not_mem_nil
  cases h.rows row hrow with
  | arrived htoken hover =>
      rw [settle_of_not_replay htoken] at hok hmove
      have hmem : settledRow row ∈ (settled s).rows := List.mem_map_of_mem hrow
      have hnow : (settledRow row).tokenNow = row.tokenNow := by
        rw [settledRow_tokenNow, settle_of_not_replay htoken]
      have hmoves : ∀ hash < 2 ^ 32, row.segment.has hash → _ := fun hash hh hhas =>
        quiet_moves h.settled hmem (by rwa [hnow]) hhead (by rwa [hnow]) hh hhas
      rw [hnow] at hmoves
      have hend := (hok.advance hlt).1
      rw [settle_of_not_replay (TokenOk.not_replay hend)] at hmove
      refine hmove hend hnil ?_ ?_ hnil hnil
      · intro hash hh hhas
        obtain ⟨hmono, hbound, hempty⟩ := hmoves hash hh hhas
        exact ⟨hmono, hbound, hempty.symm⟩
      · intro r hseg htok
        refine .arrived (by rw [htok]; exact TokenOk.not_replay hend) ?_
        intro hash hh hhas
        rw [hseg] at hhas
        rw [htok]
        exact (hover hash hh hhas).trans (hmoves hash hh hhas).1
  | behind reached current htoken hback hchains =>
      have hsettle : settle row.tokenNow = globalSequence reached := by
        rw [htoken, settle_replayTo, max_eq_left hback.le]
      have hpos : row.tokenNow.position = current := by
        rw [htoken, replayTo_of_lt hback]
        rfl
      rw [hpos] at hlt hnone
      have hend : advanceTokenTo row.tokenNow (globalSequence n) = replayTo reached n := by
        rw [htoken, advanceTokenTo_replayTo hlt]
      rw [hsettle, hend, settle_replayTo] at hmove
      rw [hend]
      refine hmove (.plain _) hnil ?_ ?_ hnil hnil
      · intro hash hh hhas
        refine ⟨le_max_left _ _, max_le (h.reached_le_head hrow hsettle) hhead, ?_⟩
        symm
        apply window_eq_nil
        intro e he hof hlo
        have hasked : e ∈ asked s.base.log current (accepts cfg row.segment) := by
          rw [asked_eq_beyond, mem_beyond]
          exact ⟨he, hback.trans hlo, accepts_of_ofHash hvalid hhas hof⟩
        exact max_lt hlo (Nat.lt_succ_of_le (hnone e hasked))
      · intro r hseg htok
        exact .replayTo htok (hseg ▸ hchains)

theorem inv_grow (h : ReplayInv cfg s) {e : SequencedEvent K E} (he : s.base.head ≤ e.sequence)
    (htok : e.token = none) :
    ReplayInv cfg { s with
      base := { s.base with log := s.base.log ++ [e], head := e.sequence + 1 } } := by
  refine ⟨SplitMerge.inv_grow h.settled he htok, h.events, h.known, ?_, h.truthful⟩
  intro row hrow
  cases h.rows row hrow with
  | arrived htoken hover => exact .arrived htoken hover
  | behind reached current htoken hlt hchains =>
      refine .behind reached current htoken hlt ?_
      intro hash hh hhas
      obtain ⟨hreached, hbelow, hcomplete⟩ := hchains hash hh hhas
      refine ⟨hreached, hbelow, ?_⟩
      intro a ha hof hle
      rcases List.mem_append.mp ha with ha | ha
      · exact hcomplete a ha hof hle
      · -- no segment had got to the new event
        have hsettle : settle row.tokenNow = globalSequence reached := by
          rw [htoken, settle_replayTo, max_eq_left hlt.le]
        have hhead := h.reached_le_head hrow hsettle
        rw [List.mem_singleton.mp ha] at hle
        exact absurd (hle.trans (hhead.trans he)) (Nat.not_succ_le_self _)

/-! ## Splits and merges -/

theorem RowOk.narrow {log : Log K E} {chains : ℕ → Chain K E} {row r : Row K}
    (h : RowOk cfg log chains row) (htok : r.tokenNow = row.tokenNow)
    (hsub : ∀ hash, r.segment.has hash → row.segment.has hash) : RowOk cfg log chains r := by
  cases h with
  | arrived htoken hover =>
      refine .arrived (by rw [htok, htoken]) ?_
      intro hash hh hhas
      rw [htok]
      exact hover hash hh (hsub hash hhas)
  | behind reached current htoken hlt hchains =>
      exact .behind reached current (by rw [htok, htoken]) hlt fun hash hh hhas =>
        hchains hash hh (hsub hash hhas)

/-- The rows are cut anew: seen with the replays left out it is a cut of `SplitMerge`. -/
theorem inv_cut (h : ReplayInv cfg s) {rows : List (Row K)}
    (hcut : Recut (settled s).rows (rows.map settledRow))
    (hrows : ∀ r ∈ rows, RowOk cfg s.base.log s.chains r) :
    ReplayInv cfg { s with base := { s.base with rows := rows } } :=
  ⟨inv_recut h.settled hcut, h.events, h.known, hrows, h.truthful⟩

/-- Whether a token is merged does not depend on its replay. -/
theorem ReplayInv.isMergedToken_settle (h : ReplayInv cfg s) {row : Row K}
    (hrow : row ∈ s.base.rows) :
    (settle row.tokenNow).isMergedToken = row.tokenNow.isMergedToken := by
  cases h.rows row hrow with
  | arrived htoken hover => rw [settle_of_not_replay htoken]
  | behind reached current htoken hlt hchains =>
      rw [htoken, settle_replayTo, isMergedToken_replayTo]
      rfl

theorem settled_filter_map {rows : List (Row K)} {f g : Row K → Row K} (drop : ℕ)
    (hfg : ∀ r, settledRow (f r) = g (settledRow r)) :
    ((rows.filter (·.segment.id ≠ drop)).map f).map settledRow =
      ((rows.map settledRow).filter (·.segment.id ≠ drop)).map g := by
  rw [List.filter_map, List.map_map, List.map_map]
  apply List.map_congr_left
  intro r _
  exact hfg r

theorem split_settled (h : ReplayInv cfg s) {id : ℕ} {base : SplitMerge.State K E}
    (hs : split s.base id = some base) :
    split (settled s) id = some { settled s with rows := base.rows.map settledRow } ∧
      base = { s.base with rows := base.rows } := by
  unfold split at hs
  split at hs
  · rename_i segment row hfind hrowOf
    split_ifs at hs with hmerged
    cases hs
    refine ⟨?_, rfl⟩
    have hmerged' : (settledRow row).tokenNow.isMergedToken = false := by
      rw [settledRow_tokenNow, h.isMergedToken_settle (rowOf_some hrowOf).1]
      simpa using hmerged
    simp only [split, segmentsNow_settled, hfind, rowOf_settled, hrowOf, Option.map_some, hmerged',
      Bool.false_eq_true, if_false, Option.some.injEq]
    rw [List.map_append, settled_filter_map (g := fun r =>
      if r.segment.id = id then { r with segment := (splitSegment segment).1 } else r)]
    · rw [settledRow_tokenNow]
      rfl
    · exact fun r => apply_ite settledRow _ _ _
  · cases hs

theorem split_rows (h : ReplayInv cfg s) {id : ℕ} {base : SplitMerge.State K E}
    (hs : split s.base id = some base) :
    ∀ r ∈ base.rows, RowOk cfg s.base.log s.chains r := by
  unfold split at hs
  split at hs
  · rename_i segment row hfind hrowOf
    split_ifs at hs with hmerged
    cases hs
    obtain ⟨hrow, hrowid⟩ := rowOf_some hrowOf
    have hid : segment.id = id := by simpa using List.find?_some hfind
    -- every row of this id is the row of the segment
    have hsegment : ∀ q ∈ s.base.rows, q.segment.id = id → q.segment = segment := by
      intro q hq hqid
      have hmem : segment ∈ segmentsNow (settled s) := by
        rw [segmentsNow_settled]
        exact List.mem_of_find?_eq_some hfind
      obtain ⟨p, hp, rfl⟩ := (h.settled.mem_segmentsNow segment).mp hmem
      have hsame :=
        h.settled.byId (settledRow q) (List.mem_map_of_mem hq) p hp (hqid.trans hid.symm)
      rw [← hsame]
      rfl
    obtain ⟨level, -, -, hle⟩ := (h.row hrow).1
    have hhas := splitSegment_has hle
    rw [hsegment row hrow hrowid] at hhas
    intro r hr
    rcases List.mem_append.mp hr with hr | hr
    · obtain ⟨q, hq, rfl⟩ := List.mem_map.mp hr
      have hq := (List.mem_filter.mp hq).1
      split_ifs with hqid
      · refine (h.rows q hq).narrow rfl ?_
        intro hash hfirst
        rw [hsegment q hq hqid]
        exact (hhas hash).mpr (Or.inl hfirst)
      · exact h.rows q hq
    · rw [List.mem_singleton.mp hr]
      refine (h.rows row hrow).narrow rfl ?_
      intro hash hsecond
      rw [hsegment row hrow hrowid]
      exact (hhas hash).mpr (Or.inr hsecond)
  · cases hs

theorem inv_split (h : ReplayInv cfg s) {id : ℕ} {base : SplitMerge.State K E}
    (hfits : ∀ segment ∈ segmentsNow s.base, segment.id = id → segment.mask < 2 ^ 30)
    (hs : split s.base id = some base) : ReplayInv cfg { s with base := base } := by
  obtain ⟨hsettled, heq⟩ := split_settled h hs
  rw [← segmentsNow_settled] at hfits
  rw [heq]
  exact inv_cut h (split_recut h.settled hfits hsettled).1 (split_rows h hs)

/-- A merge of two segments in one piece gives the merge of their tokens. -/
theorem merge_settled {id : ℕ} {base : SplitMerge.State K E} (hs : merge s.base id = some base) :
    merge (settled s) id = some { settled s with rows := base.rows.map settledRow } ∧
      base = { s.base with rows := base.rows } ∧
      ∀ r ∈ base.rows, r ∈ s.base.rows ∨ r.tokenNow.isReplayToken = false := by
  unfold merge at hs
  split at hs
  · cases hs
  · rename_i segment hfind
    split_ifs at hs with hzero
    split at hs
    · cases hs
    · rename_i partner hpartner
      split at hs
      · rename_i row other hrowOf hotherOf
        split_ifs at hs with hbusy
        cases hs
        have hplain := hbusy
        simp only [Bool.or_eq_true, not_or, Bool.not_eq_true] at hplain
        have hnow : (settledRow row).tokenNow = row.tokenNow := by
          rw [settledRow_tokenNow, settle_of_not_replay hplain.1.1.1]
        have hnow' : (settledRow other).tokenNow = other.tokenNow := by
          rw [settledRow_tokenNow, settle_of_not_replay hplain.1.2]
        have htoken : (mergedToken segment.mask segment.id row.tokenNow partner.id
            other.tokenNow).isReplayToken = false := by
          unfold mergedToken
          split_ifs
          · exact hplain.1.1.1
          · rfl
        refine ⟨?_, rfl, ?_⟩
        · simp only [merge, segmentsNow_settled, hfind, if_neg hzero, hpartner, rowOf_settled,
            hrowOf, hotherOf, Option.map_some, hnow, hnow', if_neg hbusy, Option.some.injEq]
          rw [settled_filter_map (g := fun r => if r.segment.id = min segment.id partner.id then
            ⟨⟨min segment.id partner.id, (BitVec.ofNat 32 segment.mask >>> 1).toNat⟩,
              some (mergedToken segment.mask segment.id row.tokenNow partner.id other.tokenNow)⟩
            else r)]
          · rfl
          · intro r
            refine (apply_ite settledRow _ _ _).trans ?_
            rw [settledRow, Option.map_some, settle_of_not_replay htoken]
            rfl
        · intro r hr
          obtain ⟨q, hq, rfl⟩ := List.mem_map.mp hr
          split_ifs
          · exact Or.inr htoken
          · exact Or.inl (List.mem_filter.mp hq).1
      · cases hs

theorem inv_merge (h : ReplayInv cfg s) {id : ℕ} {base : SplitMerge.State K E}
    (hs : merge s.base id = some base) : ReplayInv cfg { s with base := base } := by
  obtain ⟨hsettled, heq, hrows⟩ := merge_settled hs
  have hcut := (merge_recut h.settled hsettled).1
  rw [heq]
  apply inv_cut h hcut
  intro r hr
  rcases hrows r hr with hold | hplain
  · exact h.rows r hold
  · -- every hash keeps the position its chain is within
    refine .arrived hplain ?_
    intro hash hh hhas
    obtain ⟨q, hq, hqhas, hreach⟩ := hcut.keeps (settledRow r) (List.mem_map_of_mem hr) hash hh hhas
    obtain ⟨old, hold, rfl⟩ := List.mem_map.mp hq
    rw [settledRow_tokenNow, settledRow_tokenNow, settle_of_not_replay hplain] at hreach
    rw [hreach]
    exact (h.rows old hold).reached_le hh hqhas

/-! ## Resets -/

/-- The furthest a token had got, as the token of a segment in one piece. -/
def caughtUp (row : Row K) : Row K := { row with token := some (reachedBy row.tokenNow) }

/-- Nothing is left to handle below where a row had got furthest. -/
def CaughtUp (cfg : Config E I) (log : Log K E) (row : Row K) : Prop :=
  ∀ e ∈ log, accepts cfg row.segment e = true →
    pastPosition e ≤ (reachedBy row.tokenNow).position →
      pastPosition e ≤ reachOf row.tokenNow (cfg.hashOf e.event)

theorem inv_caughtUp {s : SplitMerge.State K E} (h : SplitMergeInv cfg s)
    (hfits : ∀ row ∈ s.rows, CaughtUp cfg s.log row) :
    SplitMergeInv cfg { s with rows := s.rows.map caughtUp } := by
  have hsegments : (s.rows.map caughtUp).map (·.segment) = s.rows.map (·.segment) := by
    rw [List.map_map]
    rfl
  refine ⟨h.ordered, h.below, h.plain, ?_, ?_, ?_, ?_, h.known, ?_⟩
  · rw [hsegments]
    exact h.partition
  · intro r hr t ht hid
    obtain ⟨a, ha, rfl⟩ := List.mem_map.mp hr
    obtain ⟨b, hb, rfl⟩ := List.mem_map.mp ht
    rw [h.byId a ha b hb hid]
  · intro r hr
    obtain ⟨row, hrow, rfl⟩ := List.mem_map.mp hr
    obtain ⟨reached, hreached, -, -⟩ := reachedBy_spec (h.valid hrow) (h.tokens row hrow)
    show TokenOk row.segment (reachedBy row.tokenNow)
    rw [hreached]
    exact .plain reached
  · intro r hr hash hh hhas
    obtain ⟨row, hrow, rfl⟩ := List.mem_map.mp hr
    obtain ⟨reached, hreached, -, far, hfar, hfarhas, heq⟩ :=
      reachedBy_spec (h.valid hrow) (h.tokens row hrow)
    show reachOf (reachedBy row.tokenNow) hash ≤ s.head
    rw [hreached, ← heq]
    exact h.bounded row hrow far hfar hfarhas
  · intro r hr hash hh hhas
    obtain ⟨row, hrow, rfl⟩ := List.mem_map.mp hr
    obtain ⟨reached, hreached, hmost, -⟩ := reachedBy_spec (h.valid hrow) (h.tokens row hrow)
    have hfit := hfits row hrow
    rw [CaughtUp, hreached] at hfit
    show _ = window pastPosition (ofHash cfg hash) 0 (reachOf (reachedBy row.tokenNow) hash) s.log
    rw [hreached, h.account row hrow hash hh hhas]
    symm
    apply window_extend h.ordered (Nat.zero_le _) (hmost hash hh hhas)
    intro e he hof hlt
    by_contra hle
    have hpast := hfit e he (accepts_of_ofHash (h.valid hrow) hhas hof) (Nat.le_of_not_lt hle)
    rw [(ofHash_iff.mp hof).1] at hpast
    exact absurd hlt (Nat.not_lt_of_le hpast)

/-- A reset at or below where the row had got leaves a replay up to there. -/
theorem resetToken_eq {row : Row K} {reached p : ℕ}
    (hreached : reachedBy row.tokenNow = globalSequence reached) (hp : p ≤ reached) :
    resetToken row.token p = replayTo reached p := by
  obtain ⟨segment, token⟩ := row
  cases token with
  | none =>
      -- a segment that never ran is at zero
      have hzero : 0 = reached := globalSequence.inj hreached
      have hpzero : p = 0 := by omega
      rw [← hzero, hpzero]
      rfl
  | some token =>
      have htoken : reachedBy token = globalSequence reached := hreached
      simp only [resetToken, Option.map_some, htoken, covers_globalSequence, decide_eq_true_eq]
      rfl

theorem ReplayInv.reached (h : ReplayInv cfg s) {row : Row K} (hrow : row ∈ s.base.rows) :
    ∃ reached, reachedBy row.tokenNow = globalSequence reached ∧
      reachedBy (settle row.tokenNow) = globalSequence reached ∧
      ∀ hash < 2 ^ 32, row.segment.has hash → reachOf (settle row.tokenNow) hash ≤ reached := by
  obtain ⟨hvalid, hok⟩ := h.row hrow
  cases h.rows row hrow with
  | arrived htoken hover =>
      rw [settle_of_not_replay htoken] at hok ⊢
      obtain ⟨reached, hreached, hmost, -⟩ := reachedBy_spec hvalid hok
      exact ⟨reached, hreached, hreached, hmost⟩
  | behind reached current htoken hlt hchains =>
      rw [htoken, settle_replayTo, max_eq_left hlt.le, replayTo_of_lt hlt]
      exact ⟨reached, rfl, rfl, fun _ _ _ => le_rfl⟩

/-- The chain a reset leaves a hash with is one the replay can be told by. -/
theorem chain_atReset (h : ReplayInv cfg s) {row : Row K} (hrow : row ∈ s.base.rows)
    (hfits : CaughtUp cfg s.base.log (settledRow row)) {reached : ℕ}
    (hreached : reachedBy row.tokenNow = globalSequence reached) {hash : ℕ} (hh : hash < 2 ^ 32)
    (hhas : row.segment.has hash) :
    ChainOk cfg s.base.log hash reached
      ((s.chains hash).atReset s.base.delivered row.tokenNow hash) := by
  obtain ⟨hvalid, -⟩ := h.row hrow
  obtain ⟨reached', hsame, hsettled, hmost⟩ := h.reached hrow
  obtain rfl : reached' = reached := globalSequence.inj (hsame.symm.trans hreached)
  cases h.rows row hrow with
  | arrived htoken hover =>
      rw [Chain.atReset, if_neg (Nat.not_lt_of_le (hover hash hh hhas)), hreached]
      refine ⟨rfl, ?_, ?_⟩
      · intro e he hof
        obtain ⟨rfl, hhandled⟩ := ofHash_iff.mp hof
        have hlog : e ∈ s.base.log := (h.settled.known e (h.known e he)).1
        exact ((h.delivered_iff hrow hlog hhandled hhas).mp he).trans (hmost _ hh hhas)
      · intro e he hof hle
        obtain ⟨rfl, hhandled⟩ := ofHash_iff.mp hof
        rw [h.delivered_iff hrow he hhandled hhas, ← settledRow_tokenNow]
        apply hfits e he ((accepts_iff hvalid).mpr ⟨hhandled, hhas⟩)
        rwa [settledRow_tokenNow, hsettled]
  | behind reached'' current htoken hlt hchains =>
      have hchain := hchains hash hh hhas
      have heq : reached'' = reached' := by
        rw [htoken, replayTo_of_lt hlt] at hreached
        exact globalSequence.inj hreached
      subst heq
      have hbehind : reachOf row.tokenNow hash < (s.chains hash).reached := by
        rw [htoken, replayTo_of_lt hlt, hchain.reached_eq]
        exact hlt
      rw [Chain.atReset, if_pos hbehind]
      exact hchain

theorem ReplayInv.mem_segmentsNow (h : ReplayInv cfg s) {row : Row K} (hrow : row ∈ s.base.rows) :
    row.segment.id ∈ (segmentsNow s.base).map (·.id) := by
  apply List.mem_map_of_mem
  rw [← segmentsNow_settled]
  exact (h.settled.mem_segmentsNow row.segment).mpr ⟨settledRow row, List.mem_map_of_mem hrow, rfl⟩

theorem resetTokens_rows (h : ReplayInv cfg s) {p : ℕ} :
    (resetTokens s.base p).rows =
      s.base.rows.map fun row => { row with token := some (resetToken row.token p) } := by
  apply List.map_congr_left
  intro row hrow
  exact if_pos (h.mem_segmentsNow hrow)

/-- The rows after a reset, seen with the replays left out. -/
theorem resetTokens_settled (h : ReplayInv cfg s) {p : ℕ}
    (hp : ∀ row ∈ s.base.rows, p ≤ (reachedBy row.tokenNow).position) :
    (resetTokens s.base p).rows.map settledRow = (settled s).rows.map caughtUp := by
  rw [resetTokens_rows h, settled, List.map_map, List.map_map]
  apply List.map_congr_left
  intro row hrow
  obtain ⟨reached, hreached, hsettled, -⟩ := h.reached hrow
  have hle := hp row hrow
  rw [hreached, position_globalSequence] at hle
  simp only [Function.comp_apply, caughtUp, settledRow_tokenNow, hsettled]
  simp only [settledRow, Option.map_some, resetToken_eq hreached hle, settle_replayTo,
    max_eq_left hle]

theorem inv_reset (h : ReplayInv cfg s) {p : ℕ}
    (hp : ∀ row ∈ s.base.rows, p ≤ (reachedBy row.tokenNow).position)
    (hfits : ∀ row ∈ s.base.rows, CaughtUp cfg s.base.log (settledRow row)) :
    ReplayInv cfg { s with base := resetTokens s.base p, chains := chainsAtReset s } := by
  refine ⟨?_, h.events, h.known, ?_, h.truthful⟩
  · have hcaught := inv_caughtUp h.settled (by
      intro r hr
      obtain ⟨row, hrow, rfl⟩ := List.mem_map.mp hr
      exact hfits row hrow)
    rw [← resetTokens_settled h hp] at hcaught
    exact hcaught
  · intro r hr
    simp only [resetTokens_rows h] at hr
    obtain ⟨row, hrow, rfl⟩ := List.mem_map.mp hr
    obtain ⟨reached, hreached, hsettled, -⟩ := h.reached hrow
    have hle := hp row hrow
    rw [hreached, position_globalSequence] at hle
    have htoken : ({ row with token := some (resetToken row.token p) } : Row K).tokenNow =
        replayTo reached p := resetToken_eq hreached hle
    apply RowOk.replayTo htoken
    intro hash hh hhas
    -- the row the chain was taken from had got as far
    have hvalid := (h.row hrow).1
    have hfound : (s.base.rows.find? fun row => inSegment row.segment hash).isSome = true := by
      rw [List.find?_isSome]
      exact ⟨row, hrow, (inSegment_iff hvalid hh).mpr hhas⟩
    obtain ⟨found, hfind⟩ := Option.isSome_iff_exists.mp hfound
    have hmem := List.mem_of_find?_eq_some hfind
    have hin : found.segment.has hash := by
      apply (inSegment_iff (h.row hmem).1 hh).mp
      simpa using List.find?_some hfind
    have hsame : settledRow found = settledRow row :=
      h.settled.row_unique (List.mem_map_of_mem hmem) (List.mem_map_of_mem hrow) hin hhas
    obtain ⟨reached', hreached', hsettled', -⟩ := h.reached hmem
    have heq : reached' = reached := by
      rw [← settledRow_tokenNow, hsame, settledRow_tokenNow, hsettled] at hsettled'
      exact (globalSequence.inj hsettled').symm
    simp only [chainsAtReset, hfind]
    rw [← heq]
    exact chain_atReset h hmem (hfits found hmem) hreached' hh hin

end Steps

/-! ## Every run -/

/-- A reset is to a position no segment of the processor is short of. -/
def StartsWithin (s : State K E) : Action K E → Prop
  | .reset startPosition =>
      ∀ row ∈ s.base.rows, startPosition ≤ (reachedBy row.tokenNow).position
  | .run _ => True

/-- Splits stay within the depth `segmentsOf` walks, and a reset finds no event that
only the half ahead of a merge had got past. -/
def ResetFits (cfg : Config E I) (s : State K E) : Action K E → Prop
  | .reset _ =>
      ∀ row ∈ s.base.rows, row.tokenNow.isMergedToken = true →
        ∀ e ∈ s.base.log, accepts cfg row.segment e = true →
          e.sequence < (reachedBy row.tokenNow).position →
            e.sequence < reachOf row.tokenNow (cfg.hashOf e.event)
  | .run a => SplitsFit s.base a

instance (s : State K E) (a : Action K E) : Decidable (StartsWithin s a) :=
  match a with
  | .reset startPosition => inferInstanceAs (Decidable
      (∀ row ∈ s.base.rows, startPosition ≤ (reachedBy row.tokenNow).position))
  | .run _ => .isTrue trivial

instance (cfg : Config E I) (s : State K E) (a : Action K E) : Decidable (ResetFits cfg s a) :=
  match a with
  | .reset _ => inferInstanceAs (Decidable
      (∀ row ∈ s.base.rows, row.tokenNow.isMergedToken = true →
        ∀ e ∈ s.base.log, accepts cfg row.segment e = true →
          e.sequence < (reachedBy row.tokenNow).position →
            e.sequence < reachOf row.tokenNow (cfg.hashOf e.event)))
  | .run a => inferInstanceAs (Decidable (SplitsFit s.base a))

theorem inv_initial (cfg : Config E I) {level : ℕ} (hl : level ≤ 31) :
    ReplayInv cfg (initial level : State K E) := by
  have hrow : ∀ row ∈ (SplitMerge.initial level : SplitMerge.State K E).rows, row.token = none := by
    intro row hr
    obtain ⟨segment, -, rfl⟩ := List.mem_map.mp hr
    rfl
  have hsettled : settled (initial level : State K E) = SplitMerge.initial level := by
    have hrows : (SplitMerge.initial level : SplitMerge.State K E).rows.map settledRow =
        (SplitMerge.initial level : SplitMerge.State K E).rows := by
      simp only [SplitMerge.initial, List.map_map]
      rfl
    simp only [settled, initial, hrows]
    rfl
  refine ⟨?_, rfl, fun e he => absurd he List.not_mem_nil, ?_,
    fun d hd => absurd hd List.not_mem_nil⟩
  · rw [hsettled]
    exact SplitMerge.inv_initial cfg hl
  · intro row hr
    refine .arrived ?_ fun _ _ _ => Nat.zero_le _
    rw [Row.tokenNow, hrow row hr]
    rfl

theorem inv_step {cfg : Config E I} {s t : State K E} {a : Action K E} (h : ReplayInv cfg s)
    (hwithin : StartsWithin s a) (hfits : ResetFits cfg s a) (hs : step cfg s a = some t) :
    ReplayInv cfg t := by
  cases a with
  | reset p =>
      cases hs
      apply inv_reset h hwithin
      intro row hrow e he hacc hle
      rw [settledRow_tokenNow] at hle ⊢
      obtain ⟨hvalid, hok⟩ := h.row hrow
      cases hmerged : row.tokenNow.isMergedToken with
      | true =>
          have hplain : row.tokenNow.isReplayToken = false := by
            cases htoken : row.tokenNow with
            | globalSequence n => rfl
            | gapAware n k => rfl
            | replay r c =>
                rw [htoken] at hmerged
                cases hmerged
            | merged mask a ta b tb => rfl
          rw [settle_of_not_replay hplain] at hle ⊢
          exact hfits row hrow hmerged e he hacc hle
      | false =>
          rw [← h.isMergedToken_settle hrow] at hmerged
          obtain ⟨n, hn⟩ := hok.eq_plain hmerged
          rw [hn] at hle ⊢
          exact hle
  | run a =>
      obtain ⟨base, hbase, rfl⟩ := Option.map_eq_some_iff.mp hs
      cases a with
      | grow e =>
          simp only [SplitMerge.step] at hbase
          split_ifs at hbase with hadm
          cases hbase
          simp only [deliveriesOf, List.append_nil]
          exact inv_grow h hadm.1 (Option.isNone_iff_eq_none.mp hadm.2)
      | batch id n =>
          simp only [SplitMerge.step] at hbase
          split at hbase
          · cases hbase
          · rename_i row hrowOf
            split_ifs at hbase with hempty
            cases hbase
            obtain ⟨hrow, rfl⟩ := rowOf_some hrowOf
            have hhandled : ∀ d ∈ deliver cfg.hashOf s.chains row.tokenNow
                ((asked s.base.log row.tokenNow.position (accepts cfg row.segment)).take n),
                cfg.handled d.event.event = true := by
              intro d hd
              have hasked := List.mem_of_mem_take (mem_deliver _ d hd).1
              rw [asked_eq_beyond, mem_beyond] at hasked
              exact ((accepts_iff (h.row hrow).1).mp hasked.2.2).1
            have hkept := List.filter_eq_self.mpr hhandled
            have hevents : (SegmentWorker.prepare cfg.hashOf row.tokenNow
                ((asked s.base.log row.tokenNow.position (accepts cfg row.segment)).take n)).1.filter
                  (fun e => cfg.handled e.event) =
                (deliver cfg.hashOf s.chains row.tokenNow
                  ((asked s.base.log row.tokenNow.position (accepts cfg row.segment)).take n)).map
                    (·.event) := by
              rw [← deliver_events s.chains, List.filter_map]
              congr 1
            simp only [deliveriesOf, hrowOf, hkept, hevents]
            exact inv_batch h hrow (by simpa using hempty)
      | quiet id n =>
          simp only [SplitMerge.step] at hbase
          split at hbase
          · cases hbase
          · rename_i row hrowOf
            split_ifs at hbase with hquiet
            cases hbase
            obtain ⟨hrow, rfl⟩ := rowOf_some hrowOf
            simp only [deliveriesOf, List.append_nil]
            exact inv_quiet h hrow hquiet.1 hquiet.2.1 hquiet.2.2
      | split id =>
          simp only [deliveriesOf, List.append_nil]
          exact inv_split h hfits hbase
      | merge id =>
          simp only [deliveriesOf, List.append_nil]
          exact inv_merge h hbase

theorem inv_reach {cfg : Config E I} {level : ℕ} (hl : level ≤ 31) {s : State K E}
    (h : Reach (step cfg) (fun s a => StartsWithin s a ∧ ResetFits cfg s a) (initial level) s) :
    ReplayInv cfg s :=
  h.invariant (inv_initial cfg hl) fun _ _ _ _ hi hok hs => inv_step hi hok.1 hok.2 hs

/-- Leaving the replays out, every event is delivered exactly once, resets or not. -/
theorem settled_exactly_once {cfg : Config E I} {level : ℕ} (hl : level ≤ 31) {s : State K E}
    (h : Reach (step cfg) (fun s a => StartsWithin s a ∧ ResetFits cfg s a) (initial level) s) :
    (firsts s.deliveries).Nodup ∧ ∀ e ∈ s.base.delivered, e ∈ firsts s.deliveries := by
  have hinv := inv_reach hl h
  refine ⟨?_, hinv.known⟩
  apply List.Pairwise.imp _ hinv.settled.delivered_order
  intro a b hlt heq
  have hcon := hlt (by rw [heq])
  rw [heq] at hcon
  exact Nat.lt_irrefl _ hcon

/-- In every run whose splits and resets fit, the flag of every delivery is true to
what was delivered before the resets. -/
theorem replay_flag_truthful (cfg : Config E I) {level : ℕ} (hl : level ≤ 16) {s : State K E}
    (h : Reach (step cfg) (fun s a => StartsWithin s a ∧ ResetFits cfg s a) (initial level) s) :
    s.deliveries.map (·.event) = s.base.delivered ∧ ∀ d ∈ s.deliveries, d.Truthful := by
  have hinv := inv_reach (hl.trans (by decide)) h
  exact ⟨hinv.events, hinv.truthful⟩

/-- Two segments at different places are reset; one is split, and reset again, in the
middle of its replay. -/
def splitInReplay : List (Action Unit ℕ) :=
  [.run (.grow ⟨0, 0, none⟩), .run (.grow ⟨1, 1, none⟩), .run (.grow ⟨2, 2, none⟩),
    .run (.grow ⟨3, 3, none⟩), .run (.batch 0 1), .run (.batch 1 2), .reset 0, .run (.split 1),
    .run (.batch 0 2), .run (.batch 1 1), .reset 0, .run (.batch 3 1), .run (.batch 1 1)]

theorem replay_flag_truthful_splitInReplay :
    ∃ s : State Unit ℕ, Reach (step numbered)
      (fun s a => StartsWithin s a ∧ ResetFits numbered s a) (initial 1) s ∧
      s.deliveries.map (fun d => (d.event.sequence, d.isReplay)) =
        [(0, false), (1, false), (3, false), (0, true), (2, false), (1, true), (3, true),
          (1, true)] ∧ ∀ d ∈ s.deliveries, d.Truthful := by
  obtain ⟨s, hs, hflags⟩ := reach_guarded_any
    (show ((exec (guarded (step numbered) fun s a => StartsWithin s a ∧ ResetFits numbered s a)
      (initial 1 : State Unit ℕ) splitInReplay).any fun s =>
        decide (s.deliveries.map (fun d => (d.event.sequence, d.isReplay)) =
          [(0, false), (1, false), (3, false), (0, true), (2, false), (1, true), (3, true),
            (1, true)])) = true by decide +kernel)
  exact ⟨s, hs, hflags, (replay_flag_truthful numbered (by decide) hs).2⟩

/-- Segment 1 is ahead, the two are merged and the merge is reset. -/
def resetAfterMerge : List (Action Unit ℕ) :=
  [.run (.grow ⟨0, 0, none⟩), .run (.grow ⟨1, 1, none⟩), .run (.batch 1 1), .run (.merge 0),
    .reset 0, .run (.batch 0 1)]

/-- Event 0 was never handled, and is delivered as a replay. -/
theorem unhandled_event_told_replay :
    ¬ ∀ s : State Unit ℕ, Reach (step numbered) StartsWithin (initial 1) s →
      ∀ d ∈ s.deliveries, d.Truthful := by
  intro h
  obtain ⟨s, hs, hlast⟩ := reach_guarded_any
    (show ((exec (guarded (step numbered) StartsWithin) (initial 1 : State Unit ℕ)
      resetAfterMerge).any fun s => decide ((⟨⟨0, 0, none⟩, true, 0, ⟨[⟨1, 1, none⟩], 2⟩⟩ :
        Delivery Unit ℕ) ∈ s.deliveries)) = true by decide +kernel)
  have htruthful := (h s hs _ hlast).1 rfl
  revert htruthful
  decide

end Kronos.Processing.Replay
