import Kronos.Processing.NodeHolds

/-!
# The workers of one node do not overlap

Every step of a node keeps each segment in one hand: a frame that goes on, the
store that performs a call, a call of the application. So the active workers
are workers of different segments of one partition.
-/
namespace Kronos.Processing.Node
open Kronos.Lib.Transition TrackingToken State

variable {K : Type}

/-! ## Steps -/

section Steps
variable {cfg : Config} {s t : State K} {i : ℕ}

/-- A frame goes on, with the segments it had taken free and the one it asks for loose. -/
theorem NodeInv.run (h : NodeInv s) (hi : i < s.nextFrame) {f : Frame K} (hshape : f.Shape)
    (hfree : ∀ g ∈ f.taken, Free s g)
    (hasks : ∀ g ∈ asksFrom s f.pc f.reply, Loose s g ∧ (f.pc.splits = true → g.mask < 2 ^ 30))
    {found : Found K} (ht : run s i found f.reply f.pc = some t) : NodeInv t := by
  have hloose : ∀ g ∈ asksFrom s f.pc f.reply, Loose s g := fun g hg => (hasks g hg).1
  obtain ⟨pc, reply⟩ := f
  simp only at hasks hloose ht
  cases pc with
  | startAwait stopping => exact h.afterStopping hi ht
  | startHead =>
      cases ht
      exact h.claimRound hi .start
  | renewNext caller rest =>
      cases ht
      exact h.renewLoop hi caller rest
  | splitHold segment w stop =>
      simp only [Node.run, afterSplitHold] at ht
      split_ifs at ht <;> cases ht
      · exact h.setFrame hi hshape hfree
      · exact h.rest hi trivial rfl
  | splitSecond segment token =>
      cases ht
      exact h.resumeLast hi (hfree _ (List.mem_singleton_self _)) token
  | mergeHold segment partner first w stop =>
      simp only [Node.run, afterMergeHold] at ht
      split_ifs at ht with hreturned hthrown <;> cases ht
      · refine h.mergeHeld hi hshape hfree ?_
        rintro rfl
        exact hloose partner (by simp [asksFrom, hreturned])
      · refine h.undoFirst hi ?_
        intro hsome
        cases first with
        | none => cases hsome
        | some how => exact hfree segment (List.mem_cons_self ..)
  | mergeUndo rest =>
      cases ht
      exact h.mergeUndo hi hshape hfree
  | pollAwait w =>
      obtain ⟨v, -, ht⟩ := Option.bind_eq_some_iff.mp ht
      exact h.afterRenewing hi ht
  | stopAwait w release =>
      obtain ⟨v, -, ht⟩ := Option.bind_eq_some_iff.mp ht
      exact h.afterInFlight hi ht
  | returned => cases ht
  | threw => cases ht
  | renewing caller w token rest =>
      obtain ⟨reply, rfl, rfl⟩ := Option.map_eq_some_iff.mp ht
      exact h.afterRenewal hi caller w rest reply
  | fetching task =>
      obtain ⟨reply, rfl, rfl⟩ := Option.map_eq_some_iff.mp ht
      refine h.afterFetch hi ?_ ?_
      · rintro id ids rfl rfl g hg
        exact ⟨hloose g hg, (hasks g hg).2 rfl⟩
      · rintro id ids rfl rfl g hg
        exact hloose g hg
  | initializing task =>
      obtain ⟨reply, rfl, rfl⟩ := Option.map_eq_some_iff.mp ht
      exact h.afterInitialize hi task reply
  | refetching task =>
      obtain ⟨reply, rfl, rfl⟩ := Option.map_eq_some_iff.mp ht
      refine h.afterFetch hi ?_ ?_
      · rintro id ids rfl rfl g hg
        exact ⟨hloose g hg, (hasks g hg).2 rfl⟩
      · rintro id ids rfl rfl g hg
        exact hloose g hg
  | listing caller segments =>
      obtain ⟨reply, rfl, rfl⟩ := Option.map_eq_some_iff.mp ht
      exact h.afterListing hi hloose
  | claiming caller segment rest available =>
      obtain ⟨reply, rfl, rfl⟩ := Option.map_eq_some_iff.mp ht
      exact h.afterClaim hi (hfree segment (List.mem_singleton_self _)) hloose
  | abandoning caller segment =>
      obtain ⟨reply, rfl, rfl⟩ := Option.map_eq_some_iff.mp ht
      exact h.afterAbandon hi caller reply
  | splitClaim segment =>
      obtain ⟨reply, rfl, rfl⟩ := Option.map_eq_some_iff.mp ht
      exact h.afterSplitClaim hi hshape hfree reply
  | splitRead segment how =>
      obtain ⟨reply, rfl, rfl⟩ := Option.map_eq_some_iff.mp ht
      exact h.afterSplitRead hi hshape hfree how reply
  | splitCommit segment how token =>
      obtain ⟨reply, rfl, rfl⟩ := Option.map_eq_some_iff.mp ht
      exact h.afterSplitCommit hi hfree
  | splitFirst segment token =>
      obtain ⟨reply, rfl, rfl⟩ := Option.map_eq_some_iff.mp ht
      exact h.afterSplitFirst hi (hfree _ (List.mem_singleton_self _)) token reply
  | mergeClaim segment partner first =>
      obtain ⟨reply, rfl, rfl⟩ := Option.map_eq_some_iff.mp ht
      exact h.afterMergeClaim hi hshape hfree hloose
  | mergeRead segment partner how how' =>
      obtain ⟨reply, rfl, rfl⟩ := Option.map_eq_some_iff.mp ht
      exact h.afterMergeRead hi hshape hfree how how' reply
  | mergeReadPartner segment partner how how' token =>
      obtain ⟨reply, rfl, rfl⟩ := Option.map_eq_some_iff.mp ht
      exact h.afterMergeReadPartner hi hshape hfree how how' token reply
  | mergeCommit segment partner how how' token token' =>
      obtain ⟨reply, rfl, rfl⟩ := Option.map_eq_some_iff.mp ht
      exact h.afterMergeCommit hi hshape hfree
  | mergeRelease segment partner how how' token token' =>
      obtain ⟨reply, rfl, rfl⟩ := Option.map_eq_some_iff.mp ht
      -- the release did not fail, so nothing is undone
      rcases hshape with hno | hdone
      · cases hno
      · cases hdone
        exact h
  | mergeUndoRelease segment how rest =>
      obtain ⟨reply, rfl, rfl⟩ := Option.map_eq_some_iff.mp ht
      exact h.afterUndoRelease hi hshape hfree how reply
  | releasing id rethrow =>
      obtain ⟨reply, rfl, rfl⟩ := Option.map_eq_some_iff.mp ht
      exact h.afterRelease hi rethrow reply
  | pollQuiet w token =>
      obtain ⟨reply, rfl, rfl⟩ := Option.map_eq_some_iff.mp ht
      exact h.afterQuiet w reply
  | stopWrite w release token =>
      obtain ⟨reply, rfl, rfl⟩ := Option.map_eq_some_iff.mp ht
      exact h.afterStopWrite hi w release reply
  | stopRelease w =>
      obtain ⟨reply, rfl, rfl⟩ := Option.map_eq_some_iff.mp ht
      exact h.afterStopRelease hi reply
  | pollBatch w token =>
      obtain ⟨v, -, ht⟩ := Option.bind_eq_some_iff.mp ht
      obtain ⟨reply, -, ht⟩ := Option.bind_eq_some_iff.mp ht
      exact h.afterBatch hi ht

/-- The segments a frame has taken are free once it has left its resting point. -/
theorem NodeInv.taken_free (h : NodeInv s) {g : Segment} (hg : g ∈ (s.frames i).taken) :
    Free (s.setFrame i .returned) g := by
  refine ⟨h.current (.frame i) g hg, ?_⟩
  intro x hx
  rcases holds_setFrame hx with ⟨-, hmem⟩ | ⟨hne, hold⟩
  · exact absurd hmem List.not_mem_nil
  · exact hne (h.unique x (.frame i) g hold hg)

theorem NodeInv.untaken_loose (h : NodeInv s) {g : Segment} (hg : Untaken s i g) :
    Loose (s.setFrame i .returned) g := by
  refine ⟨hg.1, ?_⟩
  intro j hj
  by_cases hji : j = i
  · subst hji
    simp only [State.setFrame, Function.update_self] at hj
    exact absurd hj List.not_mem_nil
  · simp only [State.setFrame, Function.update_of_ne hji] at hj
    by_cases hlt : j < s.nextFrame
    · exact hg.2 j hlt hji hj
    · rw [h.idle j (Nat.le_of_not_lt hlt)] at hj
      exact absurd hj List.not_mem_nil

theorem NodeInv.lt_of_run (h : NodeInv s) {found : Found K}
    (ht : Node.run (s.setFrame i .returned) i found (s.frames i).reply (s.frames i).pc = some t) :
    i < s.nextFrame := by
  by_contra hge
  rw [h.idle i (Nat.le_of_not_lt hge)] at ht
  cases ht

theorem NodeInv.resume (h : NodeInv s) {found : Found K}
    (hok : Exclusive cfg s (.resume i found))
    (ht : Node.run (s.setFrame i .returned) i found (s.frames i).reply (s.frames i).pc = some t) :
    NodeInv t := by
  have hi := h.lt_of_run ht
  have hleft : NodeInv (s.setFrame i .returned) := h.rest hi trivial rfl
  refine hleft.run hi (h.shape i) (fun g hg => h.taken_free hg) ?_ ht
  intro g hg
  obtain ⟨huntaken, hmask⟩ := hok g hg
  exact ⟨h.untaken_loose huntaken, hmask⟩

/-! ### Calls of the store -/

theorem update_ids {rows : Rows K} {id : ℕ} {f : TokenRow K → TokenRow K}
    (hf : ∀ row, (f row).id = row.id) : (rows.update id f).ids = rows.ids := by
  simp only [Rows.update, Rows.ids, List.map_map]
  apply List.map_congr_left
  intro row _
  simp only [Function.comp_apply]
  split_ifs
  · exact hf row
  · rfl

theorem update_append (rows more : Rows K) (id : ℕ) (f : TokenRow K → TokenRow K) :
    Rows.update (rows ++ more) id f = rows.update id f ++ Rows.update more id f :=
  List.map_append

theorem update_of_not_mem {rows : Rows K} {id : ℕ} (hid : id ∉ rows.ids)
    (f : TokenRow K → TokenRow K) : rows.update id f = rows := by
  calc rows.update id f = rows.map (fun row => row) := by
        apply List.map_congr_left
        intro row hrow
        exact if_neg fun heq => hid (List.mem_map.mpr ⟨row, hrow, heq⟩)
    _ = rows := List.map_id' rows

theorem store_ids (rows : Rows K) (id : ℕ) (token : TrackingToken K) :
    (store rows id token).1.ids = rows.ids := by
  unfold store
  split
  · split_ifs
    · exact update_ids fun _ => rfl
    · rfl
  · rfl

theorem find_isSome {rows : Rows K} {id : ℕ} (hid : id ∈ rows.ids) :
    (rows.find id).isSome = true := by
  obtain ⟨row, hrow, heq⟩ := List.mem_map.mp hid
  rw [Rows.find, List.find?_isSome]
  exact ⟨row, hrow, by simpa using heq⟩

theorem find_none {rows : Rows K} {id : ℕ} (hid : id ∉ rows.ids) : rows.find id = none := by
  rw [Rows.find, List.find?_eq_none]
  intro row hrow heq
  exact hid (List.mem_map.mpr ⟨row, hrow, by simpa using heq⟩)

theorem claimToken_ids {rows : Rows K} {id : ℕ} (hid : id ∈ rows.ids) :
    (claimToken rows id).1.ids = rows.ids := by
  unfold claimToken
  split
  · rename_i hnone
    have hsome := find_isSome hid
    rw [hnone] at hsome
    cases hsome
  · split_ifs
    · exact update_ids fun _ => rfl
    · rfl

theorem releaseClaim_ids (rows : Rows K) (id : ℕ) : (releaseClaim rows id).ids = rows.ids := by
  apply update_ids
  intro row
  split_ifs <;> rfl

/-- The unit of work of a split adds the row of the second half. -/
theorem commitSplit_new {rows : Rows K} {second : ℕ} (hnew : second ∉ rows.ids)
    (token : TrackingToken K) :
    commitSplit rows second token = (rows ++ [⟨second, some token, some .self, false⟩], .done) := by
  have hfind : Rows.find (rows ++ [⟨second, none, some .self, false⟩]) second =
      some (⟨second, none, some .self, false⟩ : TokenRow K) := by
    have hnone := find_none hnew
    rw [Rows.find] at hnone
    rw [Rows.find, List.find?_append, hnone]
    simp
  unfold commitSplit claimToken
  rw [find_none hnew]
  simp only [store, hfind, if_true, update_append, update_of_not_mem hnew]
  simp [Rows.update]

/-- The unit of work of a merge deletes the row of one half, or changes nothing. -/
theorem commitMerge_ids (rows : Rows K) (keep drop : ℕ) (token : TrackingToken K) :
    (commitMerge rows keep drop token).2 = .done ∧
        (commitMerge rows keep drop token).1.ids = rows.ids.filter (· ≠ drop) ∨
      (commitMerge rows keep drop token).2 ≠ .done ∧
        (commitMerge rows keep drop token).1.ids = rows.ids := by
  have hids := store_ids rows keep token
  unfold commitMerge
  split
  · rename_i stored heq
    rw [heq] at hids
    refine Or.inl ⟨rfl, ?_⟩
    rw [← hids]
    simp only [deleteToken, Rows.ids, List.filter_map]
    rfl
  · rename_i stored reply hreply heq
    exact Or.inr ⟨hreply, rfl⟩

theorem initializeSegments_ids (rows : Rows K) (count : ℕ) :
    (initializeSegments rows count).ids =
      rows.ids ++ (List.range count).filter (· ∉ rows.ids) := by
  simp [initializeSegments, Rows.ids, Function.comp_def]

/-- The rows are cut anew: the segments a frame had taken are gone, and it has new ones. -/
theorem NodeInv.recut (h : NodeInv s) (hi : i < s.nextFrame) {rows : Rows K} {f : Frame K}
    (hcut : IdsCut rows.ids) (hshape : f.Shape)
    (hcome : ∀ g ∈ f.taken, g ∈ segmentsOf rows.ids ∧ g ∉ segmentsNow s)
    (hstay : ∀ g ∈ segmentsNow s, g ∉ (s.frames i).taken → g ∈ segmentsOf rows.ids) :
    NodeInv { s with rows := rows, frames := Function.update s.frames i f } := by
  have hholds : ∀ x g,
      Holds { s with rows := rows, frames := Function.update s.frames i f } x g →
        x = .frame i ∧ g ∈ f.taken ∨ x ≠ .frame i ∧ Holds s x g := by
    intro x g hx
    cases x with
    | frame j =>
        by_cases hj : j = i
        · subst hj
          simp only [Holds, Function.update_self] at hx
          exact Or.inl ⟨rfl, hx⟩
        · simp only [Holds, Function.update_of_ne hj] at hx
          exact Or.inr ⟨fun heq => hj (Holder.frame.inj heq), hx⟩
    | worker w => exact Or.inr ⟨Holder.noConfusion, hx⟩
  refine ⟨Or.inr hcut, ?_, ?_, ?_, ?_, h.entry, h.active, h.fresh⟩
  · intro x g hx
    rcases hholds x g hx with ⟨-, hmem⟩ | ⟨hne, hold⟩
    · exact (hcome g hmem).1
    · refine hstay g (h.current x g hold) ?_
      intro hmem
      exact hne (h.unique x (.frame i) g hold hmem)
  · intro x y g hx hy
    rcases hholds x g hx with ⟨rfl, hmem⟩ | ⟨-, hold⟩
    · rcases hholds y g hy with ⟨rfl, -⟩ | ⟨-, hold'⟩
      · rfl
      · exact ((hcome g hmem).2 (h.current y g hold')).elim
    · rcases hholds y g hy with ⟨rfl, hmem⟩ | ⟨-, hold'⟩
      · exact ((hcome g hmem).2 (h.current x g hold)).elim
      · exact h.unique x y g hold hold'
  · exact h.shape_update hshape
  · exact h.idle_update hi le_rfl

/-- The store answers, and the rows keep their ids. -/
theorem NodeInv.answer (h : NodeInv s) (hi : i < s.nextFrame) {rows : Rows K} {f : Frame K}
    (hids : rows.ids = s.rows.ids) (hshape : f.Shape) (htaken : f.taken = (s.frames i).taken) :
    NodeInv { s with rows := rows, frames := Function.update s.frames i f } := by
  have hframes : ∀ j, ((Function.update s.frames i f) j).taken = (s.frames j).taken := by
    intro j
    by_cases hj : j = i
    · subst hj
      rw [Function.update_self, htaken]
    · rw [Function.update_of_ne hj]
  have hholds : ∀ x g,
      Holds { s with rows := rows, frames := Function.update s.frames i f } x g → Holds s x g := by
    intro x g hx
    cases x with
    | frame j =>
        simp only [Holds, hframes] at hx
        exact hx
    | worker w => exact hx
  refine ⟨?_, ?_, ?_, ?_, ?_, h.entry, h.active, h.fresh⟩
  · simp only [hids]
    exact h.cut
  · intro x g hx
    simp only [segmentsNow, hids]
    exact h.current x g (hholds x g hx)
  · intro x y g hx hy
    exact h.unique x y g (hholds x g hx) (hholds y g hy)
  · exact h.shape_update hshape
  · exact h.idle_update hi le_rfl

theorem shift_mask {mask : ℕ} (hmask : mask < 2 ^ 32) :
    (BitVec.ofNat 32 mask >>> 1).toNat = mask / 2 := by
  rw [BitVec.toNat_ushiftRight, BitVec.toNat_ofNat, Nat.mod_eq_of_lt hmask,
    Nat.shiftRight_eq_div_pow]

/-- The halves of `mergeSegment` are the halves of the segment it makes of them. -/
theorem Halves.parent {segment partner : Segment} (hh : Halves segment partner)
    (hv : segment.Valid) (hv' : partner.Valid) :
    (mergedSegment segment partner).Valid ∧ (mergedSegment segment partner).mask < 2 ^ 30 ∧
      (mergedSegment segment partner).mask * 2 + 1 = segment.mask ∧
      (segment = (splitSegment (mergedSegment segment partner)).1 ∧
          partner = (splitSegment (mergedSegment segment partner)).2 ∨
        segment = (splitSegment (mergedSegment segment partner)).2 ∧
          partner = (splitSegment (mergedSegment segment partner)).1) := by
  obtain ⟨hne, hmod⟩ := mergeableSegmentId_spec hv hh.mask hh.partner
  obtain ⟨level, hl, hm, -⟩ := id hv
  have hle := pow_level_le hl
  have hmerged : mergedSegment segment partner = ⟨min segment.id partner.id, segment.mask / 2⟩ := by
    rw [mergedSegment, shift_mask (by omega)]
  rw [hmerged]
  exact merged_halves hv hv' hh.mask hh.size hne hmod

theorem NodeInv.landSplit (h : NodeInv s) (hi : i < s.nextFrame) {segment : Segment} {how : How}
    {token : Option (TrackingToken K)} (hpc : s.frames i = ⟨.splitCommit segment how token, none⟩)
    (new : TrackingToken K) :
    NodeInv { s with
      rows := (commitSplit s.rows (splitSegment segment).2.id new).1
      frames := Function.update s.frames i ⟨.splitCommit segment how token,
        some (commitSplit s.rows (splitSegment segment).2.id new).2⟩ } := by
  have hmask : segment.mask < 2 ^ 30 := by
    have hshape := h.shape i
    rw [hpc] at hshape
    exact hshape
  have hcur : segment ∈ segmentsNow s := by
    refine h.current (.frame i) segment ?_
    simp only [Holds, hpc]
    exact List.mem_singleton_self _
  have hcut := h.idsCut hcur
  obtain ⟨hnew, hcut', hmem⟩ := hcut.split hcur hmask
  rw [commitSplit_new hnew new]
  have hids : Rows.ids (s.rows ++ [⟨(splitSegment segment).2.id, some new, some .self, false⟩]) =
      s.rows.ids ++ [(splitSegment segment).2.id] := by
    simp [Rows.ids]
  have hnot : ∀ g, g = (splitSegment segment).1 ∨ g = (splitSegment segment).2 →
      g ∉ segmentsNow s := by
    rintro g (rfl | rfl) hin
    · have heq := h.eq_of_id hin hcur rfl
      have hmaskEq := congrArg Segment.mask heq
      simp only [splitSegment] at hmaskEq
      omega
    · exact hcut.partition.second_ne hcur hmask hin rfl
  refine h.recut hi (by rw [hids]; exact hcut') hmask ?_ ?_
  · intro g hg
    have hhalf := List.mem_pair.mp hg
    refine ⟨?_, hnot g hhalf⟩
    rw [hids, hmem]
    exact Or.inl hhalf
  · intro g hg hne
    rw [hids, hmem]
    refine Or.inr ⟨hg, ?_⟩
    rintro rfl
    apply hne
    rw [hpc]
    exact List.mem_singleton_self _

theorem NodeInv.landMerge (h : NodeInv s) (hi : i < s.nextFrame) {segment partner : Segment}
    {how how' : How} {token token' : Option (TrackingToken K)}
    (hpc : s.frames i = ⟨.mergeCommit segment partner how how' token token', none⟩)
    (new : TrackingToken K) :
    NodeInv { s with
      rows := (commitMerge s.rows (min segment.id partner.id) (max segment.id partner.id) new).1
      frames := Function.update s.frames i ⟨.mergeCommit segment partner how how' token token',
        some (commitMerge s.rows (min segment.id partner.id) (max segment.id partner.id) new).2⟩
          } := by
  have hh : Halves segment partner := by
    have hshape := h.shape i
    rw [hpc] at hshape
    exact hshape
  have hcur : segment ∈ segmentsNow s := by
    refine h.current (.frame i) segment ?_
    simp only [Holds, hpc]
    exact List.mem_cons_self ..
  have hcur' : partner ∈ segmentsNow s := by
    refine h.current (.frame i) partner ?_
    simp only [Holds, hpc]
    exact List.mem_cons_of_mem _ (List.mem_singleton_self _)
  obtain ⟨hparent, hsmall, hdouble, hhalves⟩ := hh.parent (h.valid hcur) (h.valid hcur')
  have hcut := h.idsCut hcur
  rcases commitMerge_ids s.rows (min segment.id partner.id) (max segment.id partner.id) new with
    ⟨hdone, hids⟩ | ⟨hnot, hids⟩
  · have hdrop :
        max segment.id partner.id = (splitSegment (mergedSegment segment partner)).2.id := by
      generalize mergedSegment segment partner = parent at hhalves
      rcases hhalves with ⟨rfl, rfl⟩ | ⟨rfl, rfl⟩ <;> simp only [splitSegment] <;> omega
    obtain ⟨hcut', hmem⟩ := hcut.merge hparent hhalves hcur hcur'
    rw [hdrop] at hids
    rw [hdone]
    refine h.recut hi ?_ hh ?_ ?_
    · rw [hdrop, hids]
      exact hcut'
    · intro g hg
      rw [List.mem_singleton.mp hg, hdrop, hids]
      refine ⟨(hmem _).mpr (Or.inl rfl), ?_⟩
      -- the merged segment has the id of one half, and its own mask
      intro hin
      have hhalf : mergedSegment segment partner = segment ∨
          mergedSegment segment partner = partner := by
        rcases le_total segment.id partner.id with hle | hle
        · exact Or.inl (h.eq_of_id hin hcur (min_eq_left hle))
        · exact Or.inr (h.eq_of_id hin hcur' (min_eq_right hle))
      have hmask : (mergedSegment segment partner).mask = segment.mask := by
        rcases hhalf with heq | heq
        · rw [heq]
        · rw [heq, hh.size]
      have hzero := hh.mask
      omega
    · intro g hg hne
      rw [hdrop, hids, hmem]
      refine Or.inr ⟨hg, ?_⟩
      intro hone
      apply hne
      rw [hpc]
      exact List.mem_pair.mpr hone
  · refine h.answer hi hids hh ?_
    rw [hpc]
    generalize (commitMerge s.rows (min segment.id partner.id) (max segment.id partner.id) new).2 =
      reply at hnot
    cases reply with
    | done => exact absurd rfl hnot
    | ids ids => rfl
    | token t' => rfl
    | refused => rfl
    | failed => rfl

theorem idsCut_initial (cfg : Config) : IdsCut (List.range cfg.initialSegments) := by
  unfold Config.initialSegments
  cases cfg.segments with
  | none => exact idsCut_level (Nat.zero_le 31)
  | some level => exact idsCut_level (by have hlt := level.isLt; omega)

theorem NodeInv.landInitialize (h : NodeInv s) (hi : i < s.nextFrame) {task : Task}
    (hpc : s.frames i = ⟨.initializing task, none⟩)
    (hok : s.rows.isEmpty || (List.range cfg.initialSegments).all (· ∈ s.rows.ids)) :
    NodeInv { s with
      rows := initializeSegments s.rows cfg.initialSegments
      frames := Function.update s.frames i ⟨.initializing task, some .done⟩ } := by
  have hids := initializeSegments_ids s.rows cfg.initialSegments
  rcases Bool.or_eq_true _ _ |>.mp hok with hnil | hall
  · have hrows : s.rows = [] := List.isEmpty_iff.mp hnil
    have hempty : s.rows.ids = [] := by rw [hrows]; rfl
    have hnew : (initializeSegments s.rows cfg.initialSegments).ids =
        List.range cfg.initialSegments := by
      rw [hids, hempty]
      simp
    refine h.recut hi ?_ trivial ?_ ?_
    · rw [hnew]
      exact idsCut_initial cfg
    · intro g hg
      exact absurd hg List.not_mem_nil
    · intro g hg
      rw [segmentsNow, hempty] at hg
      exact absurd hg List.not_mem_nil
  · have hnone : (List.range cfg.initialSegments).filter (· ∉ s.rows.ids) = [] := by
      rw [List.filter_eq_nil_iff]
      intro id hid
      simpa using List.all_eq_true.mp hall id hid
    refine h.answer hi ?_ trivial ?_
    · rw [hids, hnone, List.append_nil]
    · rw [hpc]
      rfl

/-- The id a frame claims is the id of a row. -/
theorem NodeInv.taken_id (h : NodeInv s) {g : Segment} (hg : g ∈ (s.frames i).taken) :
    g.id ∈ s.rows.ids := by
  have hcur := h.current (.frame i) g hg
  exact (h.idsCut hcur).id_mem hcur

/-- A call that fails leaves a frame with what it had taken. -/
theorem taken_failed {pc : Pc K} :
    (⟨pc, some .failed⟩ : Frame K).taken = (⟨pc, none⟩ : Frame K).taken := by
  cases pc <;> rfl

theorem shape_failed {pc : Pc K} (h : (⟨pc, none⟩ : Frame K).Shape)
    (hne : ∀ segment partner how how' token token',
      pc ≠ .mergeRelease segment partner how how' token token') :
    (⟨pc, some .failed⟩ : Frame K).Shape := by
  cases pc with
  | mergeRelease segment partner how how' token token' => exact (hne _ _ _ _ _ _ rfl).elim
  | _ => exact h

/-- What the store does with a call: nothing when it fails, else what `perform` says. -/
theorem land_cases {fails : Bool} (ht : land cfg s i fails = some t) :
    ∃ call, callOf s (s.frames i).pc = some call ∧ (s.frames i).reply = none ∧
      (fails = true ∧ t = { s with
          frames := Function.update s.frames i ⟨(s.frames i).pc, some .failed⟩ } ∨
        fails = false ∧ t = { s with
          rows := (perform cfg s.rows call).1
          frames := Function.update s.frames i
            ⟨(s.frames i).pc, some (perform cfg s.rows call).2⟩ }) := by
  unfold land at ht
  split at ht
  · rename_i call hcall hreply
    refine ⟨call, hcall, hreply, ?_⟩
    cases fails with
    | true =>
        cases ht
        exact Or.inl ⟨rfl, rfl⟩
    | false =>
        cases ht
        exact Or.inr ⟨rfl, rfl⟩
  · cases ht

theorem NodeInv.land (h : NodeInv s) {fails : Bool}
    (hok : landsWell cfg s fails (s.frames i).pc = true) (ht : land cfg s i fails = some t) :
    NodeInv t := by
  obtain ⟨call, hcall, hreply, hcase⟩ := land_cases ht
  have hi : i < s.nextFrame := by
    by_contra hge
    rw [h.idle i (Nat.le_of_not_lt hge)] at hcall
    cases hcall
  have hshape := h.shape i
  have htaken : ∀ g ∈ (s.frames i).taken, g.id ∈ s.rows.ids := fun g hg => h.taken_id hg
  have hf : s.frames i = ⟨(s.frames i).pc, none⟩ := by rw [← hreply]
  generalize hpc : (s.frames i).pc = pc at hcall hcase hok hf
  rw [hf] at hshape htaken
  rcases hcase with ⟨rfl, rfl⟩ | ⟨rfl, rfl⟩
  · refine h.answer hi rfl (shape_failed hshape ?_) ?_
    · rintro segment partner how how' token token' rfl
      cases hok
    · rw [hf, taken_failed]
  · cases pc with
    | initializing task =>
        cases hcall
        exact h.landInitialize hi hf hok
    | splitCommit segment how token =>
        cases hcall
        exact h.landSplit hi hf _
    | mergeCommit segment partner how how' token token' =>
        cases hcall
        exact h.landMerge hi hf _
    | claiming caller segment rest available =>
        cases hcall
        refine h.answer hi (claimToken_ids (htaken segment (List.mem_singleton_self _))) trivial ?_
        rw [hf]
        rfl
    | splitClaim segment =>
        cases hcall
        refine h.answer hi (claimToken_ids (htaken segment (List.mem_singleton_self _))) hshape ?_
        rw [hf]
        rfl
    | mergeClaim segment partner first =>
        cases hcall
        refine h.answer hi (claimToken_ids ?_) hshape (by rw [hf]; rfl)
        cases first with
        | none => exact htaken segment (List.mem_singleton_self _)
        | some how => exact htaken partner (List.mem_cons_of_mem _ (List.mem_singleton_self _))
    | mergeRelease segment partner how how' token token' =>
        cases hcall
        exact h.answer hi (releaseClaim_ids _ _) (Or.inr rfl) (by rw [hf]; rfl)
    | abandoning caller segment =>
        cases hcall
        exact h.answer hi (releaseClaim_ids _ _) hshape (by rw [hf]; rfl)
    | splitFirst segment token =>
        cases hcall
        exact h.answer hi (releaseClaim_ids _ _) hshape (by rw [hf]; rfl)
    | mergeUndoRelease segment how rest =>
        cases hcall
        exact h.answer hi (releaseClaim_ids _ _) hshape (by rw [hf]; rfl)
    | releasing id rethrow =>
        cases hcall
        exact h.answer hi (releaseClaim_ids _ _) hshape (by rw [hf]; rfl)
    | stopRelease w =>
        obtain ⟨v, -, rfl⟩ := Option.map_eq_some_iff.mp hcall
        exact h.answer hi (releaseClaim_ids _ _) hshape (by rw [hf]; rfl)
    | renewing caller w token rest =>
        obtain ⟨v, -, rfl⟩ := Option.map_eq_some_iff.mp hcall
        exact h.answer hi (store_ids _ _ _) hshape (by rw [hf]; rfl)
    | pollBatch w token =>
        obtain ⟨v, -, rfl⟩ := Option.map_eq_some_iff.mp hcall
        exact h.answer hi (store_ids _ _ _) hshape (by rw [hf]; rfl)
    | pollQuiet w token =>
        obtain ⟨v, -, rfl⟩ := Option.map_eq_some_iff.mp hcall
        exact h.answer hi (store_ids _ _ _) hshape (by rw [hf]; rfl)
    | stopWrite w release token =>
        obtain ⟨v, -, rfl⟩ := Option.map_eq_some_iff.mp hcall
        exact h.answer hi (store_ids _ _ _) hshape (by rw [hf]; rfl)
    | fetching task =>
        cases hcall
        exact h.answer hi rfl hshape (by rw [hf]; rfl)
    | refetching task =>
        cases hcall
        exact h.answer hi rfl hshape (by rw [hf]; rfl)
    | listing caller segments =>
        cases hcall
        exact h.answer hi rfl hshape (by rw [hf]; rfl)
    | splitRead segment how =>
        cases hcall
        exact h.answer hi rfl hshape (by rw [hf]; rfl)
    | mergeRead segment partner how how' =>
        cases hcall
        exact h.answer hi rfl hshape (by rw [hf]; rfl)
    | mergeReadPartner segment partner how how' token =>
        cases hcall
        exact h.answer hi rfl hshape (by rw [hf]; rfl)
    | _ => cases hcall

/-! ### The calls of the application -/

/-- The state with every worker's `active` off. -/
def quench (s : State K) : State K :=
  { s with started := fun w => (s.started w).map fun v => { v with active := false } }

theorem quench_stopWorker (w : ℕ) (release : Bool) :
    ∃ pc : Pc K, Frame.Shape ⟨pc, none⟩ ∧ Frame.taken ⟨pc, none⟩ = [] ∧
      quench (stopWorker s w release) = (quench s).push pc := by
  unfold stopWorker
  split
  · exact ⟨.returned, trivial, rfl, rfl⟩
  · split_ifs
    · refine ⟨.stopAwait w release, trivial, rfl, ?_⟩
      simp only [quench, State.push, State.setWorker]
      congr 1
      funext u
      by_cases hu : u = w
      · subst hu
        rw [Function.update_self, Option.map_map]
        rfl
      · rw [Function.update_of_ne hu]
    · exact ⟨.returned, trivial, rfl, rfl⟩

theorem stopWorker_workers (w : ℕ) (release : Bool) :
    (stopWorker s w release).workers = s.workers := by
  unfold stopWorker
  split
  · rfl
  · split_ifs <;> rfl

/-- A stopped worker is not active, and no other worker changes. -/
theorem stopWorker_active {w u : ℕ} {release : Bool} {v : Worker K}
    (hv : (stopWorker s w release).started u = some v) (hact : v.active = true) :
    u ≠ w ∧ s.started u = some v := by
  by_cases hu : u = w
  · subst hu
    unfold stopWorker at hv
    split at hv
    · rename_i hnone
      rw [show (s.push .returned).started u = s.started u from rfl, hnone] at hv
      cases hv
    · rename_i v₀ hv₀
      split_ifs at hv with hactive
      · simp only [State.push, State.setWorker, Function.update_self, hv₀, Option.map_some,
          Option.some.injEq] at hv
        rw [← hv] at hact
        cases hact
      · rw [show (s.push .returned).started u = s.started u from rfl, hv₀] at hv
        cases hv
        exact absurd hact hactive
  · refine ⟨hu, ?_⟩
    unfold stopWorker at hv
    split at hv
    · exact hv
    · split_ifs at hv
      · simp only [State.push, State.setWorker, Function.update_of_ne hu] at hv
        exact hv
      · exact hv

/-- The workers of a list are stopped one after the other; no other was active. -/
theorem NodeInv.stopAll {es : List Entry} (h : NodeInv (quench s)) (hnone : s.workers = [])
    (hact : ∀ w v, s.started w = some v → v.active = true → w ∈ es.map (·.worker)) :
    NodeInv (es.foldl (fun s e => Node.stopWorker s e.worker true) s) := by
  induction es generalizing s with
  | nil =>
      have hoff : quench s = s := by
        have hstarted : (quench s).started = s.started := by
          funext w
          simp only [quench]
          cases hv : s.started w with
          | none => rfl
          | some v =>
              cases hon : v.active with
              | true => exact absurd (hact w v hv hon) List.not_mem_nil
              | false =>
                  cases v
                  simp only at hon
                  rw [Option.map_some, hon]
        cases s
        simp only [quench] at hstarted ⊢
        rw [hstarted]
      rw [hoff] at h
      exact h
  | cons e es ih =>
      obtain ⟨pc, hshape, htaken, heq⟩ := quench_stopWorker (s := s) e.worker true
      apply ih
      · rw [heq]
        exact h.push hshape htaken
      · rw [stopWorker_workers, hnone]
      · intro w v hv hon
        obtain ⟨hne, hold⟩ := stopWorker_active hv hon
        have hmem := hact w v hold hon
        rw [List.map_cons, List.mem_cons] at hmem
        exact hmem.resolve_left hne

theorem NodeInv.stop (h : NodeInv s) : NodeInv (stop s) := by
  have hquench : NodeInv (quench { s with isRunning := false, workers := [] }) := by
    refine ⟨h.cut, ?_, ?_, h.shape, h.idle, ?_, ?_, ?_⟩
    · intro x g hx
      cases x with
      | frame i => exact h.current (.frame i) g hx
      | worker w => exact absurd hx List.not_mem_nil
    · intro x y g hx hy
      cases x with
      | worker w => exact absurd hx List.not_mem_nil
      | frame i =>
          cases y with
          | worker w => exact absurd hy List.not_mem_nil
          | frame j => exact h.unique (.frame i) (.frame j) g hx hy
    · intro e he
      exact absurd he List.not_mem_nil
    · intro w v hv hact
      obtain ⟨v₀, -, rfl⟩ := Option.map_eq_some_iff.mp hv
      cases hact
    · intro w hw
      simp only [quench, h.fresh w hw, Option.map_none]
  have hact : ∀ w v, { s with isRunning := false, workers := [] }.started w = some v →
      v.active = true → w ∈ s.workers.map (·.worker) := by
    intro w v hv hact
    exact List.mem_map.mpr ⟨⟨v.segment, w⟩, h.active w v hv hact, rfl⟩
  exact (NodeInv.stopAll hquench rfl hact).congr rfl rfl rfl rfl rfl rfl

theorem NodeInv.releaseSegment (h : NodeInv s) (id : ℕ) : NodeInv (releaseSegment s id) := by
  have hmarked : NodeInv ({ s with releasedUntil := id :: s.releasedUntil }.forget id) :=
    h.congr rfl rfl rfl rfl rfl rfl
  unfold Node.releaseSegment
  simp only
  split
  · exact h.congr rfl rfl rfl rfl rfl rfl
  · rename_i w hw
    exact NodeInv.stopWorker hmarked hw true

theorem NodeInv.claimSoon (h : NodeInv s) : NodeInv (claimSoon s) := by
  unfold Node.claimSoon
  split_ifs
  · exact h
  · have hclaiming : NodeInv { s with claiming := some s.nextFrame } :=
      h.congr rfl rfl rfl rfl rfl rfl
    have hpushed : NodeInv ({ s with claiming := some s.nextFrame }.push .returned) :=
      hclaiming.push trivial rfl
    exact hpushed.claimRound (Nat.lt_succ_self _) .timer

theorem NodeInv.poll (h : NodeInv s) {w : ℕ} (ht : poll s w = some t) : NodeInv t := by
  unfold Node.poll at ht
  split at ht
  · cases ht
  · split_ifs at ht
    cases ht
    have hset := h.setWorker w (f := fun v => { v with processing := true }) fun _ => ⟨rfl, rfl⟩
    exact hset.push trivial rfl

theorem NodeInv.claims (h : NodeInv s) {id : ℕ} {f : TokenRow K → TokenRow K}
    (hf : ∀ row, (f row).id = row.id) : NodeInv { s with rows := s.rows.update id f } :=
  h.congr (update_ids hf) rfl rfl rfl rfl rfl

theorem NodeInv.step (h : NodeInv s) {a : Action K} (hok : Exclusive cfg s a)
    (ht : step cfg s a = some t) : NodeInv t := by
  cases a with
  | start =>
      simp only [Node.step] at ht
      split_ifs at ht <;> cases ht
      · exact h
      · exact h.push trivial rfl
  | stop =>
      cases ht
      exact h.stop
  | releaseSegment id =>
      cases ht
      exact h.releaseSegment id
  | splitSegment id =>
      simp only [Node.step] at ht
      split_ifs at ht
      cases ht
      exact h.push trivial rfl
  | mergeSegment id =>
      cases ht
      exact h.push trivial rfl
  | claimSoon =>
      simp only [Node.step] at ht
      split_ifs at ht
      cases ht
      exact h.claimSoon
  | poll w => exact h.poll ht
  | land i fails => exact h.land hok ht
  | resume i found => exact h.resume hok ht
  | releaseOver id =>
      cases ht
      exact h.congr rfl rfl rfl rfl rfl rfl
  | expire id =>
      cases ht
      exact h.claims fun _ => rfl
  | takeOver id =>
      cases ht
      refine h.claims ?_
      intro row
      split_ifs <;> rfl
  | giveBack id =>
      cases ht
      refine h.claims ?_
      intro row
      split_ifs <;> rfl

end Steps

/-! ## Every run -/

/-- Rows as earlier runs of the processor leave them: none, or the rows of its segments. -/
def RowsFit (rows : Rows K) : Prop := rows.ids = [] ∨ IdsCut rows.ids

theorem inv_initial {rows : Rows K} (hrows : RowsFit rows) : NodeInv (initial rows) := by
  refine ⟨hrows, ?_, ?_, fun i => trivial, fun i _ => rfl, ?_, ?_, fun w _ => rfl⟩
  · intro x g hx
    cases x with
    | frame i => exact absurd hx List.not_mem_nil
    | worker w => exact absurd hx List.not_mem_nil
  · intro x y g hx hy
    cases x with
    | frame i => exact absurd hx List.not_mem_nil
    | worker w => exact absurd hx List.not_mem_nil
  · intro e he
    exact absurd he List.not_mem_nil
  · intro w v hv
    cases hv

/-- No two active workers have one id, or a hash in common. -/
def WorkersDisjoint (s : State K) : Prop :=
  ∀ i j u v, s.started i = some u → s.started j = some v → i ≠ j → u.active = true →
    v.active = true → u.segment.id ≠ v.segment.id ∧
      ∀ hash < 2 ^ 32, ¬ (jsAnd hash u.segment.mask = (u.segment.id : ℤ) ∧
        jsAnd hash v.segment.mask = (v.segment.id : ℤ))

theorem NodeInv.disjoint {s : State K} (h : NodeInv s) : WorkersDisjoint s := by
  intro i j u v hu hv hij huact hvact
  have hui := h.active i u hu huact
  have hvj := h.active j v hv hvact
  have hucur := h.current (.worker i) u.segment hui
  have hvcur := h.current (.worker j) v.segment hvj
  have hne : u.segment ≠ v.segment := by
    intro heq
    rw [← heq] at hvj
    exact hij (Holder.worker.inj (h.unique (.worker i) (.worker j) u.segment hui hvj))
  have hpart := (h.idsCut hucur).partition
  refine ⟨fun hid => hne (h.eq_of_id hucur hvcur hid), ?_⟩
  rintro hash hlt ⟨hand, hand'⟩
  apply hne
  apply hpart.unique hash u.segment hucur v.segment hvcur
  · exact (jsAnd_eq_iff_has (h.valid hucur) hlt).mp hand
  · exact (jsAnd_eq_iff_has (h.valid hvcur) hlt).mp hand'

/-- In every run whose steps are `Exclusive`, the workers of a node do not overlap. -/
theorem workers_never_overlap (cfg : Config) {rows : Rows K} (hrows : RowsFit rows) {s : State K}
    (h : Reach (step cfg) (Exclusive cfg) (initial rows) s) : WorkersDisjoint s := by
  have hinv := h.invariant (inv_initial hrows) (fun _ _ _ _ hs hok hst => hs.step hok hst)
  exact hinv.disjoint

/-- The segments of the active workers, in the order they were started. -/
def activeSegments (s : State K) : List Segment :=
  (List.range s.nextWorker).filterMap fun w =>
    (s.started w).bind fun v => if v.active then some v.segment else none

/-- A first start makes the rows and claims the one segment, which is then split. -/
def startThenSplit : List (Action Unit) :=
  let goOn : ℕ → List (Action Unit) := fun i => [.land i false, .resume i .nothing]
  [Action.start, .resume 0 .nothing, .resume 0 .nothing] ++ goOn 0 ++ goOn 0 ++ goOn 0 ++ goOn 0 ++
    goOn 0 ++ [Action.resume 1 .nothing, .splitSegment 0] ++ goOn 2 ++ [Action.resume 3 .nothing,
      .resume 2 .nothing] ++ goOn 2 ++ goOn 2 ++ [Action.resume 2 .nothing]

theorem workers_never_overlap_startThenSplit :
    ∃ s : State Unit, Reach (step ⟨some 0⟩) (Exclusive ⟨some 0⟩) (initial []) s ∧
      activeSegments s = [⟨0, 1⟩, ⟨1, 1⟩] ∧ WorkersDisjoint s := by
  obtain ⟨s, hs, hactive⟩ := reach_guarded_any
    (show ((exec (guarded (step ⟨some 0⟩) (Exclusive ⟨some 0⟩)) (initial []) startThenSplit).any
      fun s : State Unit => decide (activeSegments s = [⟨0, 1⟩, ⟨1, 1⟩])) = true by decide +kernel)
  exact ⟨s, hs, hactive, workers_never_overlap ⟨some 0⟩ (Or.inl rfl) hs⟩

/-- A claim of the first round is under way while the segment is split: the round
then starts a worker of the whole segment beside the workers of its halves. -/
def splitDuringClaim : List (Action Unit) :=
  let goOn : ℕ → List (Action Unit) := fun i => [.land i false, .resume i .nothing]
  [Action.start, .resume 0 .nothing, .resume 0 .nothing] ++ goOn 0 ++ goOn 0 ++
    [Action.splitSegment 0] ++
    goOn 1 ++ goOn 1 ++ goOn 1 ++ goOn 1 ++ [Action.resume 1 .nothing] ++ goOn 0

theorem split_overlaps_claimed_worker :
    ∃ s : State Unit, Reach (step ⟨some 0⟩) always (initial [⟨0, none, none, false⟩]) s ∧
      activeSegments s = [⟨0, 1⟩, ⟨1, 1⟩, ⟨0, 0⟩] ∧ ¬ WorkersDisjoint s := by
  obtain ⟨s, hs, hactive, hfirst, hlast⟩ := reach_exec_any
    (show ((exec (step ⟨some 0⟩) (initial [⟨0, none, none, false⟩]) splitDuringClaim).any
      fun s : State Unit => decide (activeSegments s = [⟨0, 1⟩, ⟨1, 1⟩, ⟨0, 0⟩] ∧
        s.started 0 = some ⟨⟨0, 1⟩, .globalSequence 0, true, false, true, none⟩ ∧
        s.started 2 = some ⟨⟨0, 0⟩, .globalSequence 0, true, false, true, none⟩)) = true by
      decide +kernel)
  refine ⟨s, hs, hactive, ?_⟩
  intro hdisjoint
  exact (hdisjoint 0 2 _ _ hfirst hlast (by decide) rfl rfl).1 rfl

end Kronos.Processing.Node
