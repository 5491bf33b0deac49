import Kronos.Processing.SharedStreamDense
import Kronos.Processing.SharedStreamCommitOrder

/-!
# The shared read after a reset

Every segment opens its view at the same bare position, over a log whose events
are in position order. A store reads such a log from some distance above the
position: none for a store that includes it (in memory), one for a store that
starts after it (Postgres). From there on the two read alike, so the views are
handed what they accept from that distance on, once and in order.
-/
namespace Kronos.Processing.SharedStream
open Kronos.Lib.Transition Kronos.Lib.Window TrackingToken

variable {K E C : Type}

/-- How a store reads a log in position order: `d` above a bare position, and on
from an event with the next one, within a stream or when it is opened again. -/
structure ReadsInOrder (S : Store K E C) (d : ℕ) (log : Log K E) : Prop where
  ordered : Ordered pastPosition log
  start : ∀ p token, token.unwrapToken = globalSequence p → ∀ e ∈ log,
    S.after (S.cursorAt p (some token)) e = decide (p + d ≤ e.sequence)
  past : ∀ x ∈ log, ∀ e ∈ log, S.after (S.past x) e = decide (x.sequence < e.sequence)
  resume : ∀ x ∈ log, ∀ e ∈ log,
    S.after (S.cursorAt (x.sequence + 1) (some x.past)) e = decide (x.sequence < e.sequence)

theorem denseStore_readsInOrder {log : Log K E} (h : Ordered pastPosition log) :
    ReadsInOrder denseStore 0 log where
  ordered := h
  start _ _ _ _ _ := rfl
  past _ _ _ _ := rfl
  resume _ _ _ _ := rfl

/-- Postgres, when every event has a transaction of its own and they committed in
the order of the positions. -/
theorem commitStore_readsInOrder {log : Log ℕ E} (h : Ordered pastPosition log)
    (hkeys : Ordered place log)
    (hminted : ∀ e ∈ log, ∃ gapKey, e.token = some (gapAware e.sequence gapKey)) :
    ReadsInOrder commitStore 1 log := by
  have hsame : ∀ x ∈ log, ∀ e ∈ log, place x < place e ↔ x.sequence < e.sequence := by
    intro x hx e he
    rw [hkeys.lt_iff h hx he]
    exact Nat.succ_lt_succ_iff
  refine ⟨h, ?_, ?_, ?_⟩
  · intro p token htoken e _
    simp only [commitStore, Option.map_some, htoken]
    rfl
  · intro x hx e he
    simp only [commitStore, Prod.mk.eta, toLex_ofLex, hsame x hx e he]
  · intro x hx e he
    obtain ⟨gapKey, hx'⟩ := hminted x hx
    simp only [commitStore, SequencedEvent.past, hx', Option.getD_some, Option.map_some,
      unwrapToken]
    rw [← place_minted hx', decide_eq_decide]
    exact hsame x hx e he

/-- A view opened at `p`: it has looked at nothing yet, or at the events up to one. -/
structure ResetViewOk (p d : ℕ) (log : Log K E) (v : View K E) : Prop where
  stands : (v.next = p ∧ ∃ token, v.resume = some token ∧ token.unwrapToken = globalSequence p) ∨
    ∃ x ∈ log, p + d ≤ x.sequence ∧ v.next = x.sequence + 1 ∧ v.resume = some x.past
  served : v.handed ++ v.buffer =
    window pastPosition v.accepts (p + d) (max (p + d) v.next) log
  skip : v.skipBelow ≤ v.next
  member : v.member = true

structure ResetInv (S : Store K E C) (p d : ℕ) (s : State K E C) : Prop where
  reads : ReadsInOrder S d s.log
  readAt : s.inner ≠ none → s.readAt = p ∨ p + d < s.readAt
  cursor : ∀ i, s.inner = some i → i.failed = false ∧ i.seen ≤ s.log.length ∧ ∀ e ∈ s.log,
    S.after i.cursor e = decide (max (p + d) s.readAt ≤ e.sequence)
  views : ∀ v ∈ s.views, ResetViewOk p d s.log v ∧ s.inner ≠ none ∧ Synced s.readAt v

section Invariant
variable {S : Store K E C} {p d readAhead : ℕ} {s t : State K E C}

theorem ResetInv.first (h : ResetInv S p d s) {i : Inner C} {e : SequencedEvent K E}
    (hi : s.inner = some i) (he : (available S s.log i).head? = some e) :
    e ∈ s.log ∧ p + d ≤ e.sequence ∧ s.readAt ≤ e.sequence ∧
      ∀ b ∈ s.log, p + d ≤ b.sequence → s.readAt ≤ b.sequence → e.sequence ≤ b.sequence := by
  obtain ⟨hmem, hafter, hfirst⟩ := h.reads.ordered.head_filter_take he
  rw [(h.cursor i hi).2.2 e hmem, decide_eq_true_eq, max_le_iff] at hafter
  refine ⟨hmem, hafter.1, hafter.2, ?_⟩
  intro b hb hp hr
  have hkey : pastPosition e ≤ pastPosition b := by
    apply hfirst b hb
    rw [(h.cursor i hi).2.2 b hb, decide_eq_true_eq]
    exact max_le hp hr
  exact Nat.le_of_succ_le_succ hkey

/-- A view that looks at the event handed out, or skips it. -/
theorem ResetInv.look (h : ResetInv S p d s) {i : Inner C} {e : SequencedEvent K E}
    (hi : s.inner = some i) (he : (available S s.log i).head? = some e) {v : View K E}
    (hv : v ∈ s.views) : ResetViewOk p d s.log (v.look e) ∧ Synced (e.sequence + 1) (v.look e) := by
  obtain ⟨hok, -, hs⟩ := h.views v hv
  obtain ⟨hmem, hp, hat, hfirst⟩ := h.first hi he
  have hskip := hok.skip
  rcases Nat.lt_or_ge e.sequence v.skipBelow with hlt | hge
  · rw [look_skip (Or.inr hlt)]
    refine ⟨hok, ?_⟩
    -- An event below the mark is behind the view, which keeps its mark.
    rcases hs.mark with hmark | hmark
    · exact ⟨by omega, Or.inl hmark⟩
    · omega
  · have hnext : v.next ≤ e.sequence := by
      rcases hs.mark with hmark | hmark <;> omega
    have hlow : max (p + d) v.next ≤ e.sequence := max_le hp hnext
    have hread := window_read (p := v.accepts) h.reads.ordered hmem (Nat.lt_succ_of_le hlow)
      (fun b hb _ hge => by
        have hb' : max (p + d) v.next ≤ b.sequence := Nat.le_of_lt_succ hge
        rw [max_le_iff] at hb'
        exact Nat.succ_le_succ (hfirst b hb hb'.1 (hs.behind.trans hb'.2)))
    have hsplit := window_split (p := v.accepts) h.reads.ordered (le_max_left (p + d) v.next)
      (show max (p + d) v.next ≤ pastPosition e from hlow.trans (Nat.le_succ _))
    rw [look_read hok.member hge]
    refine ⟨⟨Or.inr ⟨e, hmem, hp, rfl, rfl⟩, ?_, hge.trans (Nat.le_succ _), hok.member⟩,
      le_rfl, Or.inr rfl⟩
    have hmax : max (p + d) (e.sequence + 1) = pastPosition e :=
      Nat.max_eq_right (hp.trans (Nat.le_succ _))
    show v.handed ++ (if v.accepts e = true then v.buffer ++ [e] else v.buffer) =
      window pastPosition v.accepts (p + d) (max (p + d) (e.sequence + 1)) s.log
    rw [hmax, ← hsplit, hread, ← hok.served, List.append_assoc]
    split <;> simp

theorem ResetInv.readOne (h : ResetInv S p d s) (hs : readOne S readAhead s = some t) :
    ResetInv S p d t := by
  obtain ⟨i, e, hi, he, -, rfl⟩ := readOne_some hs
  obtain ⟨hmem, hp, -, -⟩ := h.first hi he
  have hmax : max (p + d) (e.sequence + 1) = e.sequence + 1 :=
    Nat.max_eq_right (hp.trans (Nat.le_succ _))
  refine ⟨h.reads, fun _ => Or.inr (Nat.lt_succ_of_le hp), ?_, ?_⟩
  · intro k hk
    cases hk
    refine ⟨(h.cursor i hi).1, (h.cursor i hi).2.1, ?_⟩
    intro x hx
    rw [h.reads.past e hmem x hx, hmax]
    rfl
  · intro v hv
    obtain ⟨w, hw, rfl⟩ := List.mem_map.mp hv
    obtain ⟨hok, hsync⟩ := h.look hi he hw
    exact ⟨hok, by simp, hsync⟩

theorem ResetInv.refill (h : ResetInv S p d s) (v : ℕ) :
    ResetInv S p d (refill S readAhead s v) := by
  unfold SharedStream.refill
  split
  · exact h
  · split_ifs
    · exact read_induct (fun _ _ hs ho => hs.readOne ho) h
    · exact h

theorem ResetInv.take (h : ResetInv S p d s) (v : ℕ) :
    ResetInv S p d (take S readAhead s v).2 := by
  have hr : ResetInv S p d (SharedStream.refill S readAhead s v) := h.refill v
  refine ⟨hr.reads, hr.readAt, hr.cursor, ?_⟩
  intro w hw
  rcases mem_modify hw with hw | ⟨u, hu, rfl⟩
  · exact hr.views w hw
  · obtain ⟨hok, hinner, hs⟩ := hr.views u hu
    obtain ⟨hmem, hnext, hskip⟩ := handOut_frame u
    refine ⟨⟨?_, ?_, ?_, hmem.trans hok.member⟩, hinner, ?_, ?_⟩
    · rw [hnext, handOut_resume]
      exact hok.stands
    · rw [hnext]
      have hserved := hok.served
      unfold View.handOut
      split
      · exact hserved
      · rename_i e rest hbuf
        rw [hbuf] at hserved
        refine Eq.trans ?_ hserved
        exact List.append_assoc _ _ _
    · rw [hskip, hnext]
      exact hok.skip
    · rw [hnext]
      exact hs.behind
    · rw [hskip, hnext]
      exact hs.mark

/-- The read starts again from the view furthest behind. -/
theorem ResetInv.reopen (h : ResetInv S p d s) {views : List (View K E)}
    (hviews : ∀ v ∈ views, ResetViewOk p d s.log v) (hne : views ≠ []) :
    ResetInv S p d (reopen S { s with views := views }) := by
  unfold SharedStream.reopen
  split
  · rename_i hnone
    obtain ⟨v, hv⟩ := List.exists_mem_of_ne_nil _ hne
    have hmember := furthestBehind_none hnone v hv
    rw [(hviews v hv).member] at hmember
    cases hmember
  · rename_i f hf
    obtain ⟨hmem, -, hleast⟩ := furthestBehind_some hf
    refine ⟨h.reads, ?_, ?_, ?_⟩
    · intro _
      rcases (hviews f hmem).stands with ⟨hnext, -⟩ | ⟨x, -, hx, hnext, -⟩
      · exact Or.inl hnext
      · exact Or.inr (by simp only; omega)
    · intro i hi
      cases hi
      refine ⟨rfl, Nat.zero_le _, ?_⟩
      intro e he
      rcases (hviews f hmem).stands with
        ⟨hnext, token, hresume, htoken⟩ | ⟨x, hx, hp, hnext, hresume⟩
      · simp only [hresume, hnext]
        rw [h.reads.start p token htoken e he, Nat.max_eq_left (Nat.le_add_right p d)]
      · simp only [hresume, hnext]
        rw [h.reads.resume x hx e he, Nat.max_eq_right (hp.trans (Nat.le_succ _))]
        rfl
    · intro v hv
      obtain ⟨w, hw, rfl⟩ := List.mem_map.mp hv
      have hok := hviews w hw
      refine ⟨?_, by simp, skipTo_synced hok.member (hleast w hw hok.member)⟩
      unfold View.skipTo
      split_ifs
      · exact ⟨hok.stands, hok.served, le_rfl, hok.member⟩
      · exact ⟨hok.stands, hok.served, Nat.zero_le _, hok.member⟩
      · exact hok

theorem newView_resetOk {log : Log K E} {token : TrackingToken K} {skip : ℕ} (d : ℕ)
    (htoken : token.unwrapToken = globalSequence p) (accepts : SequencedEvent K E → Bool)
    (hskip : skip ≤ p) :
    ResetViewOk p d log { newView p (some token) accepts with skipBelow := skip } where
  stands := Or.inl ⟨rfl, token, rfl, htoken⟩
  served := by
    simp only [newView, Nat.max_eq_left (Nat.le_add_right p d), window_self, List.append_nil]
  skip := hskip
  member := rfl

theorem ResetInv.openView (h : ResetInv S p d s) {token : TrackingToken K}
    (htoken : token.unwrapToken = globalSequence p) (accepts : SequencedEvent K E → Bool) :
    ResetInv S p d (openView S s p (some token) accepts) := by
  unfold SharedStream.openView
  have hviews : ∀ skip, skip ≤ p →
      ∀ v ∈ s.views ++ [{ newView p (some token) accepts with skipBelow := skip }],
        ResetViewOk p d s.log v := by
    intro skip hskip v hv
    rcases List.mem_append.mp hv with hv | hv
    · exact (h.views v hv).1
    · rw [List.mem_singleton.mp hv]
      exact newView_resetOk d htoken accepts hskip
  split_ifs with hre
  · exact h.reopen (hviews 0 (Nat.zero_le _)) (by simp)
  · refine ⟨h.reads, h.readAt, h.cursor, ?_⟩
    intro v hv
    refine ⟨hviews p le_rfl v hv, ?_⟩
    rcases List.mem_append.mp hv with hv | hv
    · exact (h.views v hv).2
    · -- The read has handed out nothing yet.
      rw [List.mem_singleton.mp hv]
      obtain ⟨hinner, hread⟩ := not_mustReopen hre
      exact ⟨hinner, hread, Or.inl rfl⟩

/-- Everything has arrived and nothing is left to hand out. -/
theorem ResetInv.drained (hS : S.Lawful) (h : ResetInv S p d s) {v : ℕ} {view : View K E}
    (hv : s.views[v]? = some view) (hseen : ∀ i, s.inner = some i → i.seen = s.log.length)
    (hnone : (SharedStream.take S readAhead s v).1 = none)
    (hfull : full readAhead (SharedStream.refill S readAhead s v).views = false) :
    view.handed = asked s.log (p + d) view.accepts := by
  obtain ⟨-, hbuf⟩ := take_none hnone
  have hinv : ResetInv S p d (SharedStream.refill S readAhead s v) := h.refill v
  obtain ⟨hlog, -, harr, w, hw, hsame⟩ := refill_frame S readAhead s v hv
  obtain ⟨hok, hinner, hs⟩ := hinv.views w (List.mem_of_getElem? hw)
  obtain ⟨i, hi⟩ := Option.ne_none_iff_exists'.mp hinner
  have hav := refill_available hS hnone hv hfull hi
  obtain ⟨j, hj, hij⟩ := harr i hi
  have hrest : asked s.log (max (p + d) w.next) w.accepts = [] := by
    apply List.filter_eq_nil_iff.mpr
    intro e he
    rw [hlog, available, hij, hseen j hj, List.take_length, List.filter_eq_nil_iff] at hav
    have hnot := hav e he
    rw [(hinv.cursor i hi).2.2 e (hlog ▸ he), decide_eq_true_eq] at hnot
    have hle : max (p + d) (SharedStream.refill S readAhead s v).readAt ≤ max (p + d) w.next :=
      max_le_max_left _ hs.behind
    simp only [Bool.and_eq_true, decide_eq_true_eq, not_and]
    omega
  have hserved := hok.served
  rw [hbuf w hw, List.append_nil, hlog] at hserved
  calc view.handed = w.handed := hsame.handed.symm
    _ = asked s.log (p + d) w.accepts := by
        rw [hserved, asked_eq_beyond, beyond_split h.reads.ordered (le_max_left (p + d) w.next),
          ← asked_eq_beyond, hrest, List.append_nil]
    _ = asked s.log (p + d) view.accepts := by rw [hsame.accepts]

/-- At any moment a view has been handed the first of the events it asked for. -/
theorem ResetInv.handed_prefix (h : ResetInv S p d s) {view : View K E} (hv : view ∈ s.views) :
    view.handed <+: asked s.log (p + d) view.accepts := by
  obtain ⟨hok, -, -⟩ := h.views view hv
  rw [asked_eq_beyond, beyond_split h.reads.ordered (le_max_left (p + d) view.next), ← hok.served,
    List.append_assoc]
  exact List.prefix_append _ _

end Invariant

end Kronos.Processing.SharedStream
