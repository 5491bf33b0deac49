import Kronos.Processing.SharedStream

/-!
# The shared read over a log in position order

The store hands out its events in strictly increasing position and mints no
token of its own (in memory, Axon Server). Bare positions then order the views
as the log does, and the marks the views skip by are exact: every view is
handed what it accepts from its opening position on, once and in order.
-/
namespace Kronos.Processing.SharedStream
open Kronos.Lib.Transition Kronos.Lib.Window

variable {K E : Type}

/-- The position just past an event, the key the log is in order of. -/
def pastPosition (e : SequencedEvent K E) : ℕ := e.sequence + 1

/-- The cursor is a position: the stream hands out the events at or above it. -/
def denseStore : Store K E ℕ where
  cursorAt position _ := position
  after cursor e := decide (cursor ≤ e.sequence)
  past e := e.sequence + 1
  admits _ head e := decide (head ≤ e.sequence) && e.token.isNone

theorem denseStore_lawful : (denseStore : Store K E ℕ).Lawful where
  past_self e := by simp [denseStore]
  past_mono c e x h₁ h₂ := by
    simp only [denseStore, decide_eq_true_eq] at h₁ h₂ ⊢
    omega

/-- What a view has looked at, and what it did with it. -/
structure ViewOk (log : Log K E) (head readAhead : ℕ) (v : View K E) : Prop where
  span : v.opened ≤ v.next
  served : v.handed ++ v.buffer = window pastPosition v.accepts v.opened v.next log
  bounded : v.buffer.length ≤ readAhead
  reached : v.next ≤ max v.opened head
  looked : ∀ t, v.looked = some t → t = .globalSequence v.next ∧ v.next ≤ head
  skip : v.skipBelow ≤ v.next

/-- Where a member stands against the read underneath. -/
structure Synced (readAt : ℕ) (v : View K E) : Prop where
  behind : readAt ≤ v.next
  mark : v.skipBelow = v.next ∨ v.next = readAt

structure DenseInv (readAhead : ℕ) (s : State K E ℕ) : Prop where
  ordered : Ordered pastPosition s.log
  below : ∀ e ∈ s.log, e.sequence < s.head
  plain : ∀ e ∈ s.log, e.token = none
  cursor : ∀ i, s.inner = some i → i.cursor = s.readAt
  views : ∀ v ∈ s.views, ViewOk s.log s.head readAhead v
  synced : ∀ v ∈ s.views, v.member = true → s.inner ≠ none ∧ Synced s.readAt v

theorem denseInv_initial (readAhead : ℕ) : DenseInv readAhead (initial : State K E ℕ) where
  ordered := List.Pairwise.nil
  below _ h := absurd h List.not_mem_nil
  plain _ h := absurd h List.not_mem_nil
  cursor _ h := by cases h
  views _ h := absurd h List.not_mem_nil
  synced _ h := absurd h List.not_mem_nil

/-- The event handed out is the first one at or above `readAt`. -/
theorem DenseInv.first {readAhead : ℕ} {s : State K E ℕ} (h : DenseInv readAhead s) {i : Inner ℕ}
    {e : SequencedEvent K E} (hi : s.inner = some i)
    (he : (available denseStore s.log i).head? = some e) :
    e ∈ s.log ∧ s.readAt ≤ e.sequence ∧
      ∀ b ∈ s.log, s.readAt ≤ b.sequence → e.sequence ≤ b.sequence := by
  obtain ⟨hmem, hafter, hfirst⟩ := h.ordered.head_filter_take he
  simp only [denseStore, h.cursor i hi, decide_eq_true_eq] at hafter hfirst
  refine ⟨hmem, hafter, ?_⟩
  intro b hb hge
  exact Nat.le_of_succ_le_succ (hfirst b hb hge)

/-- A view that looks at the event handed out. -/
theorem look_ok {readAhead : ℕ} {s : State K E ℕ} (h : DenseInv readAhead s) {i : Inner ℕ}
    {e : SequencedEvent K E} (hi : s.inner = some i)
    (he : (available denseStore s.log i).head? = some e)
    (hfull : full readAhead s.views = false) {v : View K E} (hv : v ∈ s.views) :
    ViewOk s.log s.head readAhead (v.look e) := by
  have hok := h.views v hv
  by_cases hc : v.member = false ∨ e.sequence < v.skipBelow
  · rw [look_skip hc]
    exact hok
  · obtain ⟨hm, hskip⟩ := not_or.mp hc
    rw [Bool.not_eq_false] at hm
    rw [Nat.not_lt] at hskip
    obtain ⟨-, hs⟩ := h.synced v hv hm
    obtain ⟨hmem, hat, hfirst⟩ := h.first hi he
    have hlt := h.below e hmem
    have hnext : v.next ≤ e.sequence := by
      rcases hs.mark with hmark | hmark <;> omega
    have hread := window_read (p := v.accepts) h.ordered hmem (Nat.lt_succ_of_le hnext)
      (fun b hb _ hge => Nat.succ_le_succ (hfirst b hb (hs.behind.trans (Nat.le_of_lt_succ hge))))
    have hsplit := window_split (p := v.accepts) h.ordered hok.span
      (show v.next ≤ pastPosition e from hnext.trans (Nat.le_succ _))
    have hroom := not_full hfull hv hm
    rw [look_read hm hskip]
    constructor
    · exact hok.span.trans (hnext.trans (Nat.le_succ _))
    · show v.handed ++ (if v.accepts e = true then v.buffer ++ [e] else v.buffer) =
        window pastPosition v.accepts v.opened (pastPosition e) s.log
      rw [← hsplit, hread, ← hok.served, List.append_assoc]
      split <;> simp
    · show (if v.accepts e = true then v.buffer ++ [e] else v.buffer).length ≤ readAhead
      split
      · rw [List.length_append]
        exact hroom
      · exact hroom.le
    · exact le_max_of_le_right hlt
    · intro t ht
      cases ht
      simp only [SequencedEvent.past, h.plain e hmem, Option.getD_none]
      exact ⟨trivial, hlt⟩
    · exact hskip.trans (Nat.le_succ _)

theorem look_synced {readAhead : ℕ} {s : State K E ℕ} (h : DenseInv readAhead s) {i : Inner ℕ}
    {e : SequencedEvent K E} (hi : s.inner = some i)
    (he : (available denseStore s.log i).head? = some e)
    {v : View K E} (hv : v ∈ s.views) (hm : v.member = true) :
    Synced (e.sequence + 1) (v.look e) := by
  obtain ⟨-, hat, -⟩ := h.first hi he
  obtain ⟨-, hs⟩ := h.synced v hv hm
  have hskip := (h.views v hv).skip
  rcases Nat.lt_or_ge e.sequence v.skipBelow with hlt | hge
  · -- an event below the mark is behind the view, which keeps its mark
    rw [look_skip (Or.inr hlt)]
    rcases hs.mark with hmark | hmark
    · exact ⟨by omega, Or.inl hmark⟩
    · omega
  · rw [look_read hm hge]
    exact ⟨le_rfl, Or.inr rfl⟩

theorem denseInv_readOne {readAhead : ℕ} {s t : State K E ℕ} (h : DenseInv readAhead s)
    (hs : readOne denseStore readAhead s = some t) : DenseInv readAhead t := by
  obtain ⟨i, e, hi, he, hfull, rfl⟩ := readOne_some hs
  refine ⟨h.ordered, h.below, h.plain, ?_, ?_, ?_⟩
  · intro k hk
    cases hk
    rfl
  · intro v hv
    obtain ⟨w, hw, rfl⟩ := List.mem_map.mp hv
    exact look_ok h hi he hfull hw
  · intro v hv hm
    obtain ⟨w, hw, rfl⟩ := List.mem_map.mp hv
    exact ⟨by simp, look_synced h hi he hw (look_member w e ▸ hm)⟩

theorem denseInv_read {readAhead : ℕ} {s : State K E ℕ} (h : DenseInv readAhead s) :
    DenseInv readAhead (read denseStore readAhead s) :=
  read_induct (fun _ _ hs ho => denseInv_readOne hs ho) h

theorem skipTo_ok {log : Log K E} {head readAhead : ℕ} {v : View K E}
    (h : ViewOk log head readAhead v) (base : ℕ) : ViewOk log head readAhead (v.skipTo base) := by
  unfold View.skipTo
  split_ifs with hm hlt
  · exact ⟨h.span, h.served, h.bounded, h.reached, h.looked, le_rfl⟩
  · exact ⟨h.span, h.served, h.bounded, h.reached, h.looked, Nat.zero_le _⟩
  · exact h

theorem skipTo_synced {base : ℕ} {v : View K E} (hm : v.member = true) (h : base ≤ v.next) :
    Synced base (v.skipTo base) := by
  unfold View.skipTo
  rw [if_pos hm]
  split_ifs with hlt
  · exact ⟨h, Or.inl rfl⟩
  · exact ⟨h, Or.inr (by simp only; omega)⟩

theorem denseInv_reopen {readAhead : ℕ} {s : State K E ℕ} (h : DenseInv readAhead s)
    {views : List (View K E)} (hviews : ∀ v ∈ views, ViewOk s.log s.head readAhead v) :
    DenseInv readAhead (reopen denseStore { s with views := views }) := by
  unfold reopen
  split
  · rename_i hnone
    refine ⟨h.ordered, h.below, h.plain, (fun i hi => by cases hi), hviews, ?_⟩
    intro v hv hm
    rw [furthestBehind_none hnone v hv] at hm
    cases hm
  · rename_i f hf
    obtain ⟨-, -, hleast⟩ := furthestBehind_some hf
    refine ⟨h.ordered, h.below, h.plain, ?_, ?_, ?_⟩
    · intro i hi
      cases hi
      rfl
    · intro v hv
      obtain ⟨w, hw, rfl⟩ := List.mem_map.mp hv
      exact skipTo_ok (hviews w hw) _
    · intro v hv hm
      obtain ⟨w, hw, rfl⟩ := List.mem_map.mp hv
      rw [skipTo_member] at hm
      exact ⟨by simp, skipTo_synced hm (hleast w hw hm)⟩

theorem newView_ok (log : Log K E) (head readAhead position : ℕ)
    (token : Option (TrackingToken K)) (accepts : SequencedEvent K E → Bool) {skip : ℕ}
    (hskip : skip ≤ position) :
    ViewOk log head readAhead { newView position token accepts with skipBelow := skip } where
  span := le_rfl
  served := by simp [newView]
  bounded := Nat.zero_le _
  reached := le_max_left _ _
  looked t ht := by cases ht
  skip := hskip

theorem denseInv_open {readAhead : ℕ} {s : State K E ℕ} (h : DenseInv readAhead s)
    (position : ℕ) (token : Option (TrackingToken K)) (accepts : SequencedEvent K E → Bool) :
    DenseInv readAhead (openView denseStore s position token accepts) := by
  unfold openView
  have hviews : ∀ skip, skip ≤ position →
      ∀ v ∈ s.views ++ [{ newView position token accepts with skipBelow := skip }],
        ViewOk s.log s.head readAhead v := by
    intro skip hskip v hv
    rcases List.mem_append.mp hv with hv | hv
    · exact h.views v hv
    · rw [List.mem_singleton.mp hv]
      exact newView_ok _ _ _ _ _ _ hskip
  split_ifs with hre
  · exact denseInv_reopen h (hviews 0 (Nat.zero_le _))
  · refine ⟨h.ordered, h.below, h.plain, h.cursor, hviews position le_rfl, ?_⟩
    intro v hv hm
    rcases List.mem_append.mp hv with hv | hv
    · exact h.synced v hv hm
    · -- joining the read where it is: nothing at or above the opening position was handed out
      rw [List.mem_singleton.mp hv]
      obtain ⟨hinner, hread⟩ := not_mustReopen hre
      exact ⟨hinner, hread, Or.inl rfl⟩

theorem denseInv_refill {readAhead : ℕ} {s : State K E ℕ} (h : DenseInv readAhead s) (v : ℕ) :
    DenseInv readAhead (refill denseStore readAhead s v) := by
  unfold refill
  split
  · exact h
  · split_ifs
    · exact denseInv_read h
    · exact h

theorem handOut_ok {log : Log K E} {head readAhead : ℕ} {v : View K E}
    (h : ViewOk log head readAhead v) : ViewOk log head readAhead v.handOut := by
  unfold View.handOut
  split
  · exact h
  · rename_i e rest hbuf
    refine ⟨h.span, ?_, ?_, h.reached, h.looked, h.skip⟩
    · have hserved := h.served
      rw [hbuf] at hserved
      simpa using hserved
    · have hbound := h.bounded
      rw [hbuf, List.length_cons] at hbound
      exact Nat.le_of_succ_le hbound

theorem denseInv_take {readAhead : ℕ} {s : State K E ℕ} (h : DenseInv readAhead s) (v : ℕ) :
    DenseInv readAhead (take denseStore readAhead s v).2 := by
  have hr := denseInv_refill h v
  refine ⟨hr.ordered, hr.below, hr.plain, hr.cursor, ?_, ?_⟩
  · intro w hw
    rcases mem_modify hw with hw | ⟨u, hu, rfl⟩
    · exact hr.views w hw
    · exact handOut_ok (hr.views u hu)
  · intro w hw hm
    rcases mem_modify hw with hw | ⟨u, hu, rfl⟩
    · exact hr.synced w hw hm
    · obtain ⟨hmem, hnext, hskip⟩ := handOut_frame u
      rw [hmem] at hm
      obtain ⟨hinner, hs⟩ := hr.synced u hu hm
      refine ⟨hinner, ?_, ?_⟩
      · rw [hnext]
        exact hs.behind
      · rw [hnext, hskip]
        exact hs.mark

theorem denseInv_close {readAhead : ℕ} {s : State K E ℕ} (h : DenseInv readAhead s) (v : ℕ) :
    DenseInv readAhead (closeView s v) := by
  refine ⟨h.ordered, h.below, h.plain, ?_, ?_, ?_⟩
  · intro i hi
    simp only [closeView] at hi
    split_ifs at hi
    exact h.cursor i hi
  · intro w hw
    rcases mem_modify hw with hw | ⟨u, hu, rfl⟩
    · exact h.views w hw
    · have hok := h.views u hu
      exact ⟨hok.span, hok.served, hok.bounded, hok.reached, hok.looked, hok.skip⟩
  · intro w hw hm
    obtain ⟨hold, hinner⟩ := closeView_member hw hm
    rw [hinner]
    exact h.synced w hold hm

/-- A new event is at or above the head. A view opened beyond the head is not
there yet, and every other view has looked at nothing beyond it. -/
theorem ViewOk.grow {log : Log K E} {head readAhead : ℕ} {v : View K E}
    (h : ViewOk log head readAhead v) {e : SequencedEvent K E} (he : head ≤ e.sequence) :
    ViewOk (log ++ [e]) (max head (e.sequence + 1)) readAhead v := by
  refine ⟨h.span, ?_, h.bounded, ?_, ?_, h.skip⟩
  · rw [h.served, window_append]
    intro a ha _ hopen
    rw [List.mem_singleton] at ha
    subst ha
    rcases le_max_iff.mp h.reached with hr | hr
    · exact hr.trans_lt hopen
    · exact Nat.lt_succ_of_le (hr.trans he)
  · exact h.reached.trans (max_le_max_left _ (le_max_left _ _))
  · intro t ht
    obtain ⟨hpos, hle⟩ := h.looked t ht
    exact ⟨hpos, hle.trans (le_max_left _ _)⟩

theorem ViewOk.pass {log : Log K E} {head head' readAhead : ℕ} {v : View K E}
    (h : ViewOk log head readAhead v) (hle : head ≤ head') : ViewOk log head' readAhead v := by
  refine ⟨h.span, h.served, h.bounded, h.reached.trans (max_le_max_left _ hle), ?_, h.skip⟩
  intro t ht
  obtain ⟨hpos, hn⟩ := h.looked t ht
  exact ⟨hpos, hn.trans hle⟩

theorem denseInv_grow {readAhead : ℕ} {s : State K E ℕ} (h : DenseInv readAhead s)
    {e : SequencedEvent K E} (he : s.head ≤ e.sequence) (htok : e.token = none) :
    DenseInv readAhead { s with log := s.log ++ [e], head := max s.head (e.sequence + 1) } := by
  have hbelow : ∀ a ∈ s.log, a.sequence < e.sequence := fun a ha => (h.below a ha).trans_le he
  refine ⟨?_, ?_, ?_, h.cursor, fun v hv => (h.views v hv).grow he, h.synced⟩
  · apply h.ordered.append (List.pairwise_singleton _ _)
    intro a ha b hb
    rw [List.mem_singleton.mp hb]
    exact Nat.succ_lt_succ (hbelow a ha)
  · intro a ha
    rcases List.mem_append.mp ha with ha | ha
    · exact (h.below a ha).trans_le (le_max_left _ _)
    · rw [List.mem_singleton.mp ha]
      exact (Nat.lt_succ_self _).trans_le (le_max_right _ _)
  · intro a ha
    rcases List.mem_append.mp ha with ha | ha
    · exact h.plain a ha
    · rw [List.mem_singleton.mp ha]
      exact htok

/-- The inner stream may be replaced by one at the same cursor. -/
theorem DenseInv.inner {readAhead : ℕ} {s : State K E ℕ} (h : DenseInv readAhead s) {i j : Inner ℕ}
    (hi : s.inner = some i) (hj : j.cursor = i.cursor) :
    DenseInv readAhead { s with inner := some j } := by
  refine ⟨h.ordered, h.below, h.plain, ?_, h.views, ?_⟩
  · intro k hk
    cases hk
    rw [hj]
    exact h.cursor i hi
  · intro v hv hm
    exact ⟨by simp, (h.synced v hv hm).2⟩

theorem denseInv_step {readAhead : ℕ} {s t : State K E ℕ} {a : Action K E}
    (h : DenseInv readAhead s) (hs : step denseStore readAhead s a = some t) :
    DenseInv readAhead t := by
  cases a with
  | grow e =>
      simp only [step] at hs
      split_ifs at hs with hadm
      cases hs
      simp only [denseStore, Bool.and_eq_true, decide_eq_true_eq, Option.isNone_iff_eq_none] at hadm
      exact denseInv_grow h hadm.1 hadm.2
  | pass head =>
      simp only [step] at hs
      split_ifs at hs with hle
      cases hs
      exact ⟨h.ordered, fun e he => (h.below e he).trans_le hle, h.plain, h.cursor,
        fun v hv => (h.views v hv).pass hle, h.synced⟩
  | arrive n =>
      simp only [step] at hs
      split at hs
      · cases hs
      · rename_i i hi
        split_ifs at hs
        cases hs
        exact h.inner hi rfl
  | fail n =>
      simp only [step] at hs
      split at hs
      · cases hs
      · rename_i i hi
        split_ifs at hs
        cases hs
        exact h.inner hi rfl
  | openAt position token accepts =>
      cases hs
      exact denseInv_open h position token accepts
  | next v =>
      simp only [step] at hs
      split_ifs at hs
      cases hs
      exact denseInv_take h v
  | peek v =>
      simp only [step] at hs
      split_ifs at hs
      cases hs
      exact denseInv_refill h v
  | close v =>
      simp only [step] at hs
      split_ifs at hs
      cases hs
      exact denseInv_close h v

theorem denseInv_reach {readAhead : ℕ} {s : State K E ℕ}
    (h : Reach (step denseStore readAhead) always initial s) : DenseInv readAhead s :=
  h.invariant (denseInv_initial readAhead) fun _ _ _ _ hi _ hs => denseInv_step hi hs

/-- The events a view opened at `position` is there for. -/
def asked (log : Log K E) (position : ℕ) (accepts : SequencedEvent K E → Bool) :
    List (SequencedEvent K E) :=
  log.filter fun e => decide (position ≤ e.sequence) && accepts e

theorem asked_eq_beyond (log : Log K E) (position : ℕ) (accepts : SequencedEvent K E → Bool) :
    asked log position accepts = beyond pastPosition accepts position log := by
  apply List.filter_congr
  intro e _
  simp only [pastPosition, Nat.lt_succ_iff]

theorem ViewOk.handed_prefix {log : Log K E} {head readAhead : ℕ} {v : View K E}
    (h : ViewOk log head readAhead v) (hlog : Ordered pastPosition log) :
    v.handed <+: asked log v.opened v.accepts := by
  rw [asked_eq_beyond, beyond_split hlog h.span, ← h.served, List.append_assoc]
  exact List.prefix_append _ _

/-- What a view with an empty buffer has not been handed is at or above `next`. -/
theorem ViewOk.unhanded {log : Log K E} {head readAhead : ℕ} {v : View K E}
    (h : ViewOk log head readAhead v) (hbuf : v.buffer = []) {e : SequencedEvent K E}
    (he : e ∈ asked log v.opened v.accepts) (hnot : e ∉ v.handed) : v.next ≤ e.sequence := by
  rw [asked_eq_beyond, mem_beyond] at he
  have hserved := h.served
  rw [hbuf, List.append_nil] at hserved
  by_contra hlt
  apply hnot
  rw [hserved, mem_window]
  exact ⟨he.1, he.2.1, Nat.lt_of_not_le hlt, he.2.2⟩

theorem progressToken_le {readAhead : ℕ} {s : State K E ℕ} (h : DenseInv readAhead s)
    {v : View K E} (hv : v ∈ s.views) {answer : Option (TrackingToken K)}
    (hans : Answers denseStore s answer) {t : TrackingToken K}
    (ht : progressToken denseStore s v answer = some t) :
    t.position ≤ s.head ∧
      ∀ e ∈ asked s.log v.opened v.accepts, e ∉ v.handed → t.position ≤ e.sequence := by
  have hok := h.views v hv
  obtain ⟨hbuf, hl | ⟨hb, i, hi, hat, -⟩⟩ := progressToken_cases ht
  · obtain ⟨rfl, hle⟩ := hok.looked t hl
    exact ⟨hle, fun e he hnot => hok.unhanded hbuf he hnot⟩
  · -- the store answers at the cursor, and the view is not behind it
    obtain ⟨hle, hseen⟩ := hans i t hi hb
    refine ⟨hle, ?_⟩
    intro e he hnot
    by_contra hlt
    have hafter := hseen e (List.mem_of_mem_filter he) (Nat.lt_of_not_le hlt)
    simp only [denseStore, h.cursor i hi, decide_eq_false_iff_not, Nat.not_le] at hafter
    have hnext := hok.unhanded hbuf he hnot
    omega

theorem drained {readAhead : ℕ} {s : State K E ℕ} (h : DenseInv readAhead s) {v : ℕ}
    {view : View K E} (hv : s.views[v]? = some view) (hm : view.member = true)
    (hseen : ∀ i, s.inner = some i → i.seen = s.log.length)
    (hnone : (take denseStore readAhead s v).1 = none)
    (hfull : full readAhead (take denseStore readAhead s v).2.views = false) :
    view.handed = asked s.log view.opened view.accepts := by
  obtain ⟨hsame, hbuf⟩ := take_none hnone
  rw [hsame] at hfull
  have hinv := denseInv_refill h v
  obtain ⟨hlog, -, harr, w, hw, hsamew⟩ := refill_frame denseStore readAhead s v hv
  have hok := hinv.views w (List.mem_of_getElem? hw)
  obtain ⟨hinner, hs⟩ := hinv.synced w (List.mem_of_getElem? hw) (hsamew.member.trans hm)
  obtain ⟨i, hi⟩ := Option.ne_none_iff_exists'.mp hinner
  have hav := refill_available denseStore_lawful hnone hv hfull hi
  obtain ⟨j, hj, hij⟩ := harr i hi
  -- all of the log has arrived and none of it is at or above the cursor
  have hread : ∀ e ∈ s.log, e.sequence < w.next := by
    intro e he
    rw [hlog, available, hij, hseen j hj, List.take_length, List.filter_eq_nil_iff] at hav
    have hnot := hav e he
    simp only [denseStore, hinv.cursor i hi, decide_eq_true_eq, Nat.not_le] at hnot
    exact hnot.trans_le hs.behind
  have hrest : asked s.log w.next w.accepts = [] := by
    apply List.filter_eq_nil_iff.mpr
    intro e he
    have hlt := hread e he
    simp only [Bool.and_eq_true, decide_eq_true_eq, not_and]
    omega
  have hserved := hok.served
  rw [hbuf w hw, List.append_nil, hlog] at hserved
  calc view.handed = w.handed := hsamew.handed.symm
    _ = asked s.log w.opened w.accepts := by
        rw [hserved, asked_eq_beyond, beyond_split h.ordered hok.span, ← asked_eq_beyond, hrest,
          List.append_nil]
    _ = asked s.log view.opened view.accepts := by rw [hsamew.opened, hsamew.accepts]

/-- In every run, every view has been handed, in order and once each, events it
accepts from its opening position on, holds at most `readAhead` more, reports no
progress past an event still owed to it or still to be appended, and has been
handed all of them when `next()` runs dry with the log read to its end. -/
theorem views_served_exactly {readAhead : ℕ} {s : State K E ℕ}
    (h : Reach (step denseStore readAhead) always initial s) {v : ℕ} {view : View K E}
    (hv : s.views[v]? = some view) :
    view.handed <+: asked s.log view.opened view.accepts ∧
      (asked s.log view.opened view.accepts).Nodup ∧
      view.buffer.length ≤ readAhead ∧
      (∀ answer t, Answers denseStore s answer →
        progressToken denseStore s view answer = some t →
        t.position ≤ s.head ∧
          ∀ e ∈ asked s.log view.opened view.accepts, e ∉ view.handed → t.position ≤ e.sequence) ∧
      (view.member = true → (∀ i, s.inner = some i → i.seen = s.log.length) →
        (take denseStore readAhead s v).1 = none →
        full readAhead (take denseStore readAhead s v).2.views = false →
        view.handed = asked s.log view.opened view.accepts) := by
  have hinv := denseInv_reach h
  have hmem := List.mem_of_getElem? hv
  have hok := hinv.views view hmem
  refine ⟨hok.handed_prefix hinv.ordered, ?_, hok.bounded, ?_, ?_⟩
  · exact Ordered.nodup (hinv.ordered.filter _)
  · intro answer t hans ht
    exact progressToken_le hinv hmem hans ht
  · intro hm hseen hnone hfull
    exact drained hinv hv hm hseen hnone hfull

/-- Two views, the second opened behind what was read, a failure and a view
opened after it. -/
def twoViewsRun : List (Action Unit Unit) :=
  [.openAt 1 none fun e => e.sequence % 2 == 1, .grow ⟨0, (), none⟩, .grow ⟨1, (), none⟩,
    .grow ⟨3, (), none⟩, .arrive 3, .next 0, .openAt 0 none fun _ => true, .arrive 2, .next 1,
    .fail 2, .close 0, .openAt 3 none fun _ => true, .arrive 3, .next 1, .next 1, .peek 2]

theorem views_served_exactly_twoViews :
    ∃ s view, Reach (step denseStore 4) always (initial : State Unit Unit ℕ) s ∧
      s.views[1]? = some view ∧ view.handed.length = 3 ∧
      view.handed = asked s.log view.opened view.accepts := by
  have hs := reach_exec_get (show
    (exec (step denseStore 4) (initial : State Unit Unit ℕ) twoViewsRun).isSome = true by rfl)
  refine ⟨_, _, hs, rfl, rfl, ?_⟩
  apply (views_served_exactly (v := 1) hs rfl).2.2.2.2 rfl _ rfl rfl
  intro i hi
  cases hi
  rfl

end Kronos.Processing.SharedStream
