import Mathlib.Data.Prod.Lex
import Kronos.Processing.SharedStream

/-!
# The shared read over a log in commit order

The store orders its events by `(gapKey, sequence)` and mints the token
`(sequence, gapKey)` for each of them, meaning that this event is consumed
(Postgres). The read underneath resumes by that pair, while the views compare
and skip by bare position. Their marks are therefore right only while the two
orders agree on what lies ahead of the read; `MarkExact` says when, and every
run in which each opening finds the marks exact serves its views exactly.
-/
namespace Kronos.Processing.SharedStream
open Kronos.Lib.Transition Kronos.Lib.Window TrackingToken

variable {E : Type}

/-- A point of the stream order, the transaction first. -/
abbrev Place := ℕ ×ₗ ℕ

/-- The point before every event. -/
def origin : Place := toLex (0, 0)

/-- The point a token resumes at. -/
def placeOf : Option (TrackingToken ℕ) → Place
  | some (gapAware sequence gapKey) => toLex (gapKey, sequence)
  | _ => origin

def place (e : SequencedEvent ℕ E) : Place := placeOf e.token

/-- The cursor of `open`: the transaction id (`none` for the sentinel below
every id) and the position. -/
def commitStore : Store ℕ E (Option ℕ × ℕ) where
  cursorAt position token :=
    match token.map unwrapToken with
    | some (gapAware sequence gapKey) => (some gapKey, sequence)
    | _ => (none, position)
  after cursor e :=
    match cursor with
    | (none, position) => decide (position < e.sequence)
    | (some xid, position) => decide (toLex (xid, position) < place e)
  past e := (some (ofLex (place e)).1, (ofLex (place e)).2)
  admits log _ e :=
    match e.token with
    | some (gapAware sequence _) =>
        decide (sequence = e.sequence) && decide (0 < e.sequence) &&
          log.all fun x => decide (place x < place e) && decide (x.sequence ≠ e.sequence)
    | _ => false

theorem commitStore_lawful : (commitStore : Store ℕ E (Option ℕ × ℕ)).Lawful where
  past_self e := by simp [commitStore]
  past_mono d e x h₁ h₂ := by
    simp only [commitStore, Prod.mk.eta, toLex_ofLex, decide_eq_true_eq] at h₁ h₂ ⊢
    exact h₁.trans h₂

theorem origin_le (p : Place) : origin ≤ p := by
  rw [Prod.Lex.le_iff]
  rcases Nat.eq_zero_or_pos (ofLex p).1 with h | h
  · exact Or.inr ⟨h.symm, Nat.zero_le _⟩
  · exact Or.inl h

/-- Where the read underneath stands. -/
def cursorPlace : Option ℕ × ℕ → Place
  | (none, _) => origin
  | (some xid, position) => toLex (xid, position)

/-- What lies ahead of `base` and has its sequence below the mark is what a view
standing at `stands` has already seen. -/
structure MarkExact (log : Log ℕ E) (base : Place) (mark : ℕ) (stands : Place) : Prop where
  behind : base ≤ stands
  exact : ∀ e ∈ log, base < place e → (e.sequence < mark ↔ place e ≤ stands)

instance (log : Log ℕ E) (base : Place) (mark : ℕ) (stands : Place) :
    Decidable (MarkExact log base mark stands) :=
  decidable_of_iff
    (base ≤ stands ∧ ∀ e ∈ log, base < place e → (e.sequence < mark ↔ place e ≤ stands))
    ⟨fun h => ⟨h.1, h.2⟩, fun h => ⟨h.behind, h.exact⟩⟩

structure CommitViewOk (log : Log ℕ E) (v : View ℕ E) : Prop where
  span : placeOf v.openedToken ≤ placeOf v.resume
  served : v.handed ++ v.buffer =
    window place v.accepts (placeOf v.openedToken) (placeOf v.resume) log
  known : placeOf v.resume = origin ∨ ∃ e ∈ log, place e = placeOf v.resume
  resume : v.resume = none ∧ v.next = 0 ∨ ∃ sequence gapKey,
    v.resume = some (gapAware sequence gapKey)

structure CommitInv (s : State ℕ E (Option ℕ × ℕ)) : Prop where
  ordered : Ordered place s.log
  minted : ∀ e ∈ s.log, 0 < e.sequence ∧ ∃ gapKey, e.token = some (gapAware e.sequence gapKey)
  fresh : ∀ i position, s.inner = some i → i.cursor = (none, position) → position = 0
  views : ∀ v ∈ s.views, CommitViewOk s.log v
  marks : ∀ v ∈ s.views, v.member = true →
    ∃ i, s.inner = some i ∧ MarkExact s.log (cursorPlace i.cursor) v.skipBelow (placeOf v.resume)

theorem commitInv_initial : CommitInv (initial : State ℕ E (Option ℕ × ℕ)) where
  ordered := List.Pairwise.nil
  minted _ h := absurd h List.not_mem_nil
  fresh _ _ h := by cases h
  views _ h := absurd h List.not_mem_nil
  marks _ h := absurd h List.not_mem_nil

theorem place_minted {e : SequencedEvent ℕ E} {gapKey : ℕ}
    (h : e.token = some (gapAware e.sequence gapKey)) : place e = toLex (gapKey, e.sequence) := by
  simp only [place, h, placeOf]

theorem origin_lt_place {e : SequencedEvent ℕ E} (hpos : 0 < e.sequence) {gapKey : ℕ}
    (h : e.token = some (gapAware e.sequence gapKey)) : origin < place e := by
  apply lt_of_le_of_ne (origin_le _)
  intro heq
  rw [place_minted h] at heq
  have hseq : 0 = e.sequence := congrArg (fun p => (ofLex p).2) heq
  omega

/-- On the log, the store's cursor compares by stream order. -/
theorem CommitInv.after_iff {s : State ℕ E (Option ℕ × ℕ)} (h : CommitInv s)
    {i : Inner (Option ℕ × ℕ)} (hi : s.inner = some i) {e : SequencedEvent ℕ E} (he : e ∈ s.log) :
    commitStore.after i.cursor e = true ↔ cursorPlace i.cursor < place e := by
  obtain ⟨hpos, gapKey, htok⟩ := h.minted e he
  have hfresh := h.fresh i
  rcases i with ⟨⟨_ | xid, position⟩, seen, failed⟩
  · obtain rfl := hfresh position hi rfl
    simp only [commitStore, cursorPlace, decide_eq_true_eq]
    exact ⟨fun _ => origin_lt_place hpos htok, fun _ => hpos⟩
  · simp only [commitStore, cursorPlace, decide_eq_true_eq]

/-- The event handed out is the first one beyond the cursor. -/
theorem CommitInv.first {s : State ℕ E (Option ℕ × ℕ)} (h : CommitInv s)
    {i : Inner (Option ℕ × ℕ)} {e : SequencedEvent ℕ E} (hi : s.inner = some i)
    (he : (available commitStore s.log i).head? = some e) :
    e ∈ s.log ∧ cursorPlace i.cursor < place e ∧
      ∀ b ∈ s.log, cursorPlace i.cursor < place b → place e ≤ place b := by
  obtain ⟨hmem, hafter, hfirst⟩ := h.ordered.head_filter_take he
  refine ⟨hmem, (h.after_iff hi hmem).mp hafter, ?_⟩
  intro b hb hlt
  exact hfirst b hb ((h.after_iff hi hb).mpr hlt)

theorem cursorPlace_past (e : SequencedEvent ℕ E) : cursorPlace (commitStore.past e) = place e := by
  simp [cursorPlace, commitStore]

theorem placeOf_past {e : SequencedEvent ℕ E} {gapKey : ℕ}
    (h : e.token = some (gapAware e.sequence gapKey)) : placeOf (some e.past) = place e := by
  simp only [SequencedEvent.past, place, h, Option.getD_some]

/-- A view looks at the event handed out unless its mark says it has seen it. -/
theorem commit_look_ok {s : State ℕ E (Option ℕ × ℕ)} (h : CommitInv s)
    {i : Inner (Option ℕ × ℕ)} {e : SequencedEvent ℕ E} (hi : s.inner = some i)
    (he : (available commitStore s.log i).head? = some e) {v : View ℕ E} (hv : v ∈ s.views) :
    CommitViewOk s.log (v.look e) := by
  have hok := h.views v hv
  by_cases hc : v.member = false ∨ e.sequence < v.skipBelow
  · rw [look_skip hc]
    exact hok
  · obtain ⟨hm, hskip⟩ := not_or.mp hc
    rw [Bool.not_eq_false] at hm
    rw [Nat.not_lt] at hskip
    obtain ⟨hmem, hbeyond, hfirst⟩ := h.first hi he
    obtain ⟨-, gapKey, htok⟩ := h.minted e hmem
    obtain ⟨j, hj, hmark⟩ := h.marks v hv hm
    cases hi.symm.trans hj
    have hahead : placeOf v.resume < place e := by
      rw [← not_le, ← hmark.exact e hmem hbeyond]
      exact Nat.not_lt.mpr hskip
    have hread := window_read (p := v.accepts) h.ordered hmem hahead
      (fun b hb _ hlt => hfirst b hb (hmark.behind.trans_lt hlt))
    have hsplit := window_split (p := v.accepts) h.ordered hok.span hahead.le
    rw [look_read hm hskip]
    constructor
    · show placeOf v.openedToken ≤ placeOf (some e.past)
      rw [placeOf_past htok]
      exact hok.span.trans hahead.le
    · show v.handed ++ (if v.accepts e = true then v.buffer ++ [e] else v.buffer) =
        window place v.accepts (placeOf v.openedToken) (placeOf (some e.past)) s.log
      rw [placeOf_past htok, ← hsplit, hread, ← hok.served, List.append_assoc]
      split <;> simp
    · exact Or.inr ⟨e, hmem, (placeOf_past htok).symm⟩
    · refine Or.inr ⟨e.sequence, gapKey, ?_⟩
      simp only [SequencedEvent.past, htok, Option.getD_some]

theorem commit_look_mark {s : State ℕ E (Option ℕ × ℕ)} (h : CommitInv s)
    {i : Inner (Option ℕ × ℕ)} {e : SequencedEvent ℕ E} (hi : s.inner = some i)
    (he : (available commitStore s.log i).head? = some e) {v : View ℕ E} (hv : v ∈ s.views)
    (hm : v.member = true) :
    MarkExact s.log (place e) (v.look e).skipBelow (placeOf (v.look e).resume) := by
  obtain ⟨hmem, hbeyond, hfirst⟩ := h.first hi he
  obtain ⟨-, gapKey, htok⟩ := h.minted e hmem
  obtain ⟨j, hj, hmark⟩ := h.marks v hv hm
  cases hi.symm.trans hj
  rcases Nat.lt_or_ge e.sequence v.skipBelow with hlt | hge
  · rw [look_skip (Or.inr hlt)]
    refine ⟨(hmark.exact e hmem hbeyond).mp hlt, ?_⟩
    intro x hx hxe
    exact hmark.exact x hx (hbeyond.trans hxe)
  · have hahead : placeOf v.resume < place e := by
      rw [← not_le, ← hmark.exact e hmem hbeyond]
      exact Nat.not_lt.mpr hge
    rw [look_read hm hge]
    simp only [placeOf_past htok]
    refine ⟨le_rfl, ?_⟩
    -- beyond the event just read the old mark had nothing left to skip
    intro x hx hxe
    have hold := hmark.exact x hx (hbeyond.trans hxe)
    constructor
    · intro hseq
      exact absurd (hold.mp hseq) (not_le.mpr (hahead.trans hxe))
    · intro hle
      exact absurd hle (not_le.mpr hxe)

theorem commitInv_readOne {readAhead : ℕ} {s t : State ℕ E (Option ℕ × ℕ)} (h : CommitInv s)
    (hs : readOne commitStore readAhead s = some t) : CommitInv t := by
  obtain ⟨i, e, hi, he, -, rfl⟩ := readOne_some hs
  refine ⟨h.ordered, h.minted, ?_, ?_, ?_⟩
  · intro k position hk hcur
    cases hk
    simp [commitStore] at hcur
  · intro v hv
    obtain ⟨w, hw, rfl⟩ := List.mem_map.mp hv
    exact commit_look_ok h hi he hw
  · intro v hv hm
    obtain ⟨w, hw, rfl⟩ := List.mem_map.mp hv
    rw [look_member] at hm
    refine ⟨_, rfl, ?_⟩
    simp only [cursorPlace_past]
    exact commit_look_mark h hi he hw hm

theorem commitInv_refill {readAhead : ℕ} {s : State ℕ E (Option ℕ × ℕ)} (h : CommitInv s) (v : ℕ) :
    CommitInv (refill commitStore readAhead s v) := by
  unfold refill
  split
  · exact h
  · split_ifs
    · exact read_induct (fun _ _ hs ho => commitInv_readOne hs ho) h
    · exact h

/-- The marks a reopening sets are right ahead of the view it starts from, the
mark of a view that joins the read is right ahead of the read, and the log grows
by nothing that an open view would skip. -/
def MarksFit (s : State ℕ E (Option ℕ × ℕ)) : Action ℕ E → Prop
  | .openAt position token accepts =>
      if mustReopen s position then
        ∀ f ∈ furthestBehind (s.views ++ [newView position token accepts]),
          ∀ v ∈ s.views ++ [newView position token accepts], v.member = true →
            MarkExact s.log (placeOf f.resume) (if f.next < v.next then v.next else 0)
              (placeOf v.resume)
      else
        ∀ i ∈ s.inner, MarkExact s.log (cursorPlace i.cursor) position (placeOf token)
  | .grow e => ∀ v ∈ s.views, v.member = true → v.skipBelow ≤ e.sequence
  | _ => True

instance (s : State ℕ E (Option ℕ × ℕ)) (a : Action ℕ E) : Decidable (MarksFit s a) := by
  cases a <;> unfold MarksFit <;> infer_instance

/-- A view is opened at the token of an event of the log, or at the very start. -/
def opensConsumed (s : State ℕ E (Option ℕ × ℕ)) : Action ℕ E → Bool
  | .openAt position token _ =>
      match token with
      | none => position == 0
      | some (gapAware sequence gapKey) =>
          position == sequence && s.log.any fun e => place e == toLex (gapKey, sequence)
      | _ => false
  | _ => true

theorem newView_commit_ok {s : State ℕ E (Option ℕ × ℕ)} {position : ℕ}
    {token : Option (TrackingToken ℕ)} {accepts : SequencedEvent ℕ E → Bool} {skip : ℕ}
    (h : opensConsumed s (.openAt position token accepts) = true) :
    CommitViewOk s.log { newView position token accepts with skipBelow := skip } := by
  refine ⟨le_rfl, ?_, ?_, ?_⟩
  · simp [newView]
  · cases token with
    | none => exact Or.inl rfl
    | some t =>
        cases t with
        | gapAware sequence gapKey =>
            simp only [opensConsumed, Bool.and_eq_true, List.any_eq_true, beq_iff_eq] at h
            exact Or.inr h.2
        | globalSequence sequence => exact Or.inl rfl
        | replay _ _ => exact Or.inl rfl
        | merged _ _ _ _ _ => exact Or.inl rfl
  · cases token with
    | none =>
        have hzero : position = 0 := by simpa [opensConsumed] using h
        exact Or.inl ⟨rfl, hzero⟩
    | some t =>
        cases t with
        | gapAware sequence gapKey => exact Or.inr ⟨sequence, gapKey, rfl⟩
        | globalSequence sequence => cases h
        | replay _ _ => cases h
        | merged _ _ _ _ _ => cases h

/-- The store resumes at the place of the view it is reopened for. -/
theorem CommitViewOk.cursor {log : Log ℕ E} {v : View ℕ E} (h : CommitViewOk log v) :
    cursorPlace ((commitStore : Store ℕ E _).cursorAt v.next v.resume) = placeOf v.resume ∧
      ∀ position, (commitStore : Store ℕ E _).cursorAt v.next v.resume = (none, position) →
        position = 0 := by
  rcases h.resume with ⟨hres, hnext⟩ | ⟨sequence, gapKey, hres⟩
  · rw [hres, hnext]
    refine ⟨rfl, ?_⟩
    intro position hp
    simpa [commitStore] using hp.symm
  · rw [hres]
    refine ⟨rfl, ?_⟩
    intro position hp
    simp [commitStore, unwrapToken] at hp

theorem commitInv_reopen {s : State ℕ E (Option ℕ × ℕ)} (h : CommitInv s)
    {views : List (View ℕ E)} (hviews : ∀ v ∈ views, CommitViewOk s.log v)
    (hfit : ∀ f, furthestBehind views = some f → ∀ v ∈ views, v.member = true →
      MarkExact s.log (placeOf f.resume) (if f.next < v.next then v.next else 0)
        (placeOf v.resume)) :
    CommitInv (reopen commitStore { s with views := views }) := by
  unfold reopen
  split
  · rename_i hnone
    refine ⟨h.ordered, h.minted, (fun i position hi => by cases hi), hviews, ?_⟩
    intro v hv hm
    rw [furthestBehind_none hnone v hv] at hm
    cases hm
  · rename_i f hf
    have hok := hviews f (furthestBehind_some hf).1
    refine ⟨h.ordered, h.minted, ?_, ?_, ?_⟩
    · intro i p hi hcur
      cases hi
      exact hok.cursor.2 p hcur
    · intro v hv
      obtain ⟨w, hw, rfl⟩ := List.mem_map.mp hv
      have hwok := hviews w hw
      unfold View.skipTo
      split
      · exact ⟨hwok.span, hwok.served, hwok.known, hwok.resume⟩
      · exact hwok
    · intro v hv hm
      obtain ⟨w, hw, rfl⟩ := List.mem_map.mp hv
      rw [skipTo_member] at hm
      refine ⟨_, rfl, ?_⟩
      simp only [hok.cursor.1, View.skipTo, hm, if_true]
      exact hfit f hf w hw hm

theorem commitInv_open {s : State ℕ E (Option ℕ × ℕ)} (h : CommitInv s) {position : ℕ}
    {token : Option (TrackingToken ℕ)} {accepts : SequencedEvent ℕ E → Bool}
    (hfit : MarksFit s (.openAt position token accepts))
    (hopen : opensConsumed s (.openAt position token accepts) = true) :
    CommitInv (openView commitStore s position token accepts) := by
  have hviews : ∀ skip,
      ∀ v ∈ s.views ++ [{ newView position token accepts with skipBelow := skip }],
      CommitViewOk s.log v := by
    intro skip v hv
    rcases List.mem_append.mp hv with hv | hv
    · exact h.views v hv
    · rw [List.mem_singleton.mp hv]
      exact newView_commit_ok hopen
  unfold openView
  simp only [MarksFit] at hfit
  split_ifs at hfit ⊢ with hre
  · exact commitInv_reopen h (hviews 0) hfit
  · refine ⟨h.ordered, h.minted, h.fresh, hviews position, ?_⟩
    intro v hv hm
    rcases List.mem_append.mp hv with hv | hv
    · exact h.marks v hv hm
    · rw [List.mem_singleton.mp hv]
      unfold mustReopen at hre
      split at hre
      · exact absurd rfl hre
      · rename_i i hi
        exact ⟨i, hi, hfit i hi⟩

theorem CommitViewOk.handOut {log : Log ℕ E} {v : View ℕ E} (h : CommitViewOk log v) :
    CommitViewOk log v.handOut := by
  unfold View.handOut
  split
  · exact h
  · rename_i e rest hbuf
    refine ⟨h.span, ?_, h.known, h.resume⟩
    have hserved := h.served
    rw [hbuf] at hserved
    simpa using hserved

theorem commitInv_take {readAhead : ℕ} {s : State ℕ E (Option ℕ × ℕ)} (h : CommitInv s) (v : ℕ) :
    CommitInv (take commitStore readAhead s v).2 := by
  have hr : CommitInv (refill commitStore readAhead s v) := commitInv_refill h v
  refine ⟨hr.ordered, hr.minted, hr.fresh, ?_, ?_⟩
  · intro w hw
    rcases mem_modify hw with hw | ⟨u, hu, rfl⟩
    · exact hr.views w hw
    · exact (hr.views u hu).handOut
  · intro w hw hm
    rcases mem_modify hw with hw | ⟨u, hu, rfl⟩
    · exact hr.marks w hw hm
    · obtain ⟨hmem, -, hskip⟩ := handOut_frame u
      rw [hmem] at hm
      rw [hskip, handOut_resume]
      exact hr.marks u hu hm

theorem commitInv_close {s : State ℕ E (Option ℕ × ℕ)} (h : CommitInv s) (v : ℕ) :
    CommitInv (closeView s v) := by
  refine ⟨h.ordered, h.minted, ?_, ?_, ?_⟩
  · intro i position hi
    simp only [closeView] at hi
    split_ifs at hi
    exact h.fresh i position hi
  · intro w hw
    rcases mem_modify hw with hw | ⟨u, hu, rfl⟩
    · exact h.views w hw
    · have hok := h.views u hu
      exact ⟨hok.span, hok.served, hok.known, hok.resume⟩
  · intro w hw hm
    obtain ⟨hold, hinner⟩ := closeView_member hw hm
    rw [hinner]
    exact h.marks w hold hm

theorem commitInv_grow {s : State ℕ E (Option ℕ × ℕ)} (h : CommitInv s) {e : SequencedEvent ℕ E}
    {gapKey : ℕ} (htok : e.token = some (gapAware e.sequence gapKey)) (hpos : 0 < e.sequence)
    (hlast : ∀ x ∈ s.log, place x < place e)
    (hfit : ∀ v ∈ s.views, v.member = true → v.skipBelow ≤ e.sequence) {head : ℕ} :
    CommitInv { s with log := s.log ++ [e], head := head } := by
  have hahead : ∀ v ∈ s.views, placeOf v.resume < place e := by
    intro v hv
    rcases (h.views v hv).known with ho | ⟨x, hx, hxp⟩
    · rw [ho]
      exact origin_lt_place hpos htok
    · rw [← hxp]
      exact hlast x hx
  refine ⟨?_, ?_, h.fresh, ?_, ?_⟩
  · apply h.ordered.append (List.pairwise_singleton _ _)
    intro a ha b hb
    rw [List.mem_singleton.mp hb]
    exact hlast a ha
  · intro a ha
    rcases List.mem_append.mp ha with ha | ha
    · exact h.minted a ha
    · rw [List.mem_singleton.mp ha]
      exact ⟨hpos, gapKey, htok⟩
  · intro v hv
    have hok := h.views v hv
    refine ⟨hok.span, ?_, ?_, hok.resume⟩
    · rw [hok.served, window_append]
      intro a ha _ _
      rw [List.mem_singleton.mp ha]
      exact hahead v hv
    · exact hok.known.imp_right fun ⟨x, hx, hxp⟩ => ⟨x, List.mem_append_left _ hx, hxp⟩
  · intro v hv hm
    obtain ⟨i, hi, hmark⟩ := h.marks v hv hm
    refine ⟨i, hi, hmark.behind, ?_⟩
    intro a ha hlt
    rcases List.mem_append.mp ha with ha | ha
    · exact hmark.exact a ha hlt
    · rw [List.mem_singleton] at ha
      subst ha
      constructor
      · intro hseq
        exact absurd hseq (Nat.not_lt.mpr (hfit v hv hm))
      · intro hle
        exact absurd hle (not_le.mpr (hahead v hv))

theorem CommitInv.inner {s : State ℕ E (Option ℕ × ℕ)} (h : CommitInv s)
    {i j : Inner (Option ℕ × ℕ)} (hi : s.inner = some i) (hj : j.cursor = i.cursor) :
    CommitInv { s with inner := some j } := by
  refine ⟨h.ordered, h.minted, ?_, h.views, ?_⟩
  · intro k position hk hcur
    cases hk
    exact h.fresh i position hi (hj.symm.trans hcur)
  · intro v hv hm
    obtain ⟨k, hk, hmark⟩ := h.marks v hv hm
    cases hi.symm.trans hk
    exact ⟨j, rfl, hj.symm ▸ hmark⟩

theorem commitInv_step {readAhead : ℕ} {s t : State ℕ E (Option ℕ × ℕ)} {a : Action ℕ E}
    (h : CommitInv s) (hfit : MarksFit s a) (hopen : opensConsumed s a = true)
    (hs : step commitStore readAhead s a = some t) : CommitInv t := by
  cases a with
  | grow e =>
      simp only [step] at hs
      split_ifs at hs with hadm
      cases hs
      simp only [commitStore] at hadm
      split at hadm
      · rename_i sequence gapKey htok
        simp only [Bool.and_eq_true, decide_eq_true_eq, List.all_eq_true] at hadm
        obtain ⟨⟨hseq, hpos⟩, hall⟩ := hadm
        exact commitInv_grow h (hseq ▸ htok) hpos (fun x hx => (hall x hx).1) hfit
      · cases hadm
  | pass head =>
      simp only [step] at hs
      split_ifs at hs
      cases hs
      exact ⟨h.ordered, h.minted, h.fresh, h.views, h.marks⟩
  | arrive n =>
      simp only [step] at hs
      split at hs
      · cases hs
      · rename_i i hi
        split_ifs at hs
        cases hs
        exact h.inner hi rfl
  | fail n =>
      simp only [step] at hs
      split at hs
      · cases hs
      · rename_i i hi
        split_ifs at hs
        cases hs
        exact h.inner hi rfl
  | openAt position token accepts =>
      cases hs
      exact commitInv_open h hfit hopen
  | next v =>
      simp only [step] at hs
      split_ifs at hs
      cases hs
      exact commitInv_take h v
  | peek v =>
      simp only [step] at hs
      split_ifs at hs
      cases hs
      exact commitInv_refill h v
  | close v =>
      simp only [step] at hs
      split_ifs at hs
      cases hs
      exact commitInv_close h v

theorem commit_drained {readAhead : ℕ} {s : State ℕ E (Option ℕ × ℕ)} (h : CommitInv s) {v : ℕ}
    {view : View ℕ E} (hv : s.views[v]? = some view) (hm : view.member = true)
    (hseen : ∀ i, s.inner = some i → i.seen = s.log.length)
    (hnone : (take commitStore readAhead s v).1 = none)
    (hfull : full readAhead (take commitStore readAhead s v).2.views = false) :
    view.handed = beyond place view.accepts (placeOf view.openedToken) s.log := by
  obtain ⟨hsame, hbuf⟩ := take_none hnone
  rw [hsame] at hfull
  have hinv : CommitInv (refill commitStore readAhead s v) := commitInv_refill h v
  obtain ⟨hlog, -, harr, w, hw, hsamew⟩ := refill_frame commitStore readAhead s v hv
  have hok := hinv.views w (List.mem_of_getElem? hw)
  obtain ⟨i, hi, hmark⟩ := hinv.marks w (List.mem_of_getElem? hw) (hsamew.member.trans hm)
  have hav := refill_available commitStore_lawful hnone hv hfull hi
  obtain ⟨j, hj, hij⟩ := harr i hi
  have hread : ∀ e ∈ s.log, place e ≤ placeOf w.resume := by
    intro e he
    rw [hlog, available, hij, hseen j hj, List.take_length, List.filter_eq_nil_iff] at hav
    have hnot := hav e he
    rw [hinv.after_iff hi (hlog.symm ▸ he), not_lt] at hnot
    exact hnot.trans hmark.behind
  have hrest : beyond place w.accepts (placeOf w.resume) s.log = [] := by
    apply List.eq_nil_iff_forall_not_mem.mpr
    intro e he
    obtain ⟨hmem, hlt, -⟩ := mem_beyond.mp he
    exact absurd hlt (not_lt.mpr (hread e hmem))
  have hserved := hok.served
  rw [hbuf w hw, List.append_nil, hlog] at hserved
  calc view.handed = w.handed := hsamew.handed.symm
    _ = beyond place w.accepts (placeOf w.openedToken) s.log := by
        rw [hserved, beyond_split h.ordered hok.span, hrest, List.append_nil]
    _ = beyond place view.accepts (placeOf view.openedToken) s.log := by
        rw [hsamew.accepts, hsamew.openedToken]

theorem commitInv_reach {readAhead : ℕ} {s : State ℕ E (Option ℕ × ℕ)}
    (h : Reach (step commitStore readAhead)
      (fun s a => opensConsumed s a = true ∧ MarksFit s a) initial s) : CommitInv s :=
  h.invariant commitInv_initial fun _ _ _ _ hi hok hs => commitInv_step hi hok.2 hok.1 hs

/-- In every run whose openings and appends find the marks exact, every view has
been handed, in stream order and once each, accepted events after its opening
token, and all of them when `next()` runs dry with the log read to its end. -/
theorem views_served_in_commit_order {readAhead : ℕ} {s : State ℕ E (Option ℕ × ℕ)}
    (h : Reach (step commitStore readAhead)
      (fun s a => opensConsumed s a = true ∧ MarksFit s a) initial s)
    {v : ℕ} {view : View ℕ E} (hv : s.views[v]? = some view) :
    view.handed <+: beyond place view.accepts (placeOf view.openedToken) s.log ∧
      (beyond place view.accepts (placeOf view.openedToken) s.log).Nodup ∧
      (view.member = true → (∀ i, s.inner = some i → i.seen = s.log.length) →
        (take commitStore readAhead s v).1 = none →
        full readAhead (take commitStore readAhead s v).2.views = false →
        view.handed = beyond place view.accepts (placeOf view.openedToken) s.log) := by
  have hinv := commitInv_reach h
  have hok := hinv.views view (List.mem_of_getElem? hv)
  refine ⟨?_, (hinv.ordered.beyond _ _).nodup, ?_⟩
  · rw [beyond_split hinv.ordered hok.span, ← hok.served, List.append_assoc]
    exact List.prefix_append _ _
  · intro hm hseen hnone hfull
    exact commit_drained hinv hv hm hseen hnone hfull

def committed (sequence gapKey : ℕ) : SequencedEvent ℕ Unit :=
  ⟨sequence, (), some (gapAware sequence gapKey)⟩

/-- A second view opened behind the first, with the two orders in agreement. -/
def reopenedBehind : List (Action ℕ Unit) :=
  [.openAt 0 none fun _ => true, .grow (committed 1 3), .grow (committed 2 4),
    .grow (committed 3 5), .arrive 3, .next 0, .next 0, .next 0,
    .openAt 1 (some (gapAware 1 3)) fun _ => true, .arrive 3, .next 1, .next 1]

theorem views_served_in_commit_order_reopenedBehind :
    ∃ s view, Reach (step commitStore 4) (fun s a => opensConsumed s a = true ∧ MarksFit s a)
        (initial : State ℕ Unit (Option ℕ × ℕ)) s ∧
      s.views[1]? = some view ∧ view.handed.map (·.sequence) = [2, 3] ∧
      view.handed = beyond place view.accepts (placeOf view.openedToken) s.log := by
  have hs := reach_guarded_get (show (exec (guarded (step commitStore 4) fun s a =>
    opensConsumed s a = true ∧ MarksFit s a)
      (initial : State ℕ Unit (Option ℕ × ℕ)) reopenedBehind).isSome = true by rfl)
  refine ⟨_, _, hs, rfl, rfl, ?_⟩
  apply (views_served_in_commit_order (v := 1) hs rfl).2.2 rfl _ rfl rfl
  intro i hi
  cases hi
  rfl

/-- A second view opened ahead of the first is handed the event its token says is
consumed. -/
def openedAhead : List (Action ℕ Unit) :=
  [.grow (committed 1 3), .grow (committed 2 4),
    .openAt 1 (some (gapAware 1 3)) fun _ => true,
    .openAt 2 (some (gapAware 2 4)) fun _ => true, .arrive 2, .next 1]

theorem view_repeats_consumed_event :
    ¬ ∀ s, Reach (step commitStore 4) (fun s a => opensConsumed s a = true)
        (initial : State ℕ Unit (Option ℕ × ℕ)) s →
      ∀ view ∈ s.views,
        view.handed <+: beyond place view.accepts (placeOf view.openedToken) s.log := by
  intro h
  have hs := reach_guarded_get (show (exec (guarded (step commitStore 4) fun s a =>
    opensConsumed s a = true)
      (initial : State ℕ Unit (Option ℕ × ℕ)) openedAhead).isSome = true by rfl)
  have hlen := (h _ hs _ (List.mem_of_getElem? (i := 1) rfl)).length_le
  revert hlen
  decide

end Kronos.Processing.SharedStream
