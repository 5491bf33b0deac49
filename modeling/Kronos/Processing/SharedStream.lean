import Kronos.Lib.Transition
import Kronos.Lib.Window
import Kronos.Processing.TrackingToken

/-!
# One read of the log, handed to every segment a node holds

`sharedStream` keeps one stream of the store open and hands each of its views
the events that view accepts. The model follows it function by function. What
is abstracted is the store underneath: its log is the list of the events it
sends for the shared query, in stream order, and its stream is a cursor over
that list together with how much of the list has arrived. A `Store` says what
its cursors are and which event its log may take next, so one model serves a
log in position order and one in commit order.

A view stays in the list after it is closed; `member` says whether it is still
in the set the source iterates over. `opened`, `openedToken` and `handed`
record what the view was opened at and what `next()` has returned. Callbacks
only wake readers up and are left out.
-/
namespace Kronos.Processing

/-- An event with its position and, from a store that supplies one, the cursor
token positioned immediately after it. -/
structure SequencedEvent (K E : Type) where
  sequence : ℕ
  event : E
  token : Option (TrackingToken K)
  deriving DecidableEq, Repr

/-- The token just past an event. -/
def SequencedEvent.past {K E : Type} (e : SequencedEvent K E) : TrackingToken K :=
  e.token.getD (.globalSequence (e.sequence + 1))

namespace SharedStream
variable {K E : Type}

abbrev Log (K E : Type) := List (SequencedEvent K E)

structure View (K E : Type) where
  member : Bool
  /-- The position of the next event this view has not looked at. -/
  next : ℕ
  /-- Events below this were seen before the log was reopened behind this view. -/
  skipBelow : ℕ
  resume : Option (TrackingToken K)
  looked : Option (TrackingToken K)
  accepts : SequencedEvent K E → Bool
  buffer : List (SequencedEvent K E)
  opened : ℕ
  openedToken : Option (TrackingToken K)
  handed : List (SequencedEvent K E)

/-- The store's stream: its cursor, how much of the log has reached it, and
whether it has failed. -/
structure Inner (C : Type) where
  cursor : C
  seen : ℕ
  failed : Bool
  deriving DecidableEq, Repr

structure Store (K E C : Type) where
  /-- The cursor of a stream opened at a position, with a resume token if any. -/
  cursorAt : ℕ → Option (TrackingToken K) → C
  /-- Whether a stream at the cursor has still to hand out the event. -/
  after : C → SequencedEvent K E → Bool
  /-- The cursor once the event has been handed out. -/
  past : SequencedEvent K E → C
  /-- Whether the log, whose head is given, may take the event next. -/
  admits : Log K E → ℕ → SequencedEvent K E → Bool

structure State (K E C : Type) where
  log : Log K E
  /-- The position the next appended event is at or above. -/
  head : ℕ
  views : List (View K E)
  inner : Option (Inner C)
  /-- The position of the next event the log underneath hands out. -/
  readAt : ℕ

variable {C : Type}

def initial : State K E C := ⟨[], 0, [], none, 0⟩

/-- What the reading loop relies on to end: an event handed out is behind the
cursor, and from there on the cursor only moves forward. -/
structure Store.Lawful (S : Store K E C) : Prop where
  past_self : ∀ e, S.after (S.past e) e = false
  past_mono : ∀ d e x,
    S.after (S.past d) e = true → S.after (S.past e) x = true → S.after (S.past d) x = true

/-- What has reached the store's stream and was not handed out, in log order. -/
def available (S : Store K E C) (log : Log K E) (i : Inner C) : List (SequencedEvent K E) :=
  (log.take i.seen).filter (S.after i.cursor)

/-- The further behind of what was found so far and one more view. -/
def furtherBehind (found : Option (View K E)) (view : View K E) : Option (View K E) :=
  if view.member then
    match found with
    | none => some view
    | some f => if view.next < f.next then some view else found
  else found

/-- The view furthest behind: the first of the least `next`. -/
def furthestBehind (views : List (View K E)) : Option (View K E) :=
  views.foldl furtherBehind none

/-- What a reopening at `base` makes a view skip. -/
def View.skipTo (base : ℕ) (view : View K E) : View K E :=
  if view.member then { view with skipBelow := if base < view.next then view.next else 0 } else view

def reopen (S : Store K E C) (s : State K E C) : State K E C :=
  match furthestBehind s.views with
  | none => { s with inner := none }
  | some f =>
      { s with
        readAt := f.next
        views := s.views.map (View.skipTo f.next)
        inner := some ⟨S.cursorAt f.next f.resume, 0, false⟩ }

def full (readAhead : ℕ) (views : List (View K E)) : Bool :=
  views.any fun view => view.member && decide (readAhead ≤ view.buffer.length)

/-- One event handed to one view. -/
def View.look (e : SequencedEvent K E) (view : View K E) : View K E :=
  if view.member && !decide (e.sequence < view.skipBelow) then
    { view with
      next := e.sequence + 1
      resume := some e.past
      looked := some e.past
      buffer := if view.accepts e then view.buffer ++ [e] else view.buffer }
  else view

/-- One turn of the reading loop, or `none` when the loop condition fails. -/
def readOne (S : Store K E C) (readAhead : ℕ) (s : State K E C) : Option (State K E C) :=
  match s.inner with
  | none => none
  | some i =>
      if full readAhead s.views then none else
        match (available S s.log i).head? with
        | none => none
        | some e =>
            some { s with
              readAt := e.sequence + 1
              views := s.views.map (View.look e)
              inner := some { i with cursor := S.past e } }

def readLoop (S : Store K E C) (readAhead : ℕ) : ℕ → State K E C → State K E C
  | 0, s => s
  | fuel + 1, s =>
      match readOne S readAhead s with
      | none => s
      | some t => readLoop S readAhead fuel t

/-- Every turn hands out another event of the log, so its length bounds the loop. -/
def read (S : Store K E C) (readAhead : ℕ) (s : State K E C) : State K E C :=
  readLoop S readAhead s.log.length s

def newView (position : ℕ) (token : Option (TrackingToken K))
    (accepts : SequencedEvent K E → Bool) : View K E :=
  ⟨true, position, 0, token, none, accepts, [], position, token, []⟩

/-- Whether `open` reads the log again from the view furthest behind. -/
def mustReopen (s : State K E C) (position : ℕ) : Bool :=
  match s.inner with
  | none => true
  | some i => i.failed || decide (position < s.readAt)

theorem not_mustReopen {s : State K E C} {position : ℕ} (h : ¬ mustReopen s position = true) :
    s.inner ≠ none ∧ s.readAt ≤ position := by
  unfold mustReopen at h
  split at h
  · exact absurd rfl h
  · rename_i i hi
    simp only [Bool.or_eq_true, decide_eq_true_eq, not_or, Nat.not_lt] at h
    rw [hi]
    exact ⟨Option.some_ne_none i, h.2⟩

def openView (S : Store K E C) (s : State K E C) (position : ℕ)
    (token : Option (TrackingToken K)) (accepts : SequencedEvent K E → Bool) : State K E C :=
  let view := newView position token accepts
  if mustReopen s position then reopen S { s with views := s.views ++ [view] }
  else { s with views := s.views ++ [{ view with skipBelow := position }] }

/-- `if (ready(view) === 0) read()`. -/
def refill (S : Store K E C) (readAhead : ℕ) (s : State K E C) (v : ℕ) : State K E C :=
  match s.views[v]? with
  | none => s
  | some view => if view.buffer.isEmpty then read S readAhead s else s

def View.handOut (view : View K E) : View K E :=
  match view.buffer with
  | [] => view
  | e::rest => { view with buffer := rest, handed := view.handed ++ [e] }

/-- `next()` of view `v`: what it returns, and the state after it. -/
def take (S : Store K E C) (readAhead : ℕ) (s : State K E C) (v : ℕ) :
    Option (SequencedEvent K E) × State K E C :=
  let t := refill S readAhead s v
  (t.views[v]?.bind fun view => view.buffer.head?,
    { t with views := t.views.modify v View.handOut })

/-- `hasNextAvailable()` of view `v`. -/
def hasNextAvailable (S : Store K E C) (readAhead : ℕ) (s : State K E C) (v : ℕ) :
    Bool × State K E C :=
  let t := refill S readAhead s v
  (t.views[v]?.any fun view => !view.buffer.isEmpty, t)

def View.leave (view : View K E) : View K E := { view with member := false }

def closeView (s : State K E C) (v : ℕ) : State K E C :=
  let views := s.views.modify v View.leave
  { s with views := views, inner := if views.any (·.member) then s.inner else none }

/-- `progressToken()` of a view, when the store's stream would answer `answer`. -/
def progressToken (S : Store K E C) (s : State K E C) (view : View K E)
    (answer : Option (TrackingToken K)) : Option (TrackingToken K) :=
  if !view.buffer.isEmpty then none else
    let beyond :=
      match s.inner with
      | none => none
      | some i =>
          if decide (s.readAt ≤ view.next) && (available S s.log i).isEmpty then answer else none
    match beyond, view.looked with
    | some b, none => some b
    | some b, some l => if l.position < b.position then some b else some l
    | none, looked => looked

/-- The contract of the store's own `progressToken`: it does not run ahead of
the log, and what it has looked past has been handed out. -/
def Answers (S : Store K E C) (s : State K E C) (answer : Option (TrackingToken K)) : Prop :=
  ∀ i t, s.inner = some i → answer = some t →
    t.position ≤ s.head ∧ ∀ e ∈ s.log, e.sequence < t.position → S.after i.cursor e = false

inductive Action (K E : Type) where
  /-- An event the shared query asks for is appended. -/
  | grow (e : SequencedEvent K E)
  /-- The log grows by events the shared query leaves out. -/
  | pass (head : ℕ)
  /-- The first `n` events of the log have reached the store's stream. -/
  | arrive (n : ℕ)
  /-- The store's stream fails; the first `n` events can still be read from it. -/
  | fail (n : ℕ)
  | openAt (position : ℕ) (token : Option (TrackingToken K)) (accepts : SequencedEvent K E → Bool)
  | next (v : ℕ)
  | peek (v : ℕ)
  | close (v : ℕ)

def step (S : Store K E C) (readAhead : ℕ) (s : State K E C) :
    Action K E → Option (State K E C)
  | .grow e =>
      if S.admits s.log s.head e then
        some { s with log := s.log ++ [e], head := max s.head (e.sequence + 1) }
      else none
  | .pass head => if s.head ≤ head then some { s with head := head } else none
  | .arrive n =>
      match s.inner with
      | none => none
      | some i =>
          if i.seen ≤ n ∧ n ≤ s.log.length then some { s with inner := some { i with seen := n } }
          else none
  | .fail n =>
      match s.inner with
      | none => none
      | some i =>
          if n ≤ i.seen then some { s with inner := some { i with seen := n, failed := true } }
          else none
  | .openAt position token accepts => some (openView S s position token accepts)
  | .next v => if v < s.views.length then some (take S readAhead s v).2 else none
  | .peek v => if v < s.views.length then some (hasNextAvailable S readAhead s v).2 else none
  | .close v => if v < s.views.length then some (closeView s v) else none

/-! ## Rules both kinds of log use -/

theorem furtherBehind_cases (found : Option (View K E)) (w : View K E) :
    furtherBehind found w = found ∨ w.member = true ∧ furtherBehind found w = some w := by
  unfold furtherBehind
  split_ifs with hm
  · cases found with
    | none => exact Or.inr ⟨hm, rfl⟩
    | some f =>
        simp only
        split_ifs
        · exact Or.inr ⟨hm, rfl⟩
        · exact Or.inl rfl
  · exact Or.inl rfl

theorem furtherBehind_le_found {g : View K E} (w : View K E) :
    ∃ f, furtherBehind (some g) w = some f ∧ f.next ≤ g.next := by
  simp only [furtherBehind]
  split_ifs with hm hlt
  · exact ⟨w, rfl, hlt.le⟩
  · exact ⟨g, rfl, le_rfl⟩
  · exact ⟨g, rfl, le_rfl⟩

theorem furtherBehind_le_member (found : Option (View K E)) {w : View K E}
    (hm : w.member = true) : ∃ f, furtherBehind found w = some f ∧ f.next ≤ w.next := by
  unfold furtherBehind
  rw [if_pos hm]
  cases found with
  | none => exact ⟨w, rfl, le_rfl⟩
  | some g =>
      simp only
      split_ifs with hlt
      · exact ⟨w, rfl, le_rfl⟩
      · exact ⟨g, rfl, Nat.le_of_not_lt hlt⟩

/-- The fold keeps the least `next` of the members seen so far. -/
private theorem furthest_foldl (views : List (View K E)) (found : Option (View K E)) :
    (∀ f, views.foldl furtherBehind found = some f → found = some f ∨ f ∈ views ∧ f.member = true) ∧
      (∀ g, found = some g → ∃ f, views.foldl furtherBehind found = some f ∧ f.next ≤ g.next) ∧
      ∀ v ∈ views, v.member = true →
        ∃ f, views.foldl furtherBehind found = some f ∧ f.next ≤ v.next := by
  induction views generalizing found with
  | nil =>
      refine ⟨fun f hf => Or.inl hf, fun g hg => ⟨g, hg, le_rfl⟩, ?_⟩
      intro v hv
      exact absurd hv List.not_mem_nil
  | cons w views ih =>
      obtain ⟨h₁, h₂, h₃⟩ := ih (furtherBehind found w)
      simp only [List.foldl_cons]
      refine ⟨?_, ?_, ?_⟩
      · intro f hf
        rcases h₁ f hf with hw | ⟨hmem, hm⟩
        · rcases furtherBehind_cases found w with hk | ⟨hm, hk⟩
          · exact Or.inl (hk ▸ hw)
          · cases hk.symm.trans hw
            exact Or.inr ⟨List.mem_cons_self, hm⟩
        · exact Or.inr ⟨List.mem_cons_of_mem _ hmem, hm⟩
      · intro g hg
        subst hg
        obtain ⟨k, hk, hkg⟩ := furtherBehind_le_found (g := g) w
        obtain ⟨f, hf, hfk⟩ := h₂ k hk
        exact ⟨f, hf, hfk.trans hkg⟩
      · intro v hv hvm
        rcases List.mem_cons.mp hv with rfl | hv
        · obtain ⟨k, hk, hkv⟩ := furtherBehind_le_member found hvm
          obtain ⟨f, hf, hfk⟩ := h₂ k hk
          exact ⟨f, hf, hfk.trans hkv⟩
        · exact h₃ v hv hvm

theorem furthestBehind_some {views : List (View K E)} {f : View K E}
    (h : furthestBehind views = some f) :
    f ∈ views ∧ f.member = true ∧ ∀ v ∈ views, v.member = true → f.next ≤ v.next := by
  obtain ⟨h₁, _, h₃⟩ := furthest_foldl views none
  rcases h₁ f h with hf | ⟨hf, hm⟩
  · cases hf
  · refine ⟨hf, hm, ?_⟩
    intro v hv hvm
    obtain ⟨g, hg, hle⟩ := h₃ v hv hvm
    have hgf : g = f := Option.some.inj (hg.symm.trans h)
    exact hgf ▸ hle

theorem furthestBehind_none {views : List (View K E)} (h : furthestBehind views = none) :
    ∀ v ∈ views, v.member = false := by
  intro v hv
  by_contra hm
  obtain ⟨g, hg, _⟩ := (furthest_foldl views none).2.2 v hv (by simpa using hm)
  exact absurd (hg.symm.trans h) (by simp)

/-- What one turn of the loop preserves, the whole read preserves. -/
theorem read_induct {S : Store K E C} {I : State K E C → Prop} {readAhead : ℕ} {s : State K E C}
    (hone : ∀ s t, I s → readOne S readAhead s = some t → I t) (h : I s) :
    I (read S readAhead s) := by
  have hloop : ∀ fuel s, I s → I (readLoop S readAhead fuel s) := by
    intro fuel
    induction fuel with
    | zero => exact fun s hs => hs
    | succ fuel ih =>
        intro s hs
        simp only [readLoop]
        cases ho : readOne S readAhead s with
        | none => exact hs
        | some t => exact ih t (hone s t hs ho)
  exact hloop _ _ h

/-- A turn hands out the first available event. -/
theorem readOne_some {S : Store K E C} {readAhead : ℕ} {s t : State K E C}
    (h : readOne S readAhead s = some t) :
    ∃ i e, s.inner = some i ∧ (available S s.log i).head? = some e ∧
      full readAhead s.views = false ∧
      t = { s with readAt := e.sequence + 1, views := s.views.map (View.look e),
                   inner := some { i with cursor := S.past e } } := by
  unfold readOne at h
  split at h
  · cases h
  · rename_i i hi
    split_ifs at h with hc
    split at h
    · cases h
    · rename_i e he
      cases h
      exact ⟨i, e, hi, he, by simpa using hc, rfl⟩

theorem readOne_none {S : Store K E C} {readAhead : ℕ} {s : State K E C}
    (h : readOne S readAhead s = none) {i : Inner C} (hi : s.inner = some i)
    (hfull : full readAhead s.views = false) : available S s.log i = [] := by
  unfold readOne at h
  rw [hi] at h
  simp only [hfull, Bool.false_eq_true, if_false] at h
  split at h
  · rename_i he
    exact List.head?_eq_none_iff.mp he
  · cases h

/-- A turn leaves fewer events available. -/
theorem available_past_lt {S : Store K E C} (hS : S.Lawful) {log : Log K E} {i : Inner C}
    {d e : SequencedEvent K E} (hd : i.cursor = S.past d) (he : e ∈ available S log i) :
    (available S log { i with cursor := S.past e }).length < (available S log i).length := by
  have hafter : S.after (S.past d) e = true := hd ▸ (List.mem_filter.mp he).2
  have heq : available S log { i with cursor := S.past e } =
      (available S log i).filter (S.after (S.past e)) := by
    simp only [available, List.filter_filter, hd]
    apply List.filter_congr
    intro x _
    rw [Bool.eq_iff_iff, Bool.and_eq_true]
    exact ⟨fun hx => ⟨hx, hS.past_mono _ _ _ hafter hx⟩, fun hx => hx.1⟩
  rw [heq, List.length_filter_lt_length_iff_exists]
  exact ⟨e, he, by simp [hS.past_self e]⟩

/-- The first turn leaves at least the event it handed out behind. -/
theorem available_past_lt_log {S : Store K E C} (hS : S.Lawful) {log : Log K E} {i : Inner C}
    {e : SequencedEvent K E} (he : e ∈ available S log i) :
    (available S log { i with cursor := S.past e }).length < log.length := by
  have hmem : e ∈ log.take i.seen := (List.mem_filter.mp he).1
  have hlt : (available S log { i with cursor := S.past e }).length < (log.take i.seen).length := by
    rw [available, List.length_filter_lt_length_iff_exists]
    exact ⟨e, hmem, by simp [hS.past_self e]⟩
  exact hlt.trans_le (List.length_take_le' _ _)

/-- The loop ends because its condition fails, not because it ran out of fuel. -/
theorem readOne_read {S : Store K E C} (hS : S.Lawful) (readAhead : ℕ) (s : State K E C) :
    readOne S readAhead (read S readAhead s) = none := by
  have hloop : ∀ fuel (s : State K E C) i d, s.inner = some i → i.cursor = S.past d →
      (available S s.log i).length ≤ fuel →
        readOne S readAhead (readLoop S readAhead fuel s) = none := by
    intro fuel
    induction fuel with
    | zero =>
        intro s i d hi _ hlen
        cases ho : readOne S readAhead s with
        | none => simpa only [readLoop] using ho
        | some t =>
            obtain ⟨j, e, hj, he, -, -⟩ := readOne_some ho
            cases hi.symm.trans hj
            rw [List.length_eq_zero_iff.mp (Nat.le_zero.mp hlen)] at he
            cases he
    | succ fuel ih =>
        intro s i d hi hd hlen
        simp only [readLoop]
        cases ho : readOne S readAhead s with
        | none => exact ho
        | some t =>
            obtain ⟨j, e, hj, he, -, rfl⟩ := readOne_some ho
            cases hi.symm.trans hj
            have hlt := available_past_lt hS hd (List.mem_of_head? he)
            exact ih _ _ e rfl rfl (by simp only; omega)
  unfold read
  cases ho : readOne S readAhead s with
  | none =>
      cases s.log.length with
      | zero => exact ho
      | succ n => simp only [readLoop, ho]
  | some t =>
      obtain ⟨i, e, hi, he, -, rfl⟩ := readOne_some ho
      have hlt := available_past_lt_log hS (List.mem_of_head? he)
      obtain ⟨n, hn⟩ := Nat.exists_eq_succ_of_ne_zero (Nat.ne_of_gt (Nat.zero_lt_of_lt hlt))
      rw [hn]
      simp only [readLoop, ho]
      exact hloop _ _ _ e rfl rfl (by simp only; omega)

theorem look_skip {v : View K E} {e : SequencedEvent K E}
    (h : v.member = false ∨ e.sequence < v.skipBelow) : v.look e = v := by
  unfold View.look
  rw [if_neg]
  rcases h with h | h <;> simp [h]

theorem look_read {v : View K E} {e : SequencedEvent K E} (hm : v.member = true)
    (h : v.skipBelow ≤ e.sequence) :
    v.look e = { v with next := e.sequence + 1, resume := some e.past, looked := some e.past,
                        buffer := if v.accepts e then v.buffer ++ [e] else v.buffer } := by
  unfold View.look
  rw [if_pos]
  simpa [hm] using h

theorem look_member (v : View K E) (e : SequencedEvent K E) : (v.look e).member = v.member := by
  unfold View.look
  split <;> rfl

theorem skipTo_member (base : ℕ) (v : View K E) : (v.skipTo base).member = v.member := by
  unfold View.skipTo
  split <;> rfl

theorem handOut_frame (v : View K E) :
    v.handOut.member = v.member ∧ v.handOut.next = v.next ∧ v.handOut.skipBelow = v.skipBelow := by
  unfold View.handOut
  split <;> exact ⟨rfl, rfl, rfl⟩

theorem mem_modify {α : Type} {l : List α} {i : ℕ} {f : α → α} {x : α} (h : x ∈ l.modify i f) :
    x ∈ l ∨ ∃ y ∈ l, x = f y := by
  obtain ⟨j, hj⟩ := List.mem_iff_getElem?.mp h
  rw [List.getElem?_modify] at hj
  obtain ⟨y, hy, rfl⟩ := Option.map_eq_some_iff.mp hj
  have hyl := List.mem_of_getElem? hy
  split_ifs
  · exact Or.inr ⟨y, hyl, rfl⟩
  · exact Or.inl hyl

theorem handOut_resume (v : View K E) : v.handOut.resume = v.resume := by
  unfold View.handOut
  split <;> rfl

/-- A view that is still a member after a close was not the one closed, and the
read underneath goes on. -/
theorem closeView_member {s : State K E C} {v : ℕ} {w : View K E}
    (hw : w ∈ (closeView s v).views) (hm : w.member = true) :
    w ∈ s.views ∧ (closeView s v).inner = s.inner := by
  have hany : (s.views.modify v View.leave).any (·.member) = true :=
    List.any_eq_true.mpr ⟨w, hw, hm⟩
  refine ⟨?_, by simp only [closeView, if_pos hany]⟩
  rcases mem_modify hw with hw | ⟨u, hu, rfl⟩
  · exact hw
  · cases hm

theorem not_full {readAhead : ℕ} {views : List (View K E)} (h : full readAhead views = false)
    {v : View K E} (hv : v ∈ views) (hm : v.member = true) : v.buffer.length < readAhead := by
  have hall := List.any_eq_false.mp h v hv
  simp only [hm, Bool.true_and, decide_eq_true_eq] at hall
  omega

/-- A view reports where it has looked to, or what the store answers while the
view is level with the read. -/
theorem progressToken_cases {S : Store K E C} {s : State K E C} {view : View K E}
    {answer : Option (TrackingToken K)} {t : TrackingToken K}
    (h : progressToken S s view answer = some t) :
    view.buffer = [] ∧ (view.looked = some t ∨
      answer = some t ∧ ∃ i, s.inner = some i ∧ s.readAt ≤ view.next ∧
        available S s.log i = []) := by
  unfold progressToken at h
  split_ifs at h with hempty
  refine ⟨by simpa using hempty, ?_⟩
  cases hinner : s.inner with
  | none =>
      simp only [hinner] at h
      exact Or.inl h
  | some i =>
      simp only [hinner] at h
      by_cases hc : (decide (s.readAt ≤ view.next) && (available S s.log i).isEmpty) = true
      · rw [if_pos hc] at h
        simp only [Bool.and_eq_true, decide_eq_true_eq, List.isEmpty_iff] at hc
        have hbeyond : ∀ b, answer = some b → b = t → answer = some t ∧
            ∃ j, some i = some j ∧ s.readAt ≤ view.next ∧ available S s.log j = [] := by
          intro b hb hbt
          exact ⟨hbt ▸ hb, i, rfl, hc⟩
        cases hanswer : answer with
        | none =>
            rw [hanswer] at h
            exact Or.inl h
        | some b =>
            rw [hanswer] at h hbeyond
            cases hl : view.looked with
            | none =>
                rw [hl] at h
                exact Or.inr (hbeyond b rfl (Option.some.inj h))
            | some l =>
                simp only [hl] at h
                split_ifs at h
                · exact Or.inr (hbeyond b rfl (Option.some.inj h))
                · exact Or.inl h
      · rw [if_neg hc] at h
        exact Or.inl h

/-- Nothing to hand out leaves the views as the read left them. -/
theorem take_none {S : Store K E C} {readAhead : ℕ} {s : State K E C} {v : ℕ}
    (h : (take S readAhead s v).1 = none) :
    (take S readAhead s v).2 = refill S readAhead s v ∧
      ∀ view, (refill S readAhead s v).views[v]? = some view → view.buffer = [] := by
  have hbuf : ∀ view, (refill S readAhead s v).views[v]? = some view → view.buffer = [] := by
    intro view hview
    simp only [take, hview, Option.bind_some] at h
    exact List.head?_eq_none_iff.mp h
  refine ⟨?_, hbuf⟩
  have hsame : (refill S readAhead s v).views.modify v View.handOut =
      (refill S readAhead s v).views := by
    apply List.ext_getElem?
    intro j
    rw [List.getElem?_modify]
    split_ifs with hj
    · subst hj
      cases hview : (refill S readAhead s v).views[v]? with
      | none => rfl
      | some view => simp [View.handOut, hbuf view hview]
    · simp
  simp only [take, hsame]

/-- What a view is for and what it was handed. -/
structure SameHolder (view after : View K E) : Prop where
  member : after.member = view.member
  opened : after.opened = view.opened
  openedToken : after.openedToken = view.openedToken
  accepts : after.accepts = view.accepts
  handed : after.handed = view.handed

theorem SameHolder.trans {u v w : View K E} (h : SameHolder u v) (k : SameHolder v w) :
    SameHolder u w :=
  ⟨k.member.trans h.member, k.opened.trans h.opened, k.openedToken.trans h.openedToken,
    k.accepts.trans h.accepts, k.handed.trans h.handed⟩

theorem look_frame (view : View K E) (e : SequencedEvent K E) :
    SameHolder view (view.look e) := by
  unfold View.look
  split <;> exact ⟨rfl, rfl, rfl, rfl, rfl⟩

theorem sameHolder_refl (view : View K E) : SameHolder view view := ⟨rfl, rfl, rfl, rfl, rfl⟩

theorem skipTo_sameHolder (base : ℕ) (view : View K E) : SameHolder view (view.skipTo base) := by
  unfold View.skipTo
  split <;> exact ⟨rfl, rfl, rfl, rfl, rfl⟩

theorem reopen_holder {S : Store K E C} {s : State K E C} {v : ℕ} {view : View K E}
    (hv : s.views[v]? = some view) :
    ∃ after, (reopen S s).views[v]? = some after ∧ SameHolder view after := by
  unfold reopen
  split
  · exact ⟨view, hv, sameHolder_refl view⟩
  · rename_i f hf
    refine ⟨view.skipTo f.next, ?_, skipTo_sameHolder _ _⟩
    simp [hv]

theorem openView_holder {S : Store K E C} {s : State K E C} {v : ℕ} {view : View K E}
    (hv : s.views[v]? = some view) (position : ℕ) (token : Option (TrackingToken K))
    (accepts : SequencedEvent K E → Bool) :
    ∃ after, (openView S s position token accepts).views[v]? = some after ∧
      SameHolder view after := by
  have hlt : v < s.views.length := (List.getElem?_eq_some_iff.mp hv).1
  unfold openView
  dsimp only
  split_ifs
  · apply reopen_holder
    rw [List.getElem?_append_left hlt]
    exact hv
  · refine ⟨view, ?_, sameHolder_refl view⟩
    simp only
    rw [List.getElem?_append_left hlt]
    exact hv

theorem openView_log (S : Store K E C) (s : State K E C) (position : ℕ)
    (token : Option (TrackingToken K)) (accepts : SequencedEvent K E → Bool) :
    (openView S s position token accepts).log = s.log ∧
      (openView S s position token accepts).head = s.head := by
  unfold openView reopen
  dsimp only
  split_ifs
  · split <;> exact ⟨rfl, rfl⟩
  · exact ⟨rfl, rfl⟩

theorem openView_length (S : Store K E C) (s : State K E C) (position : ℕ)
    (token : Option (TrackingToken K)) (accepts : SequencedEvent K E → Bool) :
    (openView S s position token accepts).views.length = s.views.length + 1 := by
  unfold openView reopen
  dsimp only
  split_ifs
  · split <;> simp
  · simp

/-- The view that has just been opened. -/
theorem openView_new (S : Store K E C) (s : State K E C) (position : ℕ)
    (token : Option (TrackingToken K)) (accepts : SequencedEvent K E → Bool) :
    ∃ view, (openView S s position token accepts).views[s.views.length]? = some view ∧
      view.member = true ∧ view.accepts = accepts ∧ view.opened = position ∧ view.handed = [] := by
  unfold openView
  dsimp only
  split_ifs
  · obtain ⟨view, hview, hsame⟩ := reopen_holder
      (show ({ s with views := s.views ++ [newView position token accepts] } :
        State K E C).views[s.views.length]? = some (newView position token accepts) by
          simp)
    exact ⟨view, hview, hsame.member, hsame.accepts, hsame.opened, hsame.handed⟩
  · exact ⟨{ newView position token accepts with skipBelow := position }, by
      simp, rfl, rfl, rfl, rfl⟩

/-- A read looks at events and changes nothing else. -/
theorem read_frame (S : Store K E C) (readAhead : ℕ) (s : State K E C) {v : ℕ}
    {view : View K E} (hv : s.views[v]? = some view) :
    (read S readAhead s).log = s.log ∧ (read S readAhead s).head = s.head ∧
      (∀ i, (read S readAhead s).inner = some i → ∃ j, s.inner = some j ∧ i.seen = j.seen) ∧
      ∃ after, (read S readAhead s).views[v]? = some after ∧ SameHolder view after := by
  refine read_induct (I := fun t => t.log = s.log ∧ t.head = s.head ∧
      (∀ i, t.inner = some i → ∃ j, s.inner = some j ∧ i.seen = j.seen) ∧
      ∃ after, t.views[v]? = some after ∧ SameHolder view after)
    ?_ ⟨rfl, rfl, fun i hi => ⟨i, hi, rfl⟩, view, hv, rfl, rfl, rfl, rfl, rfl⟩
  rintro t u ⟨hlog, hhead, hseen, w, hw, hsame⟩ hone
  obtain ⟨i, e, hi, -, -, rfl⟩ := readOne_some hone
  refine ⟨hlog, hhead, ?_, w.look e, ?_, hsame.trans (look_frame w e)⟩
  · intro k hk
    cases hk
    exact hseen i hi
  · simp [hw]

theorem refill_frame (S : Store K E C) (readAhead : ℕ) (s : State K E C) (u : ℕ) {v : ℕ}
    {view : View K E} (hv : s.views[v]? = some view) :
    (refill S readAhead s u).log = s.log ∧ (refill S readAhead s u).head = s.head ∧
      (∀ i, (refill S readAhead s u).inner = some i → ∃ j, s.inner = some j ∧ i.seen = j.seen) ∧
      ∃ after, (refill S readAhead s u).views[v]? = some after ∧ SameHolder view after := by
  have hsame : s.log = s.log ∧ s.head = s.head ∧
      (∀ i, s.inner = some i → ∃ j, s.inner = some j ∧ i.seen = j.seen) ∧
      ∃ after, s.views[v]? = some after ∧ SameHolder view after :=
    ⟨rfl, rfl, fun i hi => ⟨i, hi, rfl⟩, view, hv, rfl, rfl, rfl, rfl, rfl⟩
  unfold refill
  split
  · exact hsame
  · split_ifs
    · exact read_frame S readAhead s hv
    · exact hsame

/-- `next()` hands its view what it returns and leaves the other views' holders alone. -/
theorem take_frame (S : Store K E C) (readAhead : ℕ) (s : State K E C) (u : ℕ) {v : ℕ}
    {view : View K E} (hv : s.views[v]? = some view) :
    (take S readAhead s u).2.log = s.log ∧ (take S readAhead s u).2.head = s.head ∧
      ∃ after, (take S readAhead s u).2.views[v]? = some after ∧
        SameHolder { view with handed :=
          if u = v then view.handed ++ (take S readAhead s u).1.toList
          else view.handed } after := by
  obtain ⟨hlog, hhead, -, w, hw, hsame⟩ := refill_frame S readAhead s u hv
  refine ⟨hlog, hhead, ?_⟩
  simp only [take, List.getElem?_modify, hw]
  by_cases huv : u = v
  · subst huv
    simp only [hw, if_true, Option.bind_some]
    cases hbuf : w.buffer with
    | nil =>
        refine ⟨w, by simp [View.handOut, hbuf], hsame.member, hsame.opened, hsame.openedToken,
          hsame.accepts, ?_⟩
        simp [hsame.handed]
    | cons e rest =>
        refine ⟨_, rfl, ?_⟩
        simp only [View.handOut, hbuf]
        exact ⟨hsame.member, hsame.opened, hsame.openedToken, hsame.accepts, by simp [hsame.handed]⟩
  · simp only [huv, if_false]
    exact ⟨w, rfl, hsame⟩

theorem refill_length (S : Store K E C) (readAhead : ℕ) (s : State K E C) (v : ℕ) :
    (refill S readAhead s v).views.length = s.views.length := by
  have hread : (read S readAhead s).views.length = s.views.length := by
    refine read_induct (I := fun t => t.views.length = s.views.length) ?_ rfl
    intro t u ht hone
    obtain ⟨i, e, -, -, -, rfl⟩ := readOne_some hone
    rw [List.length_map]
    exact ht
  unfold refill
  split
  · rfl
  · split_ifs
    · exact hread
    · rfl

theorem take_length (S : Store K E C) (readAhead : ℕ) (s : State K E C) (v : ℕ) :
    (take S readAhead s v).2.views.length = s.views.length := by
  simp only [take, List.length_modify, refill_length]

/-- A read that found nothing for the view has handed out all that has arrived,
unless a full buffer held it up. -/
theorem refill_available {S : Store K E C} (hS : S.Lawful) {readAhead : ℕ}
    {s : State K E C} {v : ℕ} (hnone : (take S readAhead s v).1 = none)
    {view : View K E} (hv : s.views[v]? = some view)
    (hfull : full readAhead (refill S readAhead s v).views = false) {i : Inner C}
    (hi : (refill S readAhead s v).inner = some i) :
    available S (refill S readAhead s v).log i = [] := by
  by_cases hempty : view.buffer.isEmpty = true
  · have hr : refill S readAhead s v = read S readAhead s := by
      simp [refill, hv, hempty]
    rw [hr] at hi hfull ⊢
    exact readOne_none (readOne_read hS readAhead s) hi hfull
  · have hr : refill S readAhead s v = s := by
      simp [refill, hv, hempty]
    have hbuf := (take_none hnone).2 view (hr.symm ▸ hv)
    exact absurd (by simp [hbuf]) hempty

end SharedStream
end Kronos.Processing
