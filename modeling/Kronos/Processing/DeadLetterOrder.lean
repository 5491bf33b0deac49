import Kronos.Processing.DeadLetterQueue

/-!
# A lane keeps its order

At most one walk is under way in a lane, and what it still has to replay is a
prefix of the lane: new letters arrive behind it and nothing else touches the
front. So the events that are done, followed by the letters that are parked, are
the delivered events in log order.

A replay that commits and then throws before its letter is evicted leaves the
letter of a done event in the lane, where the next walk replays it once more.

With backoff, `retryNow` replaces the head by a new object. While a walk is still
to replay that head it goes on with the old object, finds nothing to evict after
its commit and puts a second letter at the front after its failure.
-/
namespace Kronos.Processing.DeadLetterQueue
open Kronos.Lib.Transition

variable {wrapped : Bool} {s t : Lane} {walk : Option Walk}

/-- What of the lane is left once a committed replay has evicted its letter. -/
def remaining (letters : List DeadLetter) : Option Walk → List DeadLetter
  | some ⟨_::_, .committed⟩ => letters.tail
  | _ => letters

/-- A failure of the letter that is not on the letter yet. -/
def owed (letter : DeadLetter) : Option Walk → ℕ
  | some ⟨failed::_, .failed _⟩ => if failed.object = letter.object then 1 else 0
  | _ => 0

structure Inv (wrapped : Bool) (s : Lane) (walk : Option Walk) : Prop where
  walks : s.walks = walk.toList
  processing : s.processing = walk.isSome
  fresh : ∀ letter ∈ s.letters, letter.object < s.objects
  distinct : (s.letters.map DeadLetter.object).Nodup
  ahead : ∀ w ∈ walk, w.todo <+: s.letters
  busy : ∀ w ∈ walk, w.todo = [] → w.stage = .evicted
  recorded : wrapped = true → ∀ letter todo backoff, walk = some ⟨letter::todo, .failed backoff⟩ →
    ∃ b, backoff = some b ∧ b.attempts = letter.attempts + 1
  handling : s.handling = true → s.letters = []
  order : s.completed ++ (remaining s.letters walk).map DeadLetter.event = List.range s.delivered
  counted : wrapped = true → ∀ letter ∈ s.letters,
    letter.attempts + owed letter walk = s.failures letter.event
  unfailed : ∀ e, s.delivered ≤ e → s.failures e = 0

theorem inv_initial : Inv wrapped initial none where
  walks := rfl
  processing := rfl
  fresh := by
    intro letter hletter
    cases hletter
  distinct := List.nodup_nil
  ahead := by
    intro w hw
    cases hw
  busy := by
    intro w hw
    cases hw
  recorded := by
    intro _ letter todo backoff hwalk
    cases hwalk
  handling := fun _ => rfl
  order := rfl
  counted := by
    intro _ letter hletter
    cases hletter
  unfailed := fun _ _ => rfl

/-- The walk an action is about is the one there is. -/
theorem Inv.walk_eq (h : Inv wrapped s walk) {i : ℕ} {w : Walk} (hw : s.walks[i]? = some w) :
    walk = some w ∧ i = 0 := by
  rw [h.walks] at hw
  cases walk with
  | none => cases hw
  | some v =>
      cases i with
      | zero => exact ⟨hw, rfl⟩
      | succ i => cases hw

/-- The first letter of a walk is the head of the lane. -/
theorem Inv.head (h : Inv wrapped s walk) {letter : DeadLetter} {todo : List DeadLetter}
    {stage : Stage} (hwalk : walk = some ⟨letter::todo, stage⟩) :
    ∃ rest, s.letters = letter::rest ∧ todo <+: rest := by
  obtain ⟨rest, hrest⟩ := h.ahead _ hwalk
  exact ⟨todo ++ rest, hrest.symm, List.prefix_append todo rest⟩

theorem evict_head (letter : DeadLetter) (rest : List DeadLetter) :
    evict (letter::rest) letter = rest := by
  unfold evict
  exact List.eraseP_cons_of_pos (decide_eq_true rfl)

theorem Inv.settling (h : Inv wrapped s walk) : s.parked = remaining s.letters walk := by
  unfold Lane.parked Lane.settling
  rw [h.walks]
  cases hwalk : walk with
  | none => rfl
  | some w =>
      obtain ⟨todo, stage⟩ := w
      cases todo with
      | nil => cases stage <;> rfl
      | cons letter todo =>
          cases stage with
          | committed =>
              obtain ⟨rest, hletters, -⟩ := h.head hwalk
              change evict s.letters letter = s.letters.tail
              rw [hletters, evict_head, List.tail_cons]
          | replaying => rfl
          | replayed => rfl
          | failed backoff => rfl
          | evicted => rfl

/-- Without a letter there is nothing a walk could still replay. -/
theorem Inv.rests (h : Inv wrapped s walk) (hletters : s.letters = []) :
    walk = none ∨ walk = some ⟨[], .evicted⟩ := by
  cases hwalk : walk with
  | none => exact Or.inl rfl
  | some w =>
      have hnil : w.todo = [] := by
        have hahead := h.ahead w hwalk
        rw [hletters] at hahead
        exact List.prefix_nil.mp hahead
      have hstage := h.busy w hwalk hnil
      obtain ⟨todo, stage⟩ := w
      exact Or.inr (by rw [← hnil, ← hstage])

theorem Inv.events_nodup (h : Inv wrapped s walk) {letter : DeadLetter} {rest : List DeadLetter}
    (hletters : s.letters = letter::rest) (hwalk : remaining s.letters walk = s.letters)
    {other : DeadLetter} (hother : other ∈ rest) : other.event ≠ letter.event := by
  have horder := h.order
  rw [hwalk, hletters] at horder
  have hnodup : (s.completed ++ (letter::rest).map DeadLetter.event).Nodup := by
    rw [horder]
    exact List.nodup_range
  have hcons := (List.nodup_append.mp hnodup).2.1
  rw [List.map_cons, List.nodup_cons] at hcons
  intro heq
  exact hcons.1 (heq ▸ List.mem_map_of_mem hother)

theorem remaining_append {letters : List DeadLetter} (hletters : letters ≠ [])
    (letter : DeadLetter) :
    remaining (letters ++ [letter]) walk = remaining letters walk ++ [letter] := by
  unfold remaining
  split
  · exact List.tail_append_of_ne_nil hletters
  · rfl

/-- A letter that is made now is not one a walk has failed on. -/
theorem Inv.owed_new (h : Inv wrapped s walk) (event : ℕ) (backoff : Option BackoffState) :
    owed ⟨s.objects, event, backoff⟩ walk = 0 := by
  unfold owed
  split
  · rename_i failed todo _
    obtain ⟨rest, hletters, -⟩ := h.head rfl
    have hlt := h.fresh failed (by rw [hletters]; exact List.mem_cons_self)
    exact if_neg (Nat.ne_of_lt hlt)
  · rfl

/-- Behind the letters that are there one more is parked. -/
theorem Inv.park (h : Inv wrapped s walk) (hletters : s.letters ≠ []) :
    Inv wrapped (s.park none) walk where
  walks := h.walks
  processing := h.processing
  fresh := by
    intro letter hletter
    rcases List.mem_append.mp hletter with hold | hnew
    · exact Nat.lt_succ_of_lt (h.fresh letter hold)
    · rw [List.mem_singleton.mp hnew]
      exact Nat.lt_succ_self _
  distinct := by
    change ((s.letters ++ [_]).map DeadLetter.object).Nodup
    rw [List.map_append]
    refine List.nodup_append.mpr ⟨h.distinct, List.nodup_singleton _, ?_⟩
    intro a ha b hb
    obtain ⟨letter, hletter, rfl⟩ := List.mem_map.mp ha
    rw [List.mem_singleton.mp hb]
    exact Nat.ne_of_lt (h.fresh letter hletter)
  ahead := fun w hw => (h.ahead w hw).trans (List.prefix_append _ _)
  busy := h.busy
  recorded := h.recorded
  handling := fun hhandling => absurd (h.handling hhandling) hletters
  order := by
    change s.completed ++ (remaining (s.letters ++ [_]) walk).map _ = List.range (s.delivered + 1)
    rw [remaining_append hletters, List.map_append, ← List.append_assoc, h.order, List.range_succ]
    rfl
  counted := by
    intro hwrapped letter hletter
    rcases List.mem_append.mp hletter with hold | hnew
    · exact h.counted hwrapped letter hold
    · rw [List.mem_singleton.mp hnew, h.owed_new]
      exact (h.unfailed s.delivered (le_refl _)).symm
  unfailed := fun e he => h.unfailed e (Nat.le_of_succ_le he)

/-- The handlers of an event are done; no letter was there to wait for. -/
theorem Inv.handled (h : Inv wrapped s walk) (hhandling : s.handling = true) :
    Inv wrapped { s with
      handling := false, delivered := s.delivered + 1, completed :=
        s.completed ++ [s.delivered] } walk where
  walks := h.walks
  processing := h.processing
  fresh := h.fresh
  distinct := h.distinct
  ahead := h.ahead
  busy := h.busy
  recorded := h.recorded
  handling := by
    intro hfalse
    cases hfalse
  order := by
    have hletters := h.handling hhandling
    have horder := h.order
    have hnil : remaining s.letters walk = [] := by
      rcases h.rests hletters with rfl | rfl
      · exact hletters
      · exact hletters
    rw [hnil, List.map_nil, List.append_nil] at horder
    change s.completed ++ [s.delivered] ++ (remaining s.letters walk).map _ =
      List.range (s.delivered + 1)
    rw [hnil, List.map_nil, List.append_nil, horder, List.range_succ]
  counted := h.counted
  unfailed := fun e he => h.unfailed e (Nat.le_of_succ_le he)

/-- A handler failed and its event is the first letter of the lane. -/
theorem Inv.handlerFails (h : Inv wrapped s walk) (hhandling : s.handling = true) (delay : Delay) :
    Inv wrapped
      { (s.fail s.delivered).park (if wrapped then some (stamp 1 delay s.now) else none) with
      handling := false } walk := by
  have hletters := h.handling hhandling
  have hrests := h.rests hletters
  have horder := h.order
  have hremaining : ∀ letters, remaining letters walk = letters := by
    rcases hrests with rfl | rfl
    · exact fun _ => rfl
    · exact fun _ => rfl
  rw [hremaining, hletters, List.map_nil, List.append_nil] at horder
  refine ⟨h.walks, h.processing, ?_, ?_, ?_, h.busy, h.recorded, ?_, ?_, ?_, ?_⟩
  · intro letter hletter
    change letter ∈ s.letters ++ [_] at hletter
    rw [hletters, List.nil_append] at hletter
    rw [List.mem_singleton.mp hletter]
    exact Nat.lt_succ_self _
  · change ((s.letters ++ [_]).map DeadLetter.object).Nodup
    rw [hletters]
    exact List.nodup_singleton _
  · exact fun w hw => (h.ahead w hw).trans (List.prefix_append _ _)
  · intro hfalse
    cases hfalse
  · change s.completed ++ (remaining (s.letters ++ [_]) walk).map _ = List.range (s.delivered + 1)
    rw [hremaining, hletters, horder, List.range_succ]
    rfl
  · intro hwrapped letter hletter
    change letter ∈ s.letters ++ [_] at hletter
    rw [hletters, List.nil_append] at hletter
    rw [List.mem_singleton.mp hletter, hwrapped]
    have howed := h.owed_new s.delivered (some (stamp 1 delay s.now))
    change 1 + owed ⟨s.objects, s.delivered, some (stamp 1 delay s.now)⟩ walk =
      (if s.delivered = s.delivered then s.failures s.delivered + 1 else _)
    rw [if_pos rfl, h.unfailed s.delivered (le_refl _), howed]
  · intro e he
    change s.delivered + 1 ≤ e at he
    change (if e = s.delivered then s.failures e + 1 else s.failures e) = 0
    rw [if_neg (by omega), h.unfailed e (by omega)]

/-- A walk that has neither committed nor failed owes the lane nothing. -/
def Walk.plain (w : Walk) : Bool :=
  match w.stage with
  | .committed => false
  | .failed _ => false
  | _ => true

theorem remaining_plain {w : Walk} (hw : w.plain = true) (letters : List DeadLetter) :
    remaining letters (some w) = letters := by
  unfold remaining
  split
  · rename_i heq
    cases heq
    cases hw
  · rfl

theorem owed_plain {w : Walk} (hw : w.plain = true) (letter : DeadLetter) :
    owed letter (some w) = 0 := by
  unfold owed
  split
  · rename_i heq
    cases heq
    cases hw
  · rfl

/-- One plain walk in the place of another, or of none. -/
theorem Inv.plain (h : Inv wrapped s walk) {v : Walk} (hv : v.plain = true)
    (hahead : v.todo <+: s.letters) (hbusy : v.todo = [] → v.stage = .evicted)
    (hremaining : remaining s.letters walk = s.letters) (howed : ∀ letter, owed letter walk = 0)
    (hwalks : t.walks = [v]) (hprocessing : t.processing = true)
    (hframe : t = { s with walks := t.walks, processing := t.processing }) :
    Inv wrapped t (some v) := by
  rw [hframe]
  refine ⟨hwalks, hprocessing, h.fresh, h.distinct, ?_, ?_, ?_, h.handling, ?_, ?_, h.unfailed⟩
  · intro w hw
    cases hw
    exact hahead
  · intro w hw
    cases hw
    exact hbusy
  · intro _ letter todo backoff heq
    cases heq
    cases hv
  · have horder := h.order
    rw [hremaining] at horder
    change s.completed ++ (remaining s.letters (some v)).map _ = _
    rw [remaining_plain hv]
    exact horder
  · intro hwrapped letter hletter
    have hcounted := h.counted hwrapped letter hletter
    rw [howed] at hcounted
    rw [owed_plain hv]
    exact hcounted

/-- A plain walk ends. -/
theorem Inv.ended (h : Inv wrapped s walk) (hremaining : remaining s.letters walk = s.letters)
    (howed : ∀ letter, owed letter walk = 0)
    (hwalks : t.walks = []) (hprocessing : t.processing = false)
    (hframe : t = { s with walks := t.walks, processing := t.processing }) :
    Inv wrapped t none := by
  rw [hframe]
  refine ⟨hwalks, hprocessing, h.fresh, h.distinct, ?_, ?_, ?_, h.handling, ?_, ?_, h.unfailed⟩
  · intro w hw
    cases hw
  · intro w hw
    cases hw
  · intro _ letter todo backoff heq
    cases heq
  · have horder := h.order
    rw [hremaining] at horder
    exact horder
  · intro hwrapped letter hletter
    have hcounted := h.counted hwrapped letter hletter
    rw [howed] at hcounted
    exact hcounted

/-- The replay failed: its failure counts, but is not on the letter yet. -/
theorem Inv.replayFails {letter : DeadLetter} {todo : List DeadLetter}
    (h : Inv wrapped s (some ⟨letter::todo, .replaying⟩)) (delay : Delay) :
    Inv wrapped ((s.fail letter.event).setWalk 0 ⟨letter::todo, .failed
        (if wrapped then some (stamp (letter.attempts + 1) delay s.now) else none)⟩)
      (some ⟨letter::todo, .failed
        (if wrapped then some (stamp (letter.attempts + 1) delay s.now) else none)⟩) := by
  obtain ⟨rest, hletters, -⟩ := h.head rfl
  refine ⟨?_, h.processing, h.fresh, h.distinct, ?_, ?_, ?_, h.handling, h.order, ?_, ?_⟩
  · change s.walks.set 0 _ = _
    rw [h.walks]
    rfl
  · intro w hw
    cases hw
    exact h.ahead ⟨letter::todo, .replaying⟩ rfl
  · intro w hw hnil
    cases hw
    cases hnil
  · intro hwrapped l ls backoff heq
    cases heq
    rw [hwrapped]
    exact ⟨_, rfl, rfl⟩
  · intro hwrapped other hother
    have hcounted := h.counted hwrapped other hother
    rw [owed_plain rfl, Nat.add_zero] at hcounted
    change other.attempts + (if letter.object = other.object then 1 else 0) =
      (if other.event = letter.event then s.failures other.event + 1 else s.failures other.event)
    change other ∈ s.letters at hother
    rw [hletters] at hother
    rcases List.mem_cons.mp hother with rfl | hrest
    · rw [if_pos rfl, if_pos rfl, hcounted]
    · have hevent := h.events_nodup hletters (remaining_plain rfl _) hrest
      have hobject : letter.object ≠ other.object := by
        have hdistinct := h.distinct
        rw [hletters, List.map_cons, List.nodup_cons] at hdistinct
        intro heq
        exact hdistinct.1 (heq ▸ List.mem_map_of_mem hrest)
      rw [if_neg hobject, if_neg hevent, hcounted, Nat.add_zero]
  · intro e he
    have horder := h.order
    rw [remaining_plain rfl, hletters] at horder
    have hmem : letter.event ∈ List.range s.delivered := by
      rw [← horder]
      exact List.mem_append_right _ List.mem_cons_self
    have hlt := List.mem_range.mp hmem
    change s.delivered ≤ e at he
    change (if e = letter.event then s.failures e + 1 else s.failures e) = 0
    rw [if_neg (by omega), h.unfailed e he]

/-- The replay committed: its event is done, its letter about to go. -/
theorem Inv.commit {letter : DeadLetter} {todo : List DeadLetter}
    (h : Inv wrapped s (some ⟨letter::todo, .replayed⟩)) :
    Inv wrapped { s.setWalk 0 ⟨letter::todo, .committed⟩ with
      completed := s.completed ++ [letter.event] } (some ⟨letter::todo, .committed⟩) := by
  obtain ⟨rest, hletters, -⟩ := h.head rfl
  refine ⟨?_, h.processing, h.fresh, h.distinct, ?_, ?_, ?_, h.handling, ?_, ?_, h.unfailed⟩
  · change s.walks.set 0 _ = _
    rw [h.walks]
    rfl
  · intro w hw
    cases hw
    exact h.ahead ⟨letter::todo, .replayed⟩ rfl
  · intro w hw hnil
    cases hw
    cases hnil
  · intro _ l ls backoff heq
    cases heq
  · have horder := h.order
    rw [remaining_plain rfl, hletters] at horder
    change s.completed ++ [letter.event] ++ s.letters.tail.map _ = _
    rw [hletters, List.append_assoc]
    exact horder
  · intro hwrapped other hother
    have hcounted := h.counted hwrapped other hother
    rw [owed_plain rfl] at hcounted
    exact hcounted

/-- The letter of a committed replay goes, and the walk with it to the next. -/
theorem Inv.evicts {letter : DeadLetter} {todo : List DeadLetter}
    (h : Inv wrapped s (some ⟨letter::todo, .committed⟩)) :
    Inv wrapped { s.setWalk 0 ⟨todo, .evicted⟩ with letters := evict s.letters letter }
      (some ⟨todo, .evicted⟩) := by
  obtain ⟨rest, hletters, htodo⟩ := h.head rfl
  have hevict : evict s.letters letter = rest := by rw [hletters, evict_head]
  have hsub : ∀ other ∈ rest, other ∈ s.letters := by
    intro other hother
    rw [hletters]
    exact List.mem_cons_of_mem _ hother
  rw [hevict]
  refine ⟨?_, h.processing, fun other hother => h.fresh other (hsub other hother), ?_, ?_,
    ?_, ?_, ?_,
    ?_, ?_, h.unfailed⟩
  · change s.walks.set 0 _ = _
    rw [h.walks]
    rfl
  · have hdistinct := h.distinct
    rw [hletters, List.map_cons, List.nodup_cons] at hdistinct
    exact hdistinct.2
  · intro w hw
    cases hw
    exact htodo
  · intro w hw _
    cases hw
    rfl
  · intro _ l ls backoff heq
    cases heq
  · intro hhandling
    have hnil := h.handling hhandling
    rw [hletters] at hnil
    cases hnil
  · have horder := h.order
    change s.completed ++ s.letters.tail.map _ = _ at horder
    rw [hletters] at horder
    change s.completed ++ (remaining rest (some ⟨todo, .evicted⟩)).map _ = _
    rw [remaining_plain rfl]
    exact horder
  · intro hwrapped other hother
    have hcounted := h.counted hwrapped other (hsub other hother)
    rw [owed_plain rfl]
    exact hcounted

/-- The head of the lane is replaced by a new object and no walk is left to meet
the old one. -/
theorem Inv.replaceHead (h : Inv wrapped s walk) {head : DeadLetter} {rest : List DeadLetter}
    (hletters : s.letters = head::rest) (backoff : Option BackoffState) {after : Option Walk}
    (hremaining : remaining s.letters walk = s.letters)
    (hafter : after = none ∨ after = some ⟨[], .evicted⟩)
    (hwalks : t.walks = after.toList) (hprocessing : t.processing = after.isSome)
    (howed : ∀ letter ∈ rest, owed letter walk = 0)
    (hattempts : wrapped = true →
      (DeadLetter.mk s.objects head.event backoff).attempts = s.failures head.event)
    (hframe : t = { s.requeueAs head backoff with walks := t.walks, processing := t.processing }) :
    Inv wrapped t after := by
  have hnew : (s.requeueAs head backoff).letters = ⟨s.objects, head.event, backoff⟩::rest := by
    unfold Lane.requeueAs requeue
    rw [hletters, evict_head]
    rfl
  have hkeeps : ∀ letters, remaining letters after = letters := by
    rcases hafter with rfl | rfl
    · exact fun _ => rfl
    · exact fun _ => rfl
  have hsub : ∀ other ∈ rest, other ∈ s.letters := by
    intro other hother
    rw [hletters]
    exact List.mem_cons_of_mem _ hother
  rw [hframe]
  refine ⟨hwalks, hprocessing, ?_, ?_, ?_, ?_, ?_, ?_, ?_, ?_, h.unfailed⟩
  · intro letter hletter
    change letter ∈ (s.requeueAs head backoff).letters at hletter
    rw [hnew] at hletter
    rcases List.mem_cons.mp hletter with rfl | hmem
    · exact Nat.lt_succ_self _
    · exact Nat.lt_succ_of_lt (h.fresh letter (hsub letter hmem))
  · change ((s.requeueAs head backoff).letters.map DeadLetter.object).Nodup
    have hdistinct := h.distinct
    rw [hletters, List.map_cons, List.nodup_cons] at hdistinct
    rw [hnew, List.map_cons, List.nodup_cons]
    refine ⟨?_, hdistinct.2⟩
    intro hmem
    obtain ⟨other, hother, heq⟩ := List.mem_map.mp hmem
    exact absurd heq (Nat.ne_of_lt (h.fresh other (hsub other hother)))
  · intro w hw
    rcases hafter with rfl | rfl
    · cases hw
    · cases hw
      exact List.nil_prefix
  · intro w hw _
    rcases hafter with rfl | rfl
    · cases hw
    · cases hw
      rfl
  · intro _ letter todo failed heq
    rcases hafter with rfl | rfl
    · cases heq
    · cases heq
  · intro hhandling
    have hnil := h.handling hhandling
    rw [hletters] at hnil
    cases hnil
  · have horder := h.order
    rw [hremaining, hletters] at horder
    change s.completed ++ (remaining (s.requeueAs head backoff).letters after).map _ = _
    rw [hkeeps, hnew]
    exact horder
  · intro hwrapped letter hletter
    change letter ∈ (s.requeueAs head backoff).letters at hletter
    rw [hnew] at hletter
    have hzero : owed letter after = 0 := by
      rcases hafter with rfl | rfl
      · rfl
      · rfl
    rw [hzero, Nat.add_zero]
    rcases List.mem_cons.mp hletter with rfl | hmem
    · exact hattempts hwrapped
    · have hcounted := h.counted hwrapped letter (hsub letter hmem)
      rw [howed letter hmem] at hcounted
      exact hcounted

/-- A failed letter goes back to the front with its failure on it. -/
theorem Inv.requeues {letter : DeadLetter} {todo : List DeadLetter} {backoff : Option BackoffState}
    (h : Inv wrapped s (some ⟨letter::todo, .failed backoff⟩)) :
    Inv wrapped ((s.requeueAs letter (backoff.or letter.backoff)).endWalk 0) none := by
  obtain ⟨rest, hletters, -⟩ := h.head rfl
  refine h.replaceHead hletters (backoff.or letter.backoff) rfl (Or.inl rfl) ?_ rfl ?_ ?_ rfl
  · change s.walks.eraseIdx 0 = []
    rw [h.walks]
    rfl
  · intro other hother
    have hdistinct := h.distinct
    rw [hletters, List.map_cons, List.nodup_cons] at hdistinct
    refine if_neg ?_
    intro heq
    exact hdistinct.1 (heq ▸ List.mem_map_of_mem hother)
  · intro hwrapped
    obtain ⟨b, rfl, hb⟩ := h.recorded hwrapped letter todo backoff rfl
    have hcounted := h.counted hwrapped letter (by rw [hletters]; exact List.mem_cons_self)
    change letter.attempts + (if letter.object = letter.object then 1 else 0) = _ at hcounted
    rw [if_pos rfl] at hcounted
    change b.attempts = _
    rw [hb, hcounted]

/-- The head is made due while no walk is to replay it. -/
theorem Inv.retryNow (h : Inv wrapped s walk) (hok : undisturbed s .retryNow = true)
    {head : DeadLetter} {rest : List DeadLetter} (hletters : s.letters = head::rest) :
    Inv wrapped (s.requeueAs head (some ⟨head.attempts, .null⟩)) walk := by
  have hidle : walk = none ∨ walk = some ⟨[], .evicted⟩ := by
    cases hwalk : walk with
    | none => exact Or.inl rfl
    | some w =>
        obtain ⟨todo, stage⟩ := w
        cases todo with
        | nil =>
            have hstage := h.busy _ hwalk rfl
            exact Or.inr (by rw [← hstage])
        | cons letter todo =>
            obtain ⟨rest', hhead, -⟩ := h.head hwalk
            have hwalks := h.walks
            rw [hwalk] at hwalks
            unfold undisturbed at hok
            rw [hwalks, hhead] at hok
            simp at hok
  have hremaining : remaining s.letters walk = s.letters := by
    rcases hidle with rfl | rfl
    · rfl
    · rfl
  have howed : ∀ letter, owed letter walk = 0 := by
    rcases hidle with rfl | rfl
    · exact fun _ => rfl
    · exact fun _ => rfl
  refine h.replaceHead hletters (some ⟨head.attempts, .null⟩) hremaining hidle h.walks h.processing
    (fun letter _ => howed letter) ?_ rfl
  intro hwrapped
  have hcounted := h.counted hwrapped head (by rw [hletters]; exact List.mem_cons_self)
  rw [howed, Nat.add_zero] at hcounted
  exact hcounted

theorem Inv.set_walks (h : Inv wrapped s walk) {w : Walk} (hwalk : walk = some w) (v : Walk) :
    (s.setWalk 0 v).walks = [v] := by
  change s.walks.set 0 v = [v]
  rw [h.walks, hwalk]
  rfl

theorem Inv.end_walks (h : Inv wrapped s walk) {w : Walk} (hwalk : walk = some w) :
    (s.endWalk 0).walks = [] := by
  change s.walks.eraseIdx 0 = []
  rw [h.walks, hwalk]
  rfl

theorem Inv.step {a : Action} (h : Inv wrapped s walk) (hsettles : settles s a = true)
    (hok : wrapped = true → undisturbed s a = true ∧ policyAnswers a = true)
    (hstep : step wrapped s a = some t) : ∃ after, Inv wrapped t after := by
  cases a with
  | clock now =>
      cases hstep
      exact ⟨walk, h.walks, h.processing, h.fresh, h.distinct, h.ahead, h.busy, h.recorded,
        h.handling,
        h.order, h.counted, h.unfailed⟩
  | deliver =>
      simp only [DeadLetterQueue.step] at hstep
      split_ifs at hstep with hhandling hempty
      · cases hstep
        exact ⟨walk, h.walks, h.processing, h.fresh, h.distinct, h.ahead, h.busy, h.recorded,
          fun _ => List.isEmpty_iff.mp hempty, h.order, h.counted, h.unfailed⟩
      · cases hstep
        exact ⟨walk, h.park fun hnil => hempty (by rw [hnil]; rfl)⟩
  | handled =>
      simp only [DeadLetterQueue.step] at hstep
      split_ifs at hstep with hhandling
      cases hstep
      exact ⟨walk, h.handled hhandling⟩
  | handlerFails delay =>
      by_cases hhandling : s.handling = true
      · simp only [DeadLetterQueue.step, if_pos hhandling] at hstep
        cases hstep
        exact ⟨walk, h.handlerFails hhandling delay⟩
      · simp only [DeadLetterQueue.step, if_neg hhandling] at hstep
        cases hstep
  | process =>
      simp only [DeadLetterQueue.step] at hstep
      split at hstep
      · cases hstep
      · rename_i head rest hletters
        split_ifs at hstep with hbusy
        cases hstep
        cases hwalk : walk with
        | some w =>
            have hprocessing := h.processing
            rw [hwalk] at hprocessing
            rw [hprocessing] at hbusy
            exact absurd rfl hbusy
        | none =>
            subst hwalk
            refine ⟨some ⟨s.letters, .replaying⟩,
              h.plain rfl (List.prefix_refl _) ?_ rfl (fun _ => rfl)
              ?_ rfl rfl⟩
            · intro hnil
              rw [hletters] at hnil
              cases hnil
            · change s.walks ++ [_] = _
              rw [h.walks]
              rfl
  | replay i =>
      simp only [DeadLetterQueue.step] at hstep
      split at hstep
      · rename_i letter todo hw
        obtain ⟨rfl, rfl⟩ := h.walk_eq hw
        cases hstep
        exact ⟨some ⟨letter::todo, .replayed⟩, h.plain rfl (h.ahead ⟨letter::todo, .replaying⟩ rfl)
          (fun hnil => by cases hnil) rfl (fun _ => rfl) (h.set_walks rfl _) h.processing rfl⟩
      · cases hstep
  | replayFails i delay =>
      simp only [DeadLetterQueue.step] at hstep
      split at hstep
      · rename_i letter todo hw
        obtain ⟨rfl, rfl⟩ := h.walk_eq hw
        cases hstep
        exact ⟨_, h.replayFails delay⟩
      · cases hstep
  | commit i =>
      simp only [DeadLetterQueue.step] at hstep
      split at hstep
      · rename_i letter todo hw
        obtain ⟨rfl, rfl⟩ := h.walk_eq hw
        cases hstep
        exact ⟨_, h.commit⟩
      · cases hstep
  | commitFails i =>
      simp only [DeadLetterQueue.step] at hstep
      split at hstep
      · rename_i letter todo hw
        obtain ⟨rfl, rfl⟩ := h.walk_eq hw
        cases hstep
        exact ⟨none, h.ended rfl (fun _ => rfl) (h.end_walks rfl) rfl rfl⟩
      · cases hstep
  | policyThrows i =>
      simp only [DeadLetterQueue.step] at hstep
      split_ifs at hstep with hwrapped
      cases (hok hwrapped).2
  | afterCommitThrows i =>
      simp only [DeadLetterQueue.step] at hstep
      split at hstep
      · rename_i letter todo hw
        simp only [settles, hw, Option.all_some, decide_eq_true_eq, ne_eq, not_true] at hsettles
      · rename_i todo hw
        obtain ⟨rfl, rfl⟩ := h.walk_eq hw
        cases hstep
        exact ⟨none, h.ended (remaining_plain rfl _) (owed_plain rfl) (h.end_walks rfl) rfl rfl⟩
      · cases hstep
  | evict i =>
      simp only [DeadLetterQueue.step] at hstep
      split at hstep
      · rename_i letter todo hw
        obtain ⟨rfl, rfl⟩ := h.walk_eq hw
        cases hstep
        exact ⟨_, h.evicts⟩
      · cases hstep
  | requeue i =>
      simp only [DeadLetterQueue.step] at hstep
      split at hstep
      · rename_i letter todo backoff hw
        obtain ⟨rfl, rfl⟩ := h.walk_eq hw
        cases hstep
        exact ⟨none, h.requeues⟩
      · cases hstep
  | proceed i =>
      simp only [DeadLetterQueue.step] at hstep
      split at hstep
      · rename_i hw
        obtain ⟨rfl, rfl⟩ := h.walk_eq hw
        cases hstep
        exact ⟨none, h.ended rfl (fun _ => rfl) (h.end_walks rfl) rfl rfl⟩
      · rename_i letter todo hw
        obtain ⟨rfl, rfl⟩ := h.walk_eq hw
        cases hstep
        exact ⟨some ⟨letter::todo, .replaying⟩, h.plain rfl (h.ahead ⟨letter::todo, .evicted⟩ rfl)
          (fun hnil => by cases hnil) rfl (fun _ => rfl) (h.set_walks rfl _) h.processing rfl⟩
      · cases hstep
  | retryNow =>
      simp only [DeadLetterQueue.step] at hstep
      split_ifs at hstep with hwrapped
      split at hstep
      · cases hstep
        exact ⟨walk, h⟩
      · rename_i head rest hletters
        cases hstep
        exact ⟨walk, h.retryNow (hok hwrapped).1 hletters⟩

/-- The events that are done, then the parked letters: the delivered events in log
order, as long as every replay that committed gets to its eviction. A letter whose
replay has committed counts as done. -/
theorem lane_keeps_order
    (h : Reach (step false) (fun s a => settles s a = true) initial s) :
    s.completed ++ s.parked.map DeadLetter.event = List.range s.delivered := by
  obtain ⟨walk, hinv⟩ := h.invariant (I := fun s => ∃ walk, Inv false s walk) ⟨none, inv_initial⟩
    fun s a t _ ⟨walk, hinv⟩ hok hstep => hinv.step hok (fun hfalse => by cases hfalse) hstep
  rw [hinv.settling]
  exact hinv.order

/-- Two events park behind a failure while a walk replays the first of them. -/
theorem lane_keeps_order_arriving : ∃ s,
    Reach (step false) (fun s a => settles s a = true) initial s ∧
      s.completed = [0, 1] ∧ s.parked.map DeadLetter.event = [2] ∧
        s.completed ++ s.parked.map DeadLetter.event = List.range s.delivered := by
  obtain ⟨s, hs, hcompleted, hparked⟩ := reach_guarded_any
    (show ((exec (guarded (step false) fun s a => settles s a = true) initial
      [.deliver, .handled, .deliver, .handlerFails .hold, .process, .deliver, .replay 0,
        .commit 0]).any
          fun s => decide (s.completed = [0, 1] ∧ s.parked.map DeadLetter.event = [2])) = true by
            decide +kernel)
  exact ⟨s, hs, hcompleted, hparked, lane_keeps_order hs⟩

/-- An action of the handler throws after its replay committed: the next walk
replays the event again. -/
theorem lane_replays_committed : ∃ s, Reach (step false) always initial s ∧ s.delivered = 1 ∧
    s.walks = [] ∧ s.completed = [0, 0] ∧
      s.completed ++ s.parked.map DeadLetter.event ≠ List.range s.delivered := by
  obtain ⟨s, hs, hdelivered, hwalks, hcompleted, horder⟩ := reach_exec_any
    (show ((exec (step false) initial
      [.deliver, .handlerFails .hold, .process, .replay 0, .commit 0, .afterCommitThrows 0,
        .process, .replay 0, .commit 0, .evict 0, .proceed 0]).any
          fun s => decide (s.delivered = 1 ∧ s.walks = [] ∧ s.completed = [0, 0] ∧
            s.completed ++ s.parked.map DeadLetter.event ≠ List.range s.delivered)) = true by
              decide +kernel)
  exact ⟨s, hs, hdelivered, hwalks, hcompleted, horder⟩

/-- What `deadLetterBackoff` promises of a lane. -/
structure OnlyDelayed (s : Lane) : Prop where
  /-- Every delivered event is done or parked once, in log order. -/
  once : s.completed ++ s.parked.map DeadLetter.event = List.range s.delivered
  /-- What committed is parked no more. -/
  gone : ∀ letter ∈ s.parked, letter.event ∉ s.completed
  /-- The failures of a letter, the one a walk has not yet put on it included. -/
  counted : ∀ letter ∈ s.letters,
    letter.attempts + s.failing.countP (fun failed => decide (failed.object = letter.object)) =
      s.failures letter.event

theorem Inv.failing (h : Inv wrapped s walk) (letter : DeadLetter) :
    s.failing.countP (fun failed => decide (failed.object = letter.object)) = owed letter walk := by
  unfold Lane.failing
  rw [h.walks]
  cases walk with
  | none => rfl
  | some w =>
      obtain ⟨todo, stage⟩ := w
      cases todo with
      | nil => cases stage <;> rfl
      | cons failed todo =>
          cases stage with
          | failed backoff =>
              change [failed].countP _ = if failed.object = letter.object then 1 else 0
              rw [List.countP_singleton]
              by_cases heq : failed.object = letter.object
              · rw [if_pos heq, if_pos (decide_eq_true heq)]
              · rw [if_neg heq, if_neg (by simpa using heq)]
          | replaying => rfl
          | replayed => rfl
          | committed => rfl
          | evicted => rfl

/-- Backoff delays and nothing else, as long as no head is made due that a walk is
still to replay, every replay that committed gets to its eviction and the policy
answers. -/
theorem backoff_only_delays
    (h : Reach (step true)
      (fun s a => (undisturbed s a && settles s a && policyAnswers a) = true) initial s) :
    OnlyDelayed s := by
  obtain ⟨walk, hinv⟩ := h.invariant (I := fun s => ∃ walk, Inv true s walk) ⟨none, inv_initial⟩
    fun s a t _ ⟨walk, hinv⟩ hok hstep => by
      rw [Bool.and_eq_true, Bool.and_eq_true] at hok
      exact hinv.step hok.1.2 (fun _ => ⟨hok.1.1, hok.2⟩) hstep
  have horder : s.completed ++ s.parked.map DeadLetter.event = List.range s.delivered := by
    rw [hinv.settling]
    exact hinv.order
  refine ⟨horder, ?_, ?_⟩
  · intro letter hletter hcompleted
    have hnodup : (s.completed ++ s.parked.map DeadLetter.event).Nodup := by
      rw [horder]
      exact List.nodup_range
    exact (List.nodup_append.mp hnodup).2.2 _ hcompleted _ (List.mem_map_of_mem hletter) rfl
  · intro letter hletter
    rw [hinv.failing]
    exact hinv.counted rfl letter hletter

/-- A lane fails twice, is made due in between, and is replayed. -/
theorem backoff_only_delays_retried : ∃ s,
    Reach (step true)
      (fun s a => (undisturbed s a && settles s a && policyAnswers a) = true) initial s ∧
      s.letters.map DeadLetter.attempts = [2, 0] ∧ OnlyDelayed s := by
  obtain ⟨s, hs, hattempts⟩ := reach_guarded_any
    (show ((exec (guarded (step true)
      fun s a => (undisturbed s a && settles s a && policyAnswers a) = true) initial
      [.deliver, .handlerFails .hold, .deliver, .retryNow, .process, .replayFails 0 (.ms 5),
        .requeue 0]).any fun s => decide (s.letters.map DeadLetter.attempts = [2, 0])) = true by
          decide +kernel)
  exact ⟨s, hs, hattempts, backoff_only_delays hs⟩

theorem not_onlyDelayed {s : Lane}
    (h : s.completed ++ s.parked.map DeadLetter.event ≠ List.range s.delivered) :
    ¬ OnlyDelayed s := fun hdelayed => h hdelayed.once

/-- Each of the three conditions is needed. The head is made due while it is
replayed: its letter stays after the commit, or is there twice after the failure.
An action of the handler throws after the commit: the letter stays. The policy
throws: the failure is not on the letter. -/
theorem replays_spoiled :
    (∃ s, Reach (step true) (fun s a => (settles s a && policyAnswers a) = true) initial s ∧
        s.walks = [] ∧ s.completed = [0] ∧ ¬ OnlyDelayed s) ∧
      (∃ s, Reach (step true) (fun s a => (settles s a && policyAnswers a) = true) initial s ∧
        s.letters.map DeadLetter.event = [0, 0] ∧ ¬ OnlyDelayed s) ∧
      (∃ s, Reach (step true) (fun s a => (undisturbed s a && policyAnswers a) = true) initial s ∧
        s.walks = [] ∧ s.completed = [0] ∧ ¬ OnlyDelayed s) ∧
      ∃ s, Reach (step true) (fun s a => (undisturbed s a && settles s a) = true) initial s ∧
        s.letters.map DeadLetter.attempts = [1] ∧ s.failures 0 = 2 ∧ ¬ OnlyDelayed s := by
  refine ⟨?_, ?_, ?_, ?_⟩
  · obtain ⟨s, hs, hwalks, hcompleted, horder⟩ := reach_guarded_any
      (show ((exec (guarded (step true) fun s a => (settles s a && policyAnswers a) = true) initial
        [.deliver, .handlerFails (.ms 0), .process, .retryNow, .replay 0, .commit 0, .evict 0,
          .proceed 0]).any fun s => decide (s.walks = [] ∧ s.completed = [0] ∧
            s.completed ++ s.parked.map DeadLetter.event ≠ List.range s.delivered)) = true by
              decide +kernel)
    exact ⟨s, hs, hwalks, hcompleted, not_onlyDelayed horder⟩
  · obtain ⟨s, hs, hletters, horder⟩ := reach_guarded_any
      (show ((exec (guarded (step true) fun s a => (settles s a && policyAnswers a) = true) initial
        [.deliver, .handlerFails (.ms 0), .process, .retryNow, .replayFails 0 (.ms 0),
          .requeue 0]).any fun s => decide (s.letters.map DeadLetter.event = [0, 0] ∧
            s.completed ++ s.parked.map DeadLetter.event ≠ List.range s.delivered)) = true by
              decide +kernel)
    exact ⟨s, hs, hletters, not_onlyDelayed horder⟩
  · obtain ⟨s, hs, hwalks, hcompleted, horder⟩ := reach_guarded_any
      (show ((exec (guarded (step true) fun s a => (undisturbed s a && policyAnswers a) = true)
        initial [.deliver, .handlerFails (.ms 0), .process, .replay 0, .commit 0,
          .afterCommitThrows 0]).any fun s => decide (s.walks = [] ∧ s.completed = [0] ∧
            s.completed ++ s.parked.map DeadLetter.event ≠ List.range s.delivered)) = true by
              decide +kernel)
    exact ⟨s, hs, hwalks, hcompleted, not_onlyDelayed horder⟩
  · obtain ⟨s, hs, hattempts, hfailures, hcounted⟩ := reach_guarded_any
      (show ((exec (guarded (step true) fun s a => (undisturbed s a && settles s a) = true)
        initial [.deliver, .handlerFails (.ms 0), .process, .policyThrows 0]).any
          fun s => decide (s.letters.map DeadLetter.attempts = [1] ∧ s.failures 0 = 2 ∧
            ¬ ∀ letter ∈ s.letters, letter.attempts + s.failing.countP
              (fun failed => decide (failed.object = letter.object)) =
                s.failures letter.event)) = true by decide +kernel)
    exact ⟨s, hs, hattempts, hfailures, fun hdelayed => hcounted hdelayed.counted⟩

end Kronos.Processing.DeadLetterQueue
