import Kronos.Processing.Node

/-!
# Who has a segment

A claim round looks whether a segment has a worker before it asks the store for
the segment, and not again when the claim is there. A split or a merge that
takes the segment in between gives it a worker too, and the store cannot tell
the two apart: the owner is the same. `Exclusive` is the condition under which
no two of them have a segment at a time. Under it the segments of the
registered workers and the segments a frame has taken are segments of the
moment, each in one hand, and the active workers are the registered ones. The
functions a frame runs between two awaits keep this.
-/
namespace Kronos.Processing.Node
open Kronos.Lib.Transition TrackingToken State

variable {K : Type}

/-! ## The condition -/

def segmentsNow (s : State K) : List Segment := segmentsOf s.rows.ids

/-- Whether the unit of work a frame waits for has committed. -/
def Frame.committed (f : Frame K) : Bool :=
  match f.reply with
  | some .done => true
  | _ => false

/-- The segments a frame has taken, which it may start a worker of. -/
def Frame.taken (f : Frame K) : List Segment :=
  match f.pc with
  | .claiming _ segment _ _ => [segment]
  | .splitHold segment _ _ => [segment]
  | .splitClaim segment => [segment]
  | .splitRead segment _ => [segment]
  | .splitCommit segment _ _ =>
      if f.committed then [(splitSegment segment).1, (splitSegment segment).2] else [segment]
  | .splitFirst segment _ => [(splitSegment segment).2]
  | .splitSecond segment _ => [(splitSegment segment).2]
  | .mergeHold segment partner first _ _ =>
      if first.isNone then [segment] else [segment, partner]
  | .mergeClaim segment partner first =>
      if first.isNone then [segment] else [segment, partner]
  | .mergeRead segment partner _ _ => [segment, partner]
  | .mergeReadPartner segment partner _ _ _ => [segment, partner]
  | .mergeCommit segment partner _ _ _ _ =>
      if f.committed then [mergedSegment segment partner] else [segment, partner]
  | .mergeUndo rest => rest.map (·.1)
  | .mergeUndoRelease _ _ rest => rest.map (·.1)
  | _ => []

/-- The segment a frame asks for, by `claimToken` or `holdForOperation`, when it
goes on from `pc`. -/
def asksFrom (s : State K) : Pc K → Option (Reply K) → Option Segment
  | .listing _ segments, some (.ids available) => (nextClaim s available segments).map (·.1)
  | .claiming _ segment rest available, some (.token stored) =>
      if s.isRunning then (nextClaim (startWorker s segment stored) available rest).map (·.1)
      else none
  | .claiming _ _ rest available, some .refused => (nextClaim s available rest).map (·.1)
  | .fetching (.split id), some (.ids ids) => (segmentsOf ids).find? (·.id == id)
  | .refetching (.split id), some (.ids ids) => (segmentsOf ids).find? (·.id == id)
  | .fetching (.merge id), some (.ids ids) => (mergePair (segmentsOf ids) id).map (·.1)
  | .refetching (.merge id), some (.ids ids) => (mergePair (segmentsOf ids) id).map (·.1)
  | .mergeHold _ partner none _ stop, _ =>
      if (s.frames stop).pc.isReturned then some partner else none
  | .mergeClaim _ partner none, some (.token _) => some partner
  | _, _ => none

def asks (s : State K) (i : ℕ) : Option Segment :=
  asksFrom (s.setFrame i .returned) (s.frames i).pc (s.frames i).reply

/-- Whether the frame is a split that looks for its segment. -/
def Pc.splits : Pc K → Bool
  | .fetching (.split _) => true
  | .refetching (.split _) => true
  | _ => false

/-- A segment of the moment that no frame but `i` has taken. -/
def Untaken (s : State K) (i : ℕ) (segment : Segment) : Prop :=
  segment ∈ segmentsNow s ∧ ∀ j < s.nextFrame, j ≠ i → segment ∉ (s.frames j).taken

instance (s : State K) (i : ℕ) (segment : Segment) : Decidable (Untaken s i segment) :=
  inferInstanceAs (Decidable (_ ∧ _))

/-- Rows are made where there are none or none is missing, and the claim on a
merged segment is let go without a failure. -/
def landsWell (cfg : Config) (s : State K) (fails : Bool) : Pc K → Bool
  | .initializing _ => s.rows.isEmpty || (List.range cfg.initialSegments).all (· ∈ s.rows.ids)
  | .mergeRelease _ _ _ _ _ _ => !fails
  | _ => true

/-- A segment is asked for only while it is a segment of the moment that no other
round, split or merge has taken, and split only while `segmentsOf` can tell its
halves. -/
def Exclusive (cfg : Config) (s : State K) : Action K → Prop
  | .resume i _ => ∀ segment ∈ asks s i,
      Untaken s i segment ∧ ((s.frames i).pc.splits = true → segment.mask < 2 ^ 30)
  | .land i fails => landsWell cfg s fails (s.frames i).pc = true
  | _ => True

instance (cfg : Config) (s : State K) (a : Action K) : Decidable (Exclusive cfg s a) := by
  cases a <;> unfold Exclusive <;> infer_instance

/-! ## The invariant -/

inductive Holder where
  | frame (i : ℕ)
  | worker (w : ℕ)

/-- Who has a segment: the frame that took it, or the worker registered for it. -/
def Holds (s : State K) : Holder → Segment → Prop
  | .frame i, segment => segment ∈ (s.frames i).taken
  | .worker w, segment => ⟨segment, w⟩ ∈ s.workers

/-- Two segments that `mergeSegment` takes for halves of one. -/
structure Halves (segment partner : Segment) : Prop where
  mask : segment.mask ≠ 0
  size : partner.mask = segment.mask
  partner : (partner.id : ℤ) = mergeableSegmentId segment

/-- What a frame keeps of the checks it has made. -/
def Frame.Shape (f : Frame K) : Prop :=
  match f.pc with
  | .splitHold segment _ _ => segment.mask < 2 ^ 30
  | .splitClaim segment => segment.mask < 2 ^ 30
  | .splitRead segment _ => segment.mask < 2 ^ 30
  | .splitCommit segment _ _ => segment.mask < 2 ^ 30
  | .mergeHold segment partner _ _ _ => Halves segment partner
  | .mergeClaim segment partner _ => Halves segment partner
  | .mergeRead segment partner _ _ => Halves segment partner
  | .mergeReadPartner segment partner _ _ _ => Halves segment partner
  | .mergeCommit segment partner _ _ _ _ => Halves segment partner
  | .mergeRelease _ _ _ _ _ _ => f.reply = none ∨ f.reply = some .done
  | .mergeUndo rest => (rest.map (·.1)).Nodup
  | .mergeUndoRelease _ _ rest => (rest.map (·.1)).Nodup
  | _ => True

structure NodeInv (s : State K) : Prop where
  cut : s.rows.ids = [] ∨ IdsCut s.rows.ids
  current : ∀ x segment, Holds s x segment → segment ∈ segmentsNow s
  unique : ∀ x y segment, Holds s x segment → Holds s y segment → x = y
  shape : ∀ i, (s.frames i).Shape
  idle : ∀ i, s.nextFrame ≤ i → s.frames i = ⟨.returned, none⟩
  entry : ∀ e ∈ s.workers, ∃ v, s.started e.worker = some v ∧ v.segment = e.segment ∧
    v.active = true
  active : ∀ w v, s.started w = some v → v.active = true → ⟨v.segment, w⟩ ∈ s.workers
  fresh : ∀ w, s.nextWorker ≤ w → s.started w = none

/-- A segment of the moment that nobody has. -/
def Free (s : State K) (segment : Segment) : Prop :=
  segment ∈ segmentsNow s ∧ ∀ x, ¬ Holds s x segment

section Updates
variable {s t : State K}

theorem NodeInv.idsCut (h : NodeInv s) {segment : Segment} (hseg : segment ∈ segmentsNow s) :
    IdsCut s.rows.ids := by
  rcases h.cut with hnil | hcut
  · rw [segmentsNow, hnil] at hseg
    exact absurd hseg List.not_mem_nil
  · exact hcut

theorem NodeInv.eq_of_id (h : NodeInv s) {a b : Segment} (ha : a ∈ segmentsNow s)
    (hb : b ∈ segmentsNow s) (hid : a.id = b.id) : a = b :=
  (h.idsCut ha).partition.eq_of_id ha hb hid

/-- Only the workers, the frames and the ids of the rows matter. -/
theorem NodeInv.congr (h : NodeInv s) (hids : t.rows.ids = s.rows.ids)
    (hworkers : t.workers = s.workers) (hstarted : t.started = s.started)
    (hnext : t.nextWorker = s.nextWorker) (hframes : t.frames = s.frames)
    (hnextFrame : t.nextFrame = s.nextFrame) : NodeInv t := by
  have hholds : ∀ x segment, Holds t x segment ↔ Holds s x segment := by
    intro x segment
    cases x with
    | frame i => simp only [Holds, hframes]
    | worker w => simp only [Holds, hworkers]
  have hnow : segmentsNow t = segmentsNow s := by
    simp only [segmentsNow, hids]
  refine ⟨?_, ?_, ?_, ?_, ?_, ?_, ?_, ?_⟩
  · rw [hids]
    exact h.cut
  · intro x segment hx
    rw [hnow]
    exact h.current x segment ((hholds x segment).mp hx)
  · intro x y segment hx hy
    exact h.unique x y segment ((hholds x segment).mp hx) ((hholds y segment).mp hy)
  · rw [hframes]
    exact h.shape
  · rw [hframes, hnextFrame]
    exact h.idle
  · rw [hworkers, hstarted]
    exact h.entry
  · rw [hworkers, hstarted]
    exact h.active
  · rw [hstarted, hnext]
    exact h.fresh

theorem holds_setFrame {i : ℕ} {pc : Pc K} {x : Holder} {segment : Segment}
    (hx : Holds (s.setFrame i pc) x segment) :
    x = .frame i ∧ segment ∈ Frame.taken ⟨pc, none⟩ ∨ x ≠ .frame i ∧ Holds s x segment := by
  cases x with
  | frame j =>
      by_cases hj : j = i
      · subst hj
        simp only [Holds, setFrame, Function.update_self] at hx
        exact Or.inl ⟨rfl, hx⟩
      · simp only [Holds, setFrame, Function.update_of_ne hj] at hx
        exact Or.inr ⟨fun heq => hj (Holder.frame.inj heq), hx⟩
  | worker w => exact Or.inr ⟨Holder.noConfusion, hx⟩

/-- One frame is rewritten: the shapes are kept. -/
theorem NodeInv.shape_update (h : NodeInv s) {i : ℕ} {f : Frame K} (hshape : f.Shape) (j : ℕ) :
    (Function.update s.frames i f j).Shape := by
  by_cases hj : j = i
  · subst hj
    rw [Function.update_self]
    exact hshape
  · rw [Function.update_of_ne hj]
    exact h.shape j

/-- One frame is rewritten: the ones not pushed yet are idle. -/
theorem NodeInv.idle_update (h : NodeInv s) {i next : ℕ} {f : Frame K} (hi : i < next)
    (hnext : s.nextFrame ≤ next) (j : ℕ) (hj : next ≤ j) :
    Function.update s.frames i f j = ⟨.returned, none⟩ := by
  rw [Function.update_of_ne (by omega)]
  exact h.idle j (hnext.trans hj)

/-- A frame moves on, to rest with segments that were free. -/
theorem NodeInv.setFrame (h : NodeInv s) {i : ℕ} (hi : i < s.nextFrame) {pc : Pc K}
    (hshape : Frame.Shape ⟨pc, none⟩) (hfree : ∀ g ∈ Frame.taken ⟨pc, none⟩, Free s g) :
    NodeInv (s.setFrame i pc) := by
  refine ⟨h.cut, ?_, ?_, ?_, ?_, h.entry, h.active, h.fresh⟩
  · intro x segment hx
    rcases holds_setFrame hx with ⟨-, hmem⟩ | ⟨-, hold⟩
    · exact (hfree segment hmem).1
    · exact h.current x segment hold
  · intro x y segment hx hy
    rcases holds_setFrame hx with ⟨rfl, hmem⟩ | ⟨-, hold⟩
    · rcases holds_setFrame hy with ⟨rfl, -⟩ | ⟨-, hold'⟩
      · rfl
      · exact ((hfree segment hmem).2 y hold').elim
    · rcases holds_setFrame hy with ⟨rfl, hmem⟩ | ⟨-, hold'⟩
      · exact ((hfree segment hmem).2 x hold).elim
      · exact h.unique x y segment hold hold'
  · exact h.shape_update hshape
  · exact h.idle_update hi le_rfl

/-- A frame moves on to where it has no segment. -/
theorem NodeInv.rest (h : NodeInv s) {i : ℕ} (hi : i < s.nextFrame) {pc : Pc K}
    (hshape : Frame.Shape ⟨pc, none⟩) (htaken : Frame.taken ⟨pc, none⟩ = []) :
    NodeInv (s.setFrame i pc) := by
  refine h.setFrame hi hshape ?_
  rw [htaken]
  intro g hg
  exact absurd hg List.not_mem_nil

theorem NodeInv.push (h : NodeInv s) {pc : Pc K} (hshape : Frame.Shape ⟨pc, none⟩)
    (htaken : Frame.taken ⟨pc, none⟩ = []) : NodeInv (s.push pc) := by
  have hup : NodeInv { s with nextFrame := s.nextFrame + 1 } :=
    ⟨h.cut, h.current, h.unique, h.shape, fun i hi => h.idle i (Nat.le_of_succ_le hi), h.entry,
      h.active, h.fresh⟩
  exact hup.rest (Nat.lt_succ_self _) hshape htaken

@[simp] theorem setFrame_nextFrame (i : ℕ) (pc : Pc K) :
    (s.setFrame i pc).nextFrame = s.nextFrame :=
  rfl

theorem NodeInv.fresh_setWorker (h : NodeInv s) (w : ℕ) {f : Worker K → Worker K} {u : ℕ}
    (hu : s.nextWorker ≤ u) : (s.setWorker w f).started u = none := by
  by_cases heq : u = w
  · subst heq
    simp only [State.setWorker, Function.update_self]
    rw [h.fresh u hu]
    rfl
  · simp only [State.setWorker, Function.update_of_ne heq]
    exact h.fresh u hu

/-- A worker's own fields change. -/
theorem NodeInv.setWorker (h : NodeInv s) (w : ℕ) {f : Worker K → Worker K}
    (hf : ∀ v, (f v).segment = v.segment ∧ (f v).active = v.active) :
    NodeInv (s.setWorker w f) := by
  refine ⟨h.cut, h.current, h.unique, h.shape, h.idle, ?_, ?_, ?_⟩
  · intro e he
    obtain ⟨v, hv, hseg, hact⟩ := h.entry e he
    by_cases hw : e.worker = w
    · refine ⟨f v, ?_, (hf v).1.trans hseg, (hf v).2.trans hact⟩
      simp only [State.setWorker, hw, Function.update_self]
      rw [← hw, hv]
      rfl
    · refine ⟨v, ?_, hseg, hact⟩
      simp only [State.setWorker, Function.update_of_ne hw]
      exact hv
  · intro u v hv hact
    by_cases hu : u = w
    · subst hu
      simp only [State.setWorker, Function.update_self, Option.map_eq_some_iff] at hv
      obtain ⟨v₀, hv₀, rfl⟩ := hv
      rw [(hf v₀).2] at hact
      rw [(hf v₀).1]
      exact h.active u v₀ hv₀ hact
    · simp only [State.setWorker, Function.update_of_ne hu] at hv
      exact h.active u v hv hact
  · exact fun u hu => h.fresh_setWorker w hu

/-- A worker stops being active and leaves the registry. -/
theorem NodeInv.retire (h : NodeInv s) {w : ℕ} {workers : List Entry}
    (hkeep : ∀ e, e ∈ workers ↔ e ∈ s.workers ∧ e.worker ≠ w) :
    NodeInv { s.setWorker w fun v => { v with active := false } with workers := workers } := by
  refine ⟨h.cut, ?_, ?_, h.shape, h.idle, ?_, ?_, ?_⟩
  · intro x segment hx
    cases x with
    | frame i => exact h.current (.frame i) segment hx
    | worker u => exact h.current (.worker u) segment ((hkeep _).mp hx).1
  · intro x y segment hx hy
    cases x with
    | frame i =>
        cases y with
        | frame j => exact h.unique (.frame i) (.frame j) segment hx hy
        | worker u => exact h.unique (.frame i) (.worker u) segment hx ((hkeep _).mp hy).1
    | worker u =>
        cases y with
        | frame j => exact h.unique (.worker u) (.frame j) segment ((hkeep _).mp hx).1 hy
        | worker v =>
            exact h.unique (.worker u) (.worker v) segment ((hkeep _).mp hx).1 ((hkeep _).mp hy).1
  · intro e he
    obtain ⟨hmem, hne⟩ := (hkeep e).mp he
    obtain ⟨v, hv, hrest⟩ := h.entry e hmem
    refine ⟨v, ?_, hrest⟩
    simp only [State.setWorker, Function.update_of_ne hne]
    exact hv
  · intro u v hv hact
    by_cases hu : u = w
    · subst hu
      simp only [State.setWorker, Function.update_self, Option.map_eq_some_iff] at hv
      obtain ⟨v₀, -, rfl⟩ := hv
      exact absurd hact Bool.false_ne_true
    · simp only [State.setWorker, Function.update_of_ne hu] at hv
      exact (hkeep _).mpr ⟨h.active u v hv hact, hu⟩
  · exact fun u hu => h.fresh_setWorker w hu

theorem NodeInv.lose (h : NodeInv s) (w : ℕ) : NodeInv (lose s w) := by
  unfold Node.lose
  split
  · exact h
  · split_ifs
    · have hkeep : ∀ e, e ∈ s.workers.filter (·.worker ≠ w) ↔ e ∈ s.workers ∧ e.worker ≠ w := by
        intro e
        simp
      exact (h.retire hkeep).congr rfl rfl rfl rfl rfl rfl
    · exact h

/-- The id names the registered worker. -/
theorem NodeInv.entry_of_id (h : NodeInv s) {e e' : Entry} (he : e ∈ s.workers)
    (he' : e' ∈ s.workers) (hid : e.segment.id = e'.segment.id) : e = e' := by
  have hseg : e.segment = e'.segment :=
    h.eq_of_id (h.current (.worker e.worker) e.segment he)
      (h.current (.worker e'.worker) e'.segment he') hid
  have hworker := h.unique (.worker e.worker) (.worker e'.worker) e.segment he (hseg ▸ he')
  cases e
  cases e'
  simp only [Holder.worker.injEq] at hseg hworker
  rw [hseg, hworker]

theorem workerOf_some {id w : ℕ} (hw : s.workerOf id = some w) :
    ∃ e ∈ s.workers, e.segment.id = id ∧ e.worker = w := by
  obtain ⟨e, he, rfl⟩ := Option.map_eq_some_iff.mp hw
  exact ⟨e, List.mem_of_find?_eq_some he, by simpa using List.find?_some he, rfl⟩

theorem workerOf_none {id : ℕ} (hw : s.workerOf id = none) {e : Entry} (he : e ∈ s.workers) :
    e.segment.id ≠ id := by
  have hnone := List.find?_eq_none.mp (Option.map_eq_none_iff.mp hw) e he
  simpa using hnone

/-- A registered worker is stopped. -/
theorem NodeInv.stopWorker (h : NodeInv s) {id w : ℕ} (hw : s.workerOf id = some w)
    (release : Bool) : NodeInv (stopWorker (s.unregister id) w release) := by
  obtain ⟨e, he, hid, hworker⟩ := workerOf_some hw
  obtain ⟨v, hv, hseg, hact⟩ := h.entry e he
  rw [hworker] at hv
  have hkeep : ∀ x, x ∈ s.workers.filter (·.segment.id ≠ id) ↔ x ∈ s.workers ∧ x.worker ≠ w := by
    intro x
    simp only [List.mem_filter, decide_eq_true_eq, and_congr_right_iff]
    intro hx
    constructor
    · intro hne hsame
      obtain ⟨v', hv', hseg', -⟩ := h.entry x hx
      rw [hsame, hv] at hv'
      cases hv'
      exact hne (by rw [← hseg', hseg, hid])
    · intro hne hsame
      exact hne (by rw [h.entry_of_id hx he (hsame.trans hid.symm), hworker])
  have hstopped : Node.stopWorker (s.unregister id) w release =
      State.push { s.setWorker w fun v => { v with active := false } with
        workers := s.workers.filter (·.segment.id ≠ id) } (.stopAwait w release) := by
    have hv' : (s.unregister id).started w = some v := hv
    simp only [Node.stopWorker, hv', hact, if_true]
    rfl
  rw [hstopped]
  exact (h.retire hkeep).push trivial rfl

theorem holds_push {pc : Pc K} (htaken : Frame.taken ⟨pc, none⟩ = []) {x : Holder}
    {segment : Segment} (hx : Holds (s.push pc) x segment) : Holds s x segment := by
  cases x with
  | frame j =>
      by_cases hj : j = s.nextFrame
      · subst hj
        simp only [Holds, State.push, Function.update_self, htaken] at hx
        exact absurd hx List.not_mem_nil
      · simp only [Holds, State.push, Function.update_of_ne hj] at hx
        exact hx
  | worker w => exact hx

theorem holds_stopWorker {w : ℕ} {release : Bool} {x : Holder} {segment : Segment}
    (hx : Holds (stopWorker s w release) x segment) : Holds s x segment := by
  unfold stopWorker at hx
  split at hx
  · exact holds_push rfl hx
  · split_ifs at hx
    · have hold := holds_push rfl hx
      cases x with
      | frame j => exact hold
      | worker u => exact hold
    · exact holds_push rfl hx

theorem stopWorker_rows (w : ℕ) (release : Bool) : (stopWorker s w release).rows = s.rows := by
  unfold stopWorker
  split
  · rfl
  · split_ifs <;> rfl

theorem stopWorker_nextFrame (w : ℕ) (release : Bool) :
    (stopWorker s w release).nextFrame = s.nextFrame + 1 := by
  unfold stopWorker
  split
  · rfl
  · split_ifs <;> rfl

/-- `holdForOperation` leaves the segment free, and with it what was free before. -/
theorem NodeInv.holdForOperation (h : NodeInv s) {segment : Segment}
    (hcur : segment ∈ segmentsNow s) (hframes : ∀ j, segment ∉ (s.frames j).taken) :
    NodeInv (holdForOperation s segment.id).1 ∧ Free (holdForOperation s segment.id).1 segment ∧
      (∀ g, Free s g → Free (holdForOperation s segment.id).1 g) ∧
      s.nextFrame ≤ (holdForOperation s segment.id).1.nextFrame := by
  unfold Node.holdForOperation
  cases hw : s.workerOf segment.id with
  | none =>
      refine ⟨h, ⟨hcur, ?_⟩, fun g hg => hg, le_rfl⟩
      intro x hx
      cases x with
      | frame j => exact hframes j hx
      | worker w => exact workerOf_none hw hx rfl
  | some w =>
      have hless : ∀ x g, Holds (Node.stopWorker (s.unregister segment.id) w false) x g →
          Holds s x g ∧ ∀ u, x = .worker u → g.id ≠ segment.id := by
        intro x g hx
        have hold := holds_stopWorker hx
        cases x with
        | frame j => exact ⟨hold, fun u => Holder.noConfusion⟩
        | worker u =>
            have hmem := List.mem_filter.mp hold
            exact ⟨hmem.1, fun _ _ => by simpa using hmem.2⟩
      have hrows : segmentsNow (Node.stopWorker (s.unregister segment.id) w false) =
          segmentsNow s := by
        simp only [segmentsNow, stopWorker_rows]
        rfl
      refine ⟨h.stopWorker hw false, ⟨by rw [hrows]; exact hcur, ?_⟩, ?_, ?_⟩
      · intro x hx
        obtain ⟨hold, hne⟩ := hless x segment hx
        cases x with
        | frame j => exact hframes j hold
        | worker u => exact hne u rfl rfl
      · intro g hg
        exact ⟨by rw [hrows]; exact hg.1, fun x hx => hg.2 x (hless x g hx).1⟩
      · rw [stopWorker_nextFrame]
        exact Nat.le_succ _

/-! ## Starting a worker -/

theorem setEntry_new {workers : List Entry} {e : Entry}
    (hnew : ∀ x ∈ workers, x.segment.id ≠ e.segment.id) : setEntry workers e = workers ++ [e] := by
  unfold setEntry
  rw [if_neg]
  simp only [List.any_eq_true, beq_iff_eq, not_exists, not_and]
  exact hnew

/-- Nobody is registered under the id of a free segment. -/
theorem NodeInv.no_entry (h : NodeInv s) {segment : Segment} (hfree : Free s segment) :
    ∀ x ∈ s.workers, x.segment.id ≠ segment.id := by
  intro x hx hid
  have hcur := h.current (.worker x.worker) x.segment hx
  have hseg := h.eq_of_id hcur hfree.1 hid
  exact hfree.2 (.worker x.worker) (hseg ▸ hx)

theorem NodeInv.startWorker_workers (h : NodeInv s) {segment : Segment} (hfree : Free s segment)
    (stored : Option (TrackingToken K)) :
    (startWorker s segment stored).workers = s.workers ++ [⟨segment, s.nextWorker⟩] :=
  setEntry_new fun x hx => h.no_entry hfree x hx

theorem NodeInv.holds_startWorker (h : NodeInv s) {segment : Segment} (hfree : Free s segment)
    {stored : Option (TrackingToken K)} {x : Holder} {g : Segment}
    (hx : Holds (startWorker s segment stored) x g) :
    Holds s x g ∨ x = .worker s.nextWorker ∧ g = segment := by
  cases x with
  | frame j =>
      by_cases hj : j = s.nextFrame
      · subst hj
        simp only [Holds, startWorker, Function.update_self] at hx
        exact absurd hx List.not_mem_nil
      · simp only [Holds, startWorker, Function.update_of_ne hj] at hx
        exact Or.inl hx
  | worker w =>
      simp only [Holds, h.startWorker_workers hfree, List.mem_append, List.mem_singleton,
        Entry.mk.injEq] at hx
      rcases hx with hx | ⟨rfl, rfl⟩
      · exact Or.inl hx
      · exact Or.inr ⟨rfl, rfl⟩

theorem NodeInv.startWorker (h : NodeInv s) {segment : Segment} (hfree : Free s segment)
    (stored : Option (TrackingToken K)) : NodeInv (startWorker s segment stored) := by
  refine ⟨h.cut, ?_, ?_, ?_, ?_, ?_, ?_, ?_⟩
  · intro x g hx
    rcases h.holds_startWorker hfree hx with hold | ⟨-, rfl⟩
    · exact h.current x g hold
    · exact hfree.1
  · intro x y g hx hy
    rcases h.holds_startWorker hfree hx with hold | ⟨rfl, rfl⟩
    · rcases h.holds_startWorker hfree hy with hold' | ⟨rfl, rfl⟩
      · exact h.unique x y g hold hold'
      · exact (hfree.2 x hold).elim
    · rcases h.holds_startWorker hfree hy with hold' | ⟨rfl, -⟩
      · exact (hfree.2 y hold').elim
      · rfl
  · exact h.shape_update trivial
  · exact h.idle_update (Nat.lt_succ_self _) (Nat.le_succ _)
  · intro e he
    rw [h.startWorker_workers hfree, List.mem_append, List.mem_singleton] at he
    rcases he with he | rfl
    · obtain ⟨v, hv, hrest⟩ := h.entry e he
      have hne : e.worker ≠ s.nextWorker := by
        intro heq
        rw [h.fresh e.worker (Nat.le_of_eq heq.symm)] at hv
        cases hv
      refine ⟨v, ?_, hrest⟩
      simp only [Node.startWorker, Function.update_of_ne hne]
      exact hv
    · exact ⟨_, Function.update_self .., rfl, rfl⟩
  · intro w v hv hact
    rw [h.startWorker_workers hfree, List.mem_append, List.mem_singleton]
    by_cases hw : w = s.nextWorker
    · subst hw
      simp only [Node.startWorker, Function.update_self, Option.some.injEq] at hv
      subst hv
      exact Or.inr rfl
    · simp only [Node.startWorker, Function.update_of_ne hw] at hv
      exact Or.inl (h.active w v hv hact)
  · intro w hw
    have hle : s.nextWorker + 1 ≤ w := hw
    have hne : w ≠ s.nextWorker := by omega
    simp only [Node.startWorker, Function.update_of_ne hne]
    exact h.fresh w (by omega)

theorem Free.startWorker {segment g : Segment} (hg : Free s g) (h : NodeInv s)
    (hfree : Free s segment) (hne : g ≠ segment) (stored : Option (TrackingToken K)) :
    Free (startWorker s segment stored) g := by
  refine ⟨hg.1, ?_⟩
  intro x hx
  rcases h.holds_startWorker hfree hx with hold | ⟨-, heq⟩
  · exact hg.2 x hold
  · exact hne heq

/-! ## The functions of a frame -/

/-- A segment of the moment that no frame has taken; a worker may have it. -/
def Loose (s : State K) (segment : Segment) : Prop :=
  segment ∈ segmentsNow s ∧ ∀ j, segment ∉ (s.frames j).taken

theorem Loose.free {segment : Segment} (hl : Loose s segment)
    (hnone : s.workerOf segment.id = none) : Free s segment := by
  refine ⟨hl.1, ?_⟩
  intro x hx
  cases x with
  | frame j => exact hl.2 j hx
  | worker w => exact workerOf_none hnone hx rfl

theorem Loose.startWorker {segment g : Segment} (hl : Loose s g)
    (stored : Option (TrackingToken K)) : Loose (startWorker s segment stored) g := by
  refine ⟨hl.1, ?_⟩
  intro j hj
  by_cases heq : j = s.nextFrame
  · subst heq
    simp only [Node.startWorker, Function.update_self] at hj
    exact absurd hj List.not_mem_nil
  · simp only [Node.startWorker, Function.update_of_ne heq] at hj
    exact hl.2 j hj

@[simp] theorem setWorker_nextFrame (w : ℕ) (f : Worker K → Worker K) :
    (s.setWorker w f).nextFrame = s.nextFrame := rfl

@[simp] theorem startWorker_nextFrame (segment : Segment) (stored : Option (TrackingToken K)) :
    (startWorker s segment stored).nextFrame = s.nextFrame + 1 := rfl

theorem lose_nextFrame (w : ℕ) : (lose s w).nextFrame = s.nextFrame := by
  unfold lose
  split
  · rfl
  · split_ifs <;> rfl

variable {i : ℕ}

theorem NodeInv.endRound (h : NodeInv s) (hi : i < s.nextFrame) (caller : Caller) (ok : Bool) :
    NodeInv (endRound s i caller ok) := by
  unfold Node.endRound
  split
  · exact h.congr rfl rfl rfl rfl rfl rfl
  · have hstopped : NodeInv { s with isRunning := false } := h.congr rfl rfl rfl rfl rfl rfl
    exact hstopped.rest hi trivial rfl
  · exact h.congr rfl rfl rfl rfl rfl rfl

theorem NodeInv.renewLoop (h : NodeInv s) (hi : i < s.nextFrame) (caller : Caller)
    (rest : List ℕ) : NodeInv (renewLoop s i caller rest) := by
  unfold Node.renewLoop
  split
  · exact h.rest hi trivial rfl
  · rename_i w rest
    split
    · exact h.rest hi trivial rfl
    · split_ifs
      · have hasked := h.setWorker w (f := fun v => { v with renewing := some i }) fun v =>
          ⟨rfl, rfl⟩
        exact hasked.rest hi trivial rfl
      · exact h.rest hi trivial rfl

theorem NodeInv.claimRound (h : NodeInv s) (hi : i < s.nextFrame) (caller : Caller) :
    NodeInv (claimRound s i caller) :=
  h.renewLoop hi caller _

theorem nextClaim_some {available : List ℕ} {segments rest : List Segment} {segment : Segment}
    (hn : nextClaim s available segments = some (segment, rest)) :
    s.workerOf segment.id = none := by
  induction segments with
  | nil => cases hn
  | cons first more ih =>
      unfold nextClaim at hn
      split_ifs at hn with hrun hskip
      · exact ih hn
      · cases hn
        simp only [not_or, Bool.not_eq_true, Option.isSome_eq_false_iff, Option.isNone_iff_eq_none]
          at hskip
        exact hskip.1

theorem NodeInv.claimLoop (h : NodeInv s) (hi : i < s.nextFrame) (caller : Caller)
    {segments : List Segment} {available : List ℕ}
    (hasks : ∀ g ∈ (nextClaim s available segments).map (·.1), Loose s g) :
    NodeInv (claimLoop s i caller segments available) := by
  unfold Node.claimLoop
  split
  · rename_i segment rest hn
    have hloose : Loose s segment := hasks segment (by rw [hn]; rfl)
    refine h.setFrame hi trivial ?_
    intro g hg
    rw [List.mem_singleton.mp hg]
    exact hloose.free (nextClaim_some hn)
  · exact h.endRound hi caller true

theorem NodeInv.afterClaim (h : NodeInv s) (hi : i < s.nextFrame) {caller : Caller}
    {segment : Segment} {rest : List Segment} {available : List ℕ} (hfree : Free s segment)
    {reply : Reply K}
    (hasks : ∀ g ∈ asksFrom s (.claiming caller segment rest available) (some reply), Loose s g) :
    NodeInv (afterClaim s i caller segment rest available reply) := by
  cases reply with
  | token stored =>
      simp only [Node.afterClaim]
      split_ifs with hrun
      · refine (h.startWorker hfree stored).claimLoop (Nat.lt_succ_of_lt hi) caller ?_
        intro g hg
        simp only [asksFrom, if_pos hrun] at hasks
        exact (hasks g hg).startWorker stored
      · exact h.rest hi trivial rfl
  | refused => exact h.claimLoop hi caller hasks
  | done => exact h.endRound hi caller false
  | ids ids => exact h.endRound hi caller false
  | failed => exact h.endRound hi caller false

theorem NodeInv.afterRenewal (h : NodeInv s) (hi : i < s.nextFrame) (caller : Caller) (w : ℕ)
    (rest : List ℕ) (reply : Reply K) : NodeInv (afterRenewal s i caller w rest reply) := by
  cases reply with
  | done =>
      have hwritten := h.setWorker w (f := fun v => { v with unwritten := false }) fun v =>
        ⟨rfl, rfl⟩
      exact hwritten.renewLoop hi caller rest
  | refused =>
      refine (h.lose w).renewLoop ?_ caller rest
      rw [lose_nextFrame]
      exact hi
  | ids ids => exact h.endRound hi caller false
  | token token => exact h.endRound hi caller false
  | failed => exact h.endRound hi caller false

theorem NodeInv.failTask (h : NodeInv s) (hi : i < s.nextFrame) (task : Task) :
    NodeInv (failTask s i task) := by
  cases task with
  | round caller => exact h.endRound hi caller false
  | split id => exact h.rest hi trivial rfl
  | merge id => exact h.rest hi trivial rfl

theorem NodeInv.holdSplit (h : NodeInv s) (hi : i < s.nextFrame) {segment : Segment}
    (hloose : Loose s segment) (hmask : segment.mask < 2 ^ 30) :
    NodeInv (holdSplit s i segment) := by
  obtain ⟨hinv, hfree, -, hle⟩ := h.holdForOperation hloose.1 hloose.2
  unfold Node.holdSplit
  split
  · rename_i s' w stop heq
    rw [heq] at hinv hfree hle
    exact hinv.setFrame (lt_of_lt_of_le hi hle) hmask
      (fun g hg => by rw [List.mem_singleton.mp hg]; exact hfree)
  · rename_i s' heq
    rw [heq] at hinv hfree hle
    exact hinv.setFrame (lt_of_lt_of_le hi hle) hmask
      (fun g hg => by rw [List.mem_singleton.mp hg]; exact hfree)

/-- The halves of one segment are two segments. -/
theorem Halves.ne {segment partner : Segment} (hh : Halves segment partner)
    (hv : segment.Valid) : partner ≠ segment := by
  intro heq
  exact (mergeableSegmentId_spec hv hh.mask hh.partner).1 (by rw [heq])

theorem NodeInv.valid (h : NodeInv s) {segment : Segment} (hseg : segment ∈ segmentsNow s) :
    segment.Valid :=
  (h.idsCut hseg).partition.valid segment hseg

/-- The first half is held before the second is asked for. -/
theorem NodeInv.holdMerge (h : NodeInv s) (hi : i < s.nextFrame) {segment partner : Segment}
    (hh : Halves segment partner) {first : Option How}
    (hloose : Loose s (if first.isNone then segment else partner))
    (hheld : first.isSome = true → Free s segment) :
    NodeInv (holdMerge s i segment partner first) := by
  cases first with
  | none =>
      obtain ⟨hinv, hfree, -, hle⟩ := h.holdForOperation hloose.1 hloose.2
      simp only [Option.isNone_none, if_true] at hinv hfree hle
      unfold Node.holdMerge
      simp only [Option.isNone_none, if_true]
      split
      · rename_i s' w stop heq
        rw [heq] at hinv hfree hle
        exact hinv.setFrame (lt_of_lt_of_le hi hle) hh
          (fun g hg => by rw [List.mem_singleton.mp hg]; exact hfree)
      · rename_i s' heq
        rw [heq] at hinv hfree hle
        exact hinv.setFrame (lt_of_lt_of_le hi hle) hh
          (fun g hg => by rw [List.mem_singleton.mp hg]; exact hfree)
  | some how =>
      obtain ⟨hinv, hfree, hkeep, hle⟩ := h.holdForOperation hloose.1 hloose.2
      have hseg := hkeep segment (hheld rfl)
      simp only [Option.isNone_some, Bool.false_eq_true, if_false] at hinv hfree hle hseg
      unfold Node.holdMerge
      simp only [Option.isNone_some, Bool.false_eq_true, if_false]
      split
      · rename_i s' w stop heq
        rw [heq] at hinv hfree hle hseg
        refine hinv.setFrame (lt_of_lt_of_le hi hle) hh ?_
        intro g hg
        rcases List.mem_pair.mp hg with rfl | rfl
        · exact hseg
        · exact hfree
      · rename_i s' heq
        rw [heq] at hinv hfree hle hseg
        refine hinv.setFrame (lt_of_lt_of_le hi hle) hh ?_
        intro g hg
        rcases List.mem_pair.mp hg with rfl | rfl
        · exact hseg
        · exact hfree

theorem mergePair_some {segments : List Segment} {id : ℕ} {segment partner : Segment}
    (hm : mergePair segments id = some (segment, partner)) : Halves segment partner := by
  unfold mergePair at hm
  split at hm
  · cases hm
  · split_ifs at hm with hzero
    obtain ⟨p, hp, heq⟩ := Option.map_eq_some_iff.mp hm
    cases heq
    have hfound := List.find?_some hp
    simp only [Bool.and_eq_true, decide_eq_true_eq, beq_iff_eq] at hfound
    exact ⟨hzero, hfound.2, hfound.1⟩

theorem NodeInv.withSegments (h : NodeInv s) (hi : i < s.nextFrame) {segments : List Segment}
    {task : Task}
    (hsplit : ∀ id, task = .split id → ∀ g ∈ segments.find? (·.id == id),
      Loose s g ∧ g.mask < 2 ^ 30)
    (hmerge : ∀ id, task = .merge id → ∀ g ∈ (mergePair segments id).map (·.1), Loose s g) :
    NodeInv (withSegments s i segments task) := by
  cases task with
  | round caller => exact h.rest hi trivial rfl
  | split id =>
      simp only [Node.withSegments]
      split
      · exact h.rest hi trivial rfl
      · rename_i segment hfind
        obtain ⟨hloose, hmask⟩ := hsplit id rfl segment hfind
        exact h.holdSplit hi hloose hmask
  | merge id =>
      simp only [Node.withSegments]
      split
      · exact h.rest hi trivial rfl
      · rename_i segment partner hpair
        have hloose := hmerge id rfl segment (by rw [hpair]; rfl)
        exact h.holdMerge hi (mergePair_some hpair) hloose (fun hno => by cases hno)

/-- A segment is given back to a worker, or let go. -/
theorem NodeInv.mergeUndo (h : NodeInv s) (hi : i < s.nextFrame)
    {rest : List (Segment × How × Option (TrackingToken K))} (hnodup : (rest.map (·.1)).Nodup)
    (hfree : ∀ g ∈ rest.map (·.1), Free s g) : NodeInv (mergeUndo s i rest) := by
  cases rest with
  | nil => exact h.rest hi trivial rfl
  | cons first rest =>
      obtain ⟨segment, how, token⟩ := first
      rw [List.map_cons, List.nodup_cons] at hnodup
      have hseg : Free s segment := hfree segment (by simp)
      have hrest : ∀ g ∈ rest.map (·.1), Free s g := fun g hg => hfree g (List.mem_cons_of_mem _ hg)
      simp only [Node.mergeUndo]
      split_ifs
      · refine (h.startWorker hseg _).setFrame (Nat.lt_succ_of_lt hi) hnodup.2 ?_
        intro g hg
        refine (hrest g hg).startWorker h hseg ?_ _
        intro heq
        exact hnodup.1 (heq ▸ hg)
      · exact h.setFrame hi hnodup.2 hrest

theorem NodeInv.undoPair (h : NodeInv s) (hi : i < s.nextFrame) {segment partner : Segment}
    (hh : Halves segment partner) (hseg : Free s segment) (hpartner : Free s partner)
    (how how' : How) (token token' : Option (TrackingToken K)) :
    NodeInv (Node.mergeUndo s i [(segment, how, token), (partner, how', token')]) := by
  have hne := hh.ne (h.valid hseg.1)
  refine h.mergeUndo hi ?_ ?_
  · simpa using hne.symm
  · intro g hg
    rcases List.mem_pair.mp hg with rfl | rfl
    · exact hseg
    · exact hpartner

theorem NodeInv.undoFirst (h : NodeInv s) (hi : i < s.nextFrame) {segment : Segment}
    {first : Option How} (hheld : first.isSome = true → Free s segment) :
    NodeInv (Node.mergeUndo s i (heldBefore segment first)) := by
  cases first with
  | none => exact h.rest hi trivial rfl
  | some how =>
      refine h.mergeUndo hi (List.nodup_singleton _) ?_
      intro g hg
      rw [List.mem_singleton.mp hg]
      exact hheld rfl

/-- A merge goes on when it has a segment: with the partner, or with both. -/
theorem NodeInv.mergeHeld (h : NodeInv s) (hi : i < s.nextFrame) {segment partner : Segment}
    (hh : Halves segment partner) {first : Option How} {how : How}
    (htaken : ∀ g ∈ if first.isNone then [segment] else [segment, partner], Free s g)
    (hasks : first = none → Loose s partner) :
    NodeInv (mergeHeld s i segment partner first how) := by
  cases first with
  | none =>
      exact h.holdMerge hi hh (hasks rfl) (fun _ => htaken segment (List.mem_singleton_self _))
  | some before => exact h.setFrame hi hh htaken

theorem NodeInv.splitUndo (h : NodeInv s) (hi : i < s.nextFrame) {segment : Segment}
    (hfree : Free s segment) (how : How) (token : Option (TrackingToken K)) :
    NodeInv (splitUndo s i segment how token) := by
  unfold Node.splitUndo
  split_ifs
  · exact (h.startWorker hfree _).rest (Nat.lt_succ_of_lt hi) trivial rfl
  · exact h.rest hi trivial rfl

theorem NodeInv.resumeLast (h : NodeInv s) (hi : i < s.nextFrame) {segment : Segment}
    (hfree : Free s segment) (token : Option (TrackingToken K)) :
    NodeInv (resumeLast s i segment token) := by
  unfold Node.resumeLast
  split_ifs
  · exact h.startWorker hfree token
  · exact h.rest hi trivial rfl

theorem NodeInv.afterSplitCommit (h : NodeInv s) (hi : i < s.nextFrame) {segment : Segment}
    {how : How} {token : Option (TrackingToken K)} {reply : Reply K}
    (hfree : ∀ g ∈ Frame.taken ⟨.splitCommit segment how token, some reply⟩, Free s g) :
    NodeInv (afterSplitCommit s i segment how token reply) := by
  cases reply with
  | done =>
      have hforgot : NodeInv (s.forget segment.id) := h.congr rfl rfl rfl rfl rfl rfl
      have hfree₁ : Free (s.forget segment.id) (splitSegment segment).1 :=
        hfree _ (List.mem_cons_self ..)
      have hfree₂ : Free (s.forget segment.id) (splitSegment segment).2 :=
        hfree _ (List.mem_cons_of_mem _ (List.mem_singleton_self _))
      simp only [Node.afterSplitCommit]
      split_ifs
      · refine (hforgot.startWorker hfree₁ token).setFrame (Nat.lt_succ_of_lt hi) trivial ?_
        intro g hg
        rw [List.mem_singleton.mp hg]
        refine hfree₂.startWorker hforgot hfree₁ ?_ token
        simp only [splitSegment, ne_eq, Segment.mk.injEq, not_and]
        omega
      · refine hforgot.setFrame hi trivial ?_
        intro g hg
        rw [List.mem_singleton.mp hg]
        exact hfree₂
  | ids ids => exact h.splitUndo hi (hfree _ (List.mem_singleton_self _)) how token
  | token t => exact h.splitUndo hi (hfree _ (List.mem_singleton_self _)) how token
  | refused => exact h.splitUndo hi (hfree _ (List.mem_singleton_self _)) how token
  | failed => exact h.splitUndo hi (hfree _ (List.mem_singleton_self _)) how token

theorem NodeInv.afterMergeCommit (h : NodeInv s) (hi : i < s.nextFrame)
    {segment partner : Segment} (hh : Halves segment partner) {how how' : How}
    {token token' : Option (TrackingToken K)} {reply : Reply K}
    (hfree : ∀ g ∈ Frame.taken ⟨.mergeCommit segment partner how how' token token', some reply⟩,
      Free s g) :
    NodeInv (afterMergeCommit s i segment partner how how' token token' reply) := by
  have hundo : (∀ g ∈ [segment, partner], Free s g) →
      NodeInv (Node.mergeUndo s i [(segment, how, token), (partner, how', token')]) := by
    intro hboth
    exact h.undoPair hi hh (hboth segment (List.mem_cons_self ..))
      (hboth partner (List.mem_cons_of_mem _ (List.mem_singleton_self _))) how how' token token'
  cases reply with
  | done =>
      simp only [Node.afterMergeCommit]
      have hforgot : NodeInv ((s.forget (max segment.id partner.id)).forget
          (min segment.id partner.id)) := h.congr rfl rfl rfl rfl rfl rfl
      split_ifs
      · exact hforgot.startWorker (hfree _ (List.mem_singleton_self _)) _
      · exact hforgot.rest hi (Or.inl rfl) rfl
  | ids ids => exact hundo hfree
  | token t => exact hundo hfree
  | refused => exact hundo hfree
  | failed => exact hundo hfree

theorem NodeInv.endPoll (h : NodeInv s) (w : ℕ) : NodeInv (endPoll s w) :=
  h.setWorker w fun _ => ⟨rfl, rfl⟩

theorem NodeInv.setToken (h : NodeInv s) (w : ℕ) (v : Worker K) (token : TrackingToken K) :
    NodeInv (setToken s w v token) := by
  have hset := h.setWorker w (f := fun v => { v with token := token }) fun _ => ⟨rfl, rfl⟩
  exact hset.congr rfl rfl rfl rfl rfl rfl

theorem NodeInv.moveThroughQuietStretch (h : NodeInv s) (hi : i < s.nextFrame) {w : ℕ}
    {v : Worker K} {looked : TrackingToken K}
    (ht : moveThroughQuietStretch s i w v looked = some t) : NodeInv t := by
  unfold Node.moveThroughQuietStretch at ht
  split_ifs at ht with hpos hmask
  · cases ht
    have hset := (h.setToken w v (advanceTokenTo v.token looked)).setWorker w
      (f := fun v => { v with unwritten := true }) fun _ => ⟨rfl, rfl⟩
    exact hset.endPoll w
  · cases ht
    exact (h.setToken w v _).rest hi trivial rfl

theorem NodeInv.pollOnce (h : NodeInv s) (hi : i < s.nextFrame) {w : ℕ} {v : Worker K}
    {found : Found K} (ht : pollOnce s i w v found = some t) : NodeInv t := by
  cases found with
  | nothing =>
      cases ht
      exact h.endPoll w
  | events pasts =>
      simp only [Node.pollOnce] at ht
      split_ifs at ht
      cases ht
      exact h.rest hi trivial rfl
  | looked upTo => exact h.moveThroughQuietStretch hi ht

theorem NodeInv.afterRenewing (h : NodeInv s) (hi : i < s.nextFrame) {w : ℕ} {v : Worker K}
    {found : Found K} (ht : afterRenewing s i w v found = some t) : NodeInv t := by
  unfold Node.afterRenewing at ht
  split_ifs at ht
  · exact h.pollOnce hi ht
  · cases ht
    exact h.endPoll w

theorem NodeInv.afterBatch (h : NodeInv s) (hi : i < s.nextFrame) {w : ℕ} {v : Worker K}
    {token : TrackingToken K} {found : Found K} {reply : Reply K}
    (ht : afterBatch s i w v token found reply = some t) : NodeInv t := by
  cases reply with
  | done =>
      have hset := (h.setToken w v token).setWorker w
        (f := fun v => { v with unwritten := false }) fun _ => ⟨rfl, rfl⟩
      simp only [Node.afterBatch] at ht
      split at ht
      · exact hset.moveThroughQuietStretch hi ht
      · cases ht
      · cases ht
        exact hset.endPoll w
  | refused =>
      cases ht
      exact (h.lose w).endPoll w
  | ids ids =>
      cases ht
      exact h.endPoll w
  | token t' =>
      cases ht
      exact h.endPoll w
  | failed =>
      cases ht
      exact h.endPoll w

theorem NodeInv.afterQuiet (h : NodeInv s) (w : ℕ) (reply : Reply K) :
    NodeInv (afterQuiet s w reply) := by
  unfold Node.afterQuiet
  split
  · exact (h.lose w).endPoll w
  · exact h.endPoll w

theorem NodeInv.afterInFlight (h : NodeInv s) (hi : i < s.nextFrame) {w : ℕ} {v : Worker K}
    {release : Bool} (ht : afterInFlight s i w v release = some t) : NodeInv t := by
  unfold Node.afterInFlight at ht
  split_ifs at ht <;> cases ht
  · exact h.rest hi trivial rfl
  · exact h.rest hi trivial rfl
  · exact h

theorem NodeInv.afterStopWrite (h : NodeInv s) (hi : i < s.nextFrame) (w : ℕ) (release : Bool)
    (reply : Reply K) : NodeInv (afterStopWrite s i w release reply) := by
  unfold Node.afterStopWrite
  split
  · split_ifs
    · exact h.rest hi trivial rfl
    · exact h
  · exact h
  · exact h.rest hi trivial rfl

theorem NodeInv.afterStopRelease (h : NodeInv s) (hi : i < s.nextFrame) (reply : Reply K) :
    NodeInv (afterStopRelease s i reply) := by
  unfold Node.afterStopRelease
  split
  · exact h
  · exact h
  · exact h.rest hi trivial rfl

theorem NodeInv.afterStopping (h : NodeInv s) (hi : i < s.nextFrame) {stopping : List ℕ}
    (ht : afterStopping s i stopping = some t) : NodeInv t := by
  unfold Node.afterStopping at ht
  split_ifs at ht <;> cases ht
  · exact h.rest hi trivial rfl
  · have hrunning : NodeInv { s with isRunning := true } := h.congr rfl rfl rfl rfl rfl rfl
    exact hrunning.rest hi trivial rfl

theorem NodeInv.afterRelease (h : NodeInv s) (hi : i < s.nextFrame) (rethrow : Bool)
    (reply : Reply K) : NodeInv (afterRelease s i rethrow reply) := by
  unfold Node.afterRelease
  split
  · split_ifs
    · exact h.rest hi trivial rfl
    · exact h
  · exact h.rest hi trivial rfl

/-- A list of ids is worked on only by the task it was fetched for. -/
theorem NodeInv.afterFetch (h : NodeInv s) (hi : i < s.nextFrame) {task : Task} {first : Bool}
    {reply : Reply K}
    (hsplit : ∀ id ids, task = .split id → reply = .ids ids →
      ∀ g ∈ (segmentsOf ids).find? (·.id == id), Loose s g ∧ g.mask < 2 ^ 30)
    (hmerge : ∀ id ids, task = .merge id → reply = .ids ids →
      ∀ g ∈ (mergePair (segmentsOf ids) id).map (·.1), Loose s g) :
    NodeInv (afterFetch s i task first reply) := by
  unfold Node.afterFetch
  split
  · rename_i ids
    split_ifs
    · exact h.rest hi trivial rfl
    · exact h.withSegments hi (fun id hid => hsplit id ids hid rfl)
        (fun id hid => hmerge id ids hid rfl)
  · exact h.failTask hi task

theorem NodeInv.afterInitialize (h : NodeInv s) (hi : i < s.nextFrame) (task : Task)
    (reply : Reply K) : NodeInv (afterInitialize s i task reply) := by
  unfold Node.afterInitialize
  split
  · exact h.rest hi trivial rfl
  · exact h.failTask hi task

theorem NodeInv.afterListing (h : NodeInv s) (hi : i < s.nextFrame) {caller : Caller}
    {segments : List Segment} {reply : Reply K}
    (hasks : ∀ g ∈ asksFrom s (.listing caller segments) (some reply), Loose s g) :
    NodeInv (afterListing s i caller segments reply) := by
  cases reply with
  | ids available => exact h.claimLoop hi caller hasks
  | done => exact h.endRound hi caller false
  | token token => exact h.endRound hi caller false
  | refused => exact h.endRound hi caller false
  | failed => exact h.endRound hi caller false

theorem NodeInv.afterAbandon (h : NodeInv s) (hi : i < s.nextFrame) (caller : Caller)
    (reply : Reply K) : NodeInv (afterAbandon s i caller reply) := by
  unfold Node.afterAbandon
  split
  · exact h.endRound hi caller true
  · exact h.endRound hi caller false

theorem NodeInv.afterSplitClaim (h : NodeInv s) (hi : i < s.nextFrame) {segment : Segment}
    (hmask : segment.mask < 2 ^ 30) (hfree : ∀ g ∈ [segment], Free s g) (reply : Reply K) :
    NodeInv (afterSplitClaim s i segment reply) := by
  unfold Node.afterSplitClaim
  split
  · exact h.setFrame hi hmask hfree
  · exact h.rest hi trivial rfl

theorem NodeInv.afterSplitRead (h : NodeInv s) (hi : i < s.nextFrame) {segment : Segment}
    (hmask : segment.mask < 2 ^ 30) (hfree : ∀ g ∈ [segment], Free s g) (how : How)
    (reply : Reply K) : NodeInv (afterSplitRead s i segment how reply) := by
  have hseg := hfree segment (List.mem_singleton_self _)
  unfold Node.afterSplitRead
  split
  · split_ifs
    · exact h.splitUndo hi hseg how _
    · exact h.setFrame hi hmask hfree
  · exact h.splitUndo hi hseg how none

theorem NodeInv.afterSplitFirst (h : NodeInv s) (hi : i < s.nextFrame) {segment : Segment}
    (hfree : Free s (splitSegment segment).2) (token : Option (TrackingToken K))
    (reply : Reply K) : NodeInv (afterSplitFirst s i segment token reply) := by
  unfold Node.afterSplitFirst
  split
  · exact h.resumeLast hi hfree token
  · exact h.rest hi trivial rfl

theorem NodeInv.afterMergeClaim (h : NodeInv s) (hi : i < s.nextFrame)
    {segment partner : Segment} (hh : Halves segment partner) {first : Option How}
    (hfree : ∀ g ∈ if first.isNone then [segment] else [segment, partner], Free s g)
    {reply : Reply K}
    (hasks : ∀ g ∈ asksFrom s (.mergeClaim segment partner first) (some reply), Loose s g) :
    NodeInv (afterMergeClaim s i segment partner first reply) := by
  have hundo : NodeInv (Node.mergeUndo s i (heldBefore segment first)) := by
    refine h.undoFirst hi ?_
    intro hsome
    cases first with
    | none => cases hsome
    | some how => exact hfree segment (List.mem_cons_self ..)
  cases reply with
  | token token =>
      refine h.mergeHeld hi hh hfree ?_
      rintro rfl
      exact hasks partner rfl
  | done => exact hundo
  | ids ids => exact hundo
  | refused => exact hundo
  | failed => exact hundo

theorem NodeInv.afterMergeRead (h : NodeInv s) (hi : i < s.nextFrame)
    {segment partner : Segment} (hh : Halves segment partner)
    (hfree : ∀ g ∈ [segment, partner], Free s g) (how how' : How) (reply : Reply K) :
    NodeInv (afterMergeRead s i segment partner how how' reply) := by
  have hseg := hfree segment (List.mem_cons_self ..)
  have hpartner := hfree partner (List.mem_cons_of_mem _ (List.mem_singleton_self _))
  unfold Node.afterMergeRead
  split
  · split_ifs
    · exact h.undoPair hi hh hseg hpartner how how' _ none
    · exact h.setFrame hi hh hfree
  · exact h.undoPair hi hh hseg hpartner how how' none none

theorem NodeInv.afterMergeReadPartner (h : NodeInv s) (hi : i < s.nextFrame)
    {segment partner : Segment} (hh : Halves segment partner)
    (hfree : ∀ g ∈ [segment, partner], Free s g) (how how' : How)
    (token : Option (TrackingToken K)) (reply : Reply K) :
    NodeInv (afterMergeReadPartner s i segment partner how how' token reply) := by
  have hseg := hfree segment (List.mem_cons_self ..)
  have hpartner := hfree partner (List.mem_cons_of_mem _ (List.mem_singleton_self _))
  unfold Node.afterMergeReadPartner
  split
  · split_ifs
    · exact h.undoPair hi hh hseg hpartner how how' token _
    · exact h.setFrame hi hh hfree
  · exact h.undoPair hi hh hseg hpartner how how' token none

theorem NodeInv.afterUndoRelease (h : NodeInv s) (hi : i < s.nextFrame)
    {rest : List (Segment × How × Option (TrackingToken K))} (hnodup : (rest.map (·.1)).Nodup)
    (hfree : ∀ g ∈ rest.map (·.1), Free s g) (how : How) (reply : Reply K) :
    NodeInv (afterUndoRelease s i how rest reply) := by
  unfold Node.afterUndoRelease
  split
  · exact h.mergeUndo hi hnodup hfree
  · split_ifs
    · exact h.rest hi trivial rfl
    · exact h.mergeUndo hi hnodup hfree

end Updates

end Kronos.Processing.Node
