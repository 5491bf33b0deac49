import Kronos.Processing.SegmentPartition
import Kronos.Processing.SharedStreamReset
import Kronos.Processing.Worker

/-!
# Resetting a processor and running it to the head

`resetTokens` puts every segment at one start position. The workers started
afterwards open their views of the shared stream there, in any order, and take
and commit their batches interleaved in any way. A poll takes its events in one
go in the source; here each `next()` is an action of its own, which only adds
interleavings. A batch that fails is not part of a run to the head.

What a worker has delivered at the head is settled by how far above a bare
position its store starts to read. In memory that is the position itself; on
Postgres the first fetch asks for positions strictly above it, and the event at
the start position is never delivered again.
-/
namespace Kronos.Processing.ResetReplay
open Kronos.Lib.Transition Kronos.Lib.Window SharedStream TrackingToken

variable {K E C : Type}

/-- The events a processor handles, their hashes, and its segments. -/
structure Config (E : Type) where
  handled : E → Bool
  hashOf : E → ℕ
  hash_lt : ∀ e, hashOf e < 2 ^ 32
  segments : List Segment
  readAhead : ℕ
  readAhead_pos : 0 < readAhead

def Config.accepts (cfg : Config E) (segment : Segment) (e : SequencedEvent K E) : Bool :=
  cfg.handled e.event && inSegment segment (cfg.hashOf e.event)

structure Worker (K E : Type) where
  segment : Segment
  token : TrackingToken K
  stream : Option ℕ
  /-- Taken from the stream, its unit of work not committed yet. -/
  batch : List (SequencedEvent K E)
  delivered : List (SequencedEvent K E)

structure Run (K E C : Type) where
  shared : SharedStream.State K E C
  workers : List (Worker K E)

inductive Action (K : Type) where
  | arrive (n : ℕ)
  /-- Worker `w` opens its stream. -/
  | openStream (w : ℕ)
  | next (w : ℕ)
  | commit (w : ℕ)
  /-- Worker `w` moves through a quiet stretch; the store's stream answers `answer`. -/
  | quiet (w : ℕ) (answer : Option (TrackingToken K))

/-- The processor stopped, its tokens reset, and its workers about to start. -/
def resetTokens (cfg : Config E) (log : Log K E) (stored : Segment → Option (TrackingToken K))
    (startPosition : ℕ) : Run K E C where
  shared := ⟨log, log.getLast?.elim 0 fun e => e.sequence + 1, [], none, 0⟩
  workers := cfg.segments.map fun segment =>
    ⟨segment, resetToken (stored segment) startPosition, none, [], []⟩

/-- `moveThroughQuietStretch`. -/
def Worker.moveTo (worker : Worker K E) (looked : TrackingToken K) : Worker K E :=
  if worker.token.position < looked.position then
    { worker with token := advanceTokenTo worker.token looked }
  else worker

/-- A batch commits. -/
def Worker.commit (cfg : Config E) (worker : Worker K E) : Worker K E :=
  let prepared := SegmentWorker.prepare cfg.hashOf worker.token worker.batch
  { worker with
    token := prepared.2
    batch := []
    delivered := worker.delivered ++ prepared.1.filter fun e => cfg.handled e.event }

section Step
variable (S : Store K E C) (cfg : Config E)

def step (r : Run K E C) : Action K → Option (Run K E C)
  | .arrive n =>
      (SharedStream.step S cfg.readAhead r.shared (.arrive n)).map fun shared =>
        { r with shared := shared }
  | .openStream w => do
      let worker ← r.workers[w]?
      if worker.stream.isSome then none else
        some {
          shared := openView S r.shared worker.token.position (some worker.token)
            (cfg.accepts worker.segment)
          workers := r.workers.set w { worker with stream := some r.shared.views.length } }
  | .next w => do
      let worker ← r.workers[w]?
      let v ← worker.stream
      let taken := take S cfg.readAhead r.shared v
      some {
        shared := taken.2
        workers := r.workers.set w { worker with batch := worker.batch ++ taken.1.toList } }
  | .commit w => do
      let worker ← r.workers[w]?
      if worker.batch.isEmpty then none else
        some { r with workers := r.workers.set w (worker.commit cfg) }
  | .quiet w answer => do
      let worker ← r.workers[w]?
      let v ← worker.stream
      let view ← r.shared.views[v]?
      let looked ← progressToken S r.shared view answer
      -- A stream answers with a token of its own, never with a merged one.
      if !worker.batch.isEmpty || looked.isMergedToken then none
      else some { r with workers := r.workers.set w (worker.moveTo looked) }

/-- Everything has arrived, every batch is committed and no stream has more. -/
def AtHead (r : Run K E C) : Prop :=
  (∀ i, r.shared.inner = some i → i.seen = r.shared.log.length) ∧
    ∀ worker ∈ r.workers, worker.batch = [] ∧
      ∃ v, worker.stream = some v ∧ (take S cfg.readAhead r.shared v).1 = none

end Step

/-- The whole log has reached the stream. -/
def arrived (s : SharedStream.State K E C) : Bool :=
  s.inner.all fun i => decide (i.seen = s.log.length)

theorem arrived_iff {s : SharedStream.State K E C} :
    arrived s = true ↔ ∀ i, s.inner = some i → i.seen = s.log.length := by
  simp only [arrived, Option.all_eq_true, decide_eq_true_eq]

instance (S : Store K E C) (cfg : Config E) (r : Run K E C) : Decidable (AtHead S cfg r) :=
  decidable_of_iff (arrived r.shared = true ∧ ∀ worker ∈ r.workers, worker.batch.isEmpty = true ∧
      (worker.stream.any fun v => (take S cfg.readAhead r.shared v).1.isNone) = true) (by
    simp only [AtHead, arrived_iff, List.isEmpty_iff, Option.any_eq_true,
      Option.isNone_iff_eq_none])

theorem resetToken_plain (stored : Option (TrackingToken K)) (p : ℕ) :
    (resetToken stored p).unwrapToken = globalSequence p ∧ (resetToken stored p).position = p ∧
      (resetToken stored p).isMergedToken = false := by
  unfold resetToken
  dsimp only
  split
  · split_ifs
    · exact ⟨rfl, rfl, rfl⟩
    · exact ⟨rfl, rfl, rfl⟩
  · exact ⟨rfl, rfl, rfl⟩

/-- A token that is not merged stays so along tokens that are not. -/
theorem advanceTokenTo_unmerged {token next : TrackingToken K}
    (htoken : token.isMergedToken = false) (hnext : next.isMergedToken = false) :
    (advanceTokenTo token next).isMergedToken = false := by
  cases token with
  | globalSequence n => exact hnext
  | gapAware n k => exact hnext
  | replay reset current =>
      simp only [advanceTokenTo]
      split_ifs
      · exact hnext
      · rfl
  | merged mask a ta b tb => cases htoken

/-- Without a merge every event of a batch is new to its segment. -/
theorem prepare_unmerged (hashOf : E → ℕ) {token : TrackingToken K}
    {batch : List (SequencedEvent K E)} (htoken : token.isMergedToken = false)
    (hbatch : ∀ e ∈ batch, e.past.isMergedToken = false) :
    (SegmentWorker.prepare hashOf token batch).1 = batch ∧
      (SegmentWorker.prepare hashOf token batch).2.isMergedToken = false := by
  induction batch generalizing token with
  | nil => exact ⟨rfl, htoken⟩
  | cons e batch ih =>
      have hnext := advanceTokenTo_unmerged htoken (hbatch e List.mem_cons_self)
      obtain ⟨hfresh, hend⟩ := ih hnext fun x hx => hbatch x (List.mem_cons_of_mem _ hx)
      refine ⟨?_, hend⟩
      simp only [SegmentWorker.prepare, SegmentWorker.isFresh, htoken, Bool.false_and,
        Bool.not_false,
        if_true, hfresh]

/-- What a worker has delivered and holds in its batch is what its view has handed out. -/
structure WorkerOk (cfg : Config E) (p : ℕ) (shared : SharedStream.State K E C)
    (worker : Worker K E) : Prop where
  unmerged : worker.token.isMergedToken = false
  unopened : worker.stream = none → worker.token.unwrapToken = globalSequence p ∧
    worker.token.position = p ∧ worker.batch = [] ∧ worker.delivered = []
  opened : ∀ v, worker.stream = some v → ∃ view, shared.views[v]? = some view ∧
    view.accepts = cfg.accepts worker.segment ∧ view.handed = worker.delivered ++ worker.batch

structure RunInv (S : Store K E C) (cfg : Config E) (p d : ℕ) (log : Log K E) (r : Run K E C) :
    Prop where
  shared : ResetInv S p d r.shared
  log : r.shared.log = log
  segments : r.workers.map Worker.segment = cfg.segments
  workers : ∀ (w : ℕ) worker, r.workers[w]? = some worker → WorkerOk cfg p r.shared worker
  own : ∀ (w w' : ℕ) a b v, r.workers[w]? = some a → r.workers[w']? = some b →
    a.stream = some v → b.stream = some v → w = w'
  owned : ∀ v < r.shared.views.length, ∃ (w : ℕ) (a : Worker K E), r.workers[w]? = some a ∧
    a.stream = some v

section Invariant
variable {S : Store K E C} {cfg : Config E} {p d : ℕ} {log : Log K E} {r r' : Run K E C}

theorem runInv_resetTokens (cfg : Config E) (p : ℕ) (hlog : ReadsInOrder S d log)
    (stored : Segment → Option (TrackingToken K)) :
    RunInv S cfg p d log (resetTokens cfg log stored p) where
  shared := by
    refine ⟨hlog, fun h => absurd rfl h, ?_, ?_⟩
    · intro i hi
      cases hi
    · intro v hv
      cases hv
  log := rfl
  segments := by
    simp only [resetTokens, List.map_map]
    exact List.map_id _
  workers w worker hw := by
    simp only [resetTokens, List.getElem?_map, Option.map_eq_some_iff] at hw
    obtain ⟨segment, -, rfl⟩ := hw
    obtain ⟨hunwrap, hposition, hunmerged⟩ := resetToken_plain (stored segment) p
    exact ⟨hunmerged, fun _ => ⟨hunwrap, hposition, rfl, rfl⟩, fun v hv => by cases hv⟩
  own w w' a b v ha _ hv _ := by
    simp only [resetTokens, List.getElem?_map, Option.map_eq_some_iff] at ha
    obtain ⟨segment, -, rfl⟩ := ha
    cases hv
  owned v hv := by cases hv

/-- A worker's invariant while its view stays in the same hands. -/
theorem WorkerOk.frame {shared shared' : SharedStream.State K E C} {worker : Worker K E}
    (h : WorkerOk cfg p shared worker)
    (hviews : ∀ v view, worker.stream = some v → shared.views[v]? = some view →
      ∃ after, shared'.views[v]? = some after ∧ SameHolder view after) :
    WorkerOk cfg p shared' worker where
  unmerged := h.unmerged
  unopened := h.unopened
  opened v hv := by
    obtain ⟨view, hview, haccepts, hhanded⟩ := h.opened v hv
    obtain ⟨after, hafter, hsame⟩ := hviews v view hv hview
    exact ⟨after, hafter, hsame.accepts.trans haccepts, hsame.handed.trans hhanded⟩

/-- Which worker a place of the list holds once one of them has moved on. -/
theorem getElem?_set_cases {workers : List (Worker K E)} {w w' : ℕ} {new worker : Worker K E}
    (h : (workers.set w new)[w']? = some worker) :
    (w = w' ∧ worker = new) ∨ (w ≠ w' ∧ workers[w']? = some worker) := by
  rw [List.getElem?_set] at h
  split_ifs at h with hw hlt
  · exact Or.inl ⟨hw, (Option.some.inj h).symm⟩
  · exact Or.inr ⟨hw, h⟩

/-- One worker moves on; its stream stays the same and the others keep theirs. -/
theorem RunInv.setWorker (h : RunInv S cfg p d log r) {w : ℕ} {worker new : Worker K E}
    {shared : SharedStream.State K E C} (hw : r.workers[w]? = some worker)
    (hshared : ResetInv S p d shared) (hlog : shared.log = r.shared.log)
    (hlength : shared.views.length = r.shared.views.length)
    (hsegment : new.segment = worker.segment) (hstream : new.stream = worker.stream)
    (hnew : WorkerOk cfg p shared new)
    (hothers : ∀ v view, worker.stream ≠ some v → r.shared.views[v]? = some view →
      ∃ after, shared.views[v]? = some after ∧ SameHolder view after) :
    RunInv S cfg p d log ⟨shared, r.workers.set w new⟩ where
  shared := hshared
  log := hlog.trans h.log
  segments := by
    rw [← h.segments]
    apply List.ext_getElem?
    intro i
    rw [List.getElem?_map, List.getElem?_map, List.getElem?_set]
    split_ifs with hi hlt
    · subst hi
      rw [hw, Option.map_some, Option.map_some, hsegment]
    · subst hi
      rw [List.getElem?_eq_none (Nat.le_of_not_lt hlt)]
    · rfl
  workers w' worker' hw' := by
    rcases getElem?_set_cases hw' with ⟨-, rfl⟩ | ⟨hne, hold⟩
    · exact hnew
    · refine (h.workers w' worker' hold).frame ?_
      intro v view hv hview
      refine hothers v view ?_ hview
      intro hsame
      exact hne (h.own w w' worker worker' v hw hold hsame hv)
  own w₁ w₂ a b v ha hb hav hbv := by
    rcases getElem?_set_cases ha with ⟨rfl, rfl⟩ | ⟨-, hold⟩
    · rcases getElem?_set_cases hb with ⟨rfl, -⟩ | ⟨-, hold'⟩
      · rfl
      · exact h.own w w₂ worker b v hw hold' (hstream ▸ hav) hbv
    · rcases getElem?_set_cases hb with ⟨rfl, rfl⟩ | ⟨-, hold'⟩
      · exact h.own w₁ w a worker v hold hw hav (hstream ▸ hbv)
      · exact h.own w₁ w₂ a b v hold hold' hav hbv
  owned v hv := by
    rw [hlength] at hv
    obtain ⟨w', a, ha, hav⟩ := h.owned v hv
    by_cases hww : w = w'
    · subst hww
      refine ⟨w, new, ?_, ?_⟩
      · rw [List.getElem?_set_self (List.getElem?_eq_some_iff.mp hw).1]
      · cases hw.symm.trans ha
        exact hstream.trans hav
    · exact ⟨w', a, by rw [List.getElem?_set_ne hww, ha], hav⟩

/-- A worker that had no stream opens one. -/
theorem RunInv.openStream (h : RunInv S cfg p d log r) {w : ℕ} {worker : Worker K E}
    (hw : r.workers[w]? = some worker) (hnone : worker.stream = none) :
    RunInv S cfg p d log ⟨openView S r.shared worker.token.position (some worker.token)
        (cfg.accepts worker.segment),
      r.workers.set w { worker with stream := some r.shared.views.length }⟩ := by
  have hok := h.workers w worker hw
  obtain ⟨hunwrap, hposition, hbatch, hdelivered⟩ := hok.unopened hnone
  rw [hposition]
  have hshared := h.shared.openView hunwrap (cfg.accepts worker.segment)
  have hkeep : ∀ v view, r.shared.views[v]? = some view →
      ∃ after, (openView S r.shared p (some worker.token)
        (cfg.accepts worker.segment)).views[v]? = some after ∧ SameHolder view after :=
    fun v view hv => openView_holder hv p (some worker.token) (cfg.accepts worker.segment)
  -- A view that is owned is in the list already, so the new one is nobody else's.
  have hbelow : ∀ (w' : ℕ) a v, r.workers[w']? = some a → a.stream = some v →
      v < r.shared.views.length := by
    intro w' a v ha hv
    obtain ⟨view, hview, -⟩ := (h.workers w' a ha).opened v hv
    exact (List.getElem?_eq_some_iff.mp hview).1
  refine ⟨hshared, (openView_log S _ _ _ _).1.trans h.log, ?_, ?_, ?_, ?_⟩
  · rw [← h.segments]
    apply List.ext_getElem?
    intro i
    rw [List.getElem?_map, List.getElem?_map, List.getElem?_set]
    split_ifs with hi hlt
    · subst hi
      rw [hw]
      rfl
    · subst hi
      rw [List.getElem?_eq_none (Nat.le_of_not_lt hlt)]
    · rfl
  · intro w' worker' hw'
    rcases getElem?_set_cases hw' with ⟨-, rfl⟩ | ⟨-, hold⟩
    · refine ⟨hok.unmerged, (fun hs => by cases hs), ?_⟩
      intro v hv
      cases hv
      obtain ⟨view, hview, -, haccepts, -, hhanded⟩ := openView_new S r.shared p
        (some worker.token) (cfg.accepts worker.segment)
      refine ⟨view, hview, haccepts, ?_⟩
      rw [hhanded, hdelivered, hbatch, List.append_nil]
    · exact (h.workers w' worker' hold).frame fun v view _ hview => hkeep v view hview
  · intro w₁ w₂ a b v ha hb hav hbv
    rcases getElem?_set_cases ha with ⟨rfl, rfl⟩ | ⟨-, hold⟩
    · rcases getElem?_set_cases hb with ⟨rfl, -⟩ | ⟨-, hold'⟩
      · rfl
      · cases hav
        exact absurd (hbelow w₂ b _ hold' hbv) (lt_irrefl _)
    · rcases getElem?_set_cases hb with ⟨rfl, rfl⟩ | ⟨-, hold'⟩
      · cases hbv
        exact absurd (hbelow w₁ a _ hold hav) (lt_irrefl _)
      · exact h.own w₁ w₂ a b v hold hold' hav hbv
  · intro v hv
    rw [openView_length] at hv
    rcases Nat.lt_succ_iff_lt_or_eq.mp hv with hlt | rfl
    · obtain ⟨w', a, ha, hav⟩ := h.owned v hlt
      refine ⟨w', a, ?_, hav⟩
      rw [List.getElem?_set_ne _, ha]
      rintro rfl
      cases hw.symm.trans ha
      rw [hnone] at hav
      cases hav
    · exact ⟨w, _, List.getElem?_set_self (List.getElem?_eq_some_iff.mp hw).1, rfl⟩

/-- A worker takes what its view hands out. -/
theorem RunInv.next (h : RunInv S cfg p d log r) {w v : ℕ} {worker : Worker K E}
    (hw : r.workers[w]? = some worker) (hv : worker.stream = some v) :
    RunInv S cfg p d log ⟨(take S cfg.readAhead r.shared v).2, r.workers.set w
      { worker with batch := worker.batch ++ (take S cfg.readAhead r.shared v).1.toList }⟩ := by
  have hok := h.workers w worker hw
  obtain ⟨view, hview, haccepts, hhanded⟩ := hok.opened v hv
  obtain ⟨hlog, -, after, hafter, hsame⟩ := take_frame S cfg.readAhead r.shared v hview
  rw [if_pos rfl] at hsame
  refine h.setWorker hw (h.shared.take v) hlog (take_length _ _ _ _) rfl rfl ?_ ?_
  · refine ⟨hok.unmerged, ?_, ?_⟩
    · intro hnone
      cases hv.symm.trans hnone
    · intro u hu
      cases hv.symm.trans hu
      refine ⟨after, hafter, hsame.accepts.trans haccepts, ?_⟩
      rw [hsame.handed, ← List.append_assoc, ← hhanded]
  · intro u other hne hother
    obtain ⟨-, -, after', hafter', hsame'⟩ := take_frame S cfg.readAhead r.shared v hother
    have huv : v ≠ u := by
      rintro rfl
      exact hne hv
    rw [if_neg huv] at hsame'
    exact ⟨after', hafter', hsame'⟩

/-- A batch commits: all of it is delivered. -/
theorem RunInv.commit (h : RunInv S cfg p d log r)
    (hplain : ∀ e ∈ log, e.past.isMergedToken = false) {w : ℕ} {worker : Worker K E}
    (hw : r.workers[w]? = some worker) :
    RunInv S cfg p d log { r with workers := r.workers.set w (worker.commit cfg) } := by
  have hok := h.workers w worker hw
  refine h.setWorker hw h.shared rfl rfl rfl rfl ?_ fun v view _ hview =>
    ⟨view, hview, sameHolder_refl view⟩
  cases hstream : worker.stream with
  | none =>
      obtain ⟨hunwrap, hposition, hbatch, hdelivered⟩ := hok.unopened hstream
      have hsame : worker.commit cfg = worker := by
        obtain ⟨segment, token, stream, batch, delivered⟩ := worker
        cases hbatch
        simp only [Worker.commit, SegmentWorker.prepare, List.filter_nil, List.append_nil]
      rw [hsame]
      exact hok
  | some v =>
      obtain ⟨view, hview, haccepts, hhanded⟩ := hok.opened v hstream
      have hasked : ∀ e ∈ worker.batch, e ∈ log ∧ cfg.handled e.event = true := by
        intro e he
        have hin : e ∈ asked r.shared.log (p + d) view.accepts := by
          apply (h.shared.handed_prefix (List.mem_of_getElem? hview)).subset
          rw [hhanded]
          exact List.mem_append_right _ he
        obtain ⟨hmem, hkept⟩ := List.mem_filter.mp hin
        rw [haccepts, Bool.and_eq_true, Config.accepts, Bool.and_eq_true] at hkept
        exact ⟨h.log ▸ hmem, hkept.2.1⟩
      obtain ⟨hfresh, hunmerged⟩ := prepare_unmerged cfg.hashOf hok.unmerged
        fun e he => hplain e (hasked e he).1
      have hall : (SegmentWorker.prepare cfg.hashOf worker.token worker.batch).1.filter
          (fun e => cfg.handled e.event) = worker.batch := by
        rw [hfresh]
        exact List.filter_eq_self.mpr fun e he => (hasked e he).2
      refine ⟨hunmerged, ?_, ?_⟩
      · intro hnone
        cases hstream.symm.trans hnone
      · intro u hu
        cases hstream.symm.trans hu
        refine ⟨view, hview, haccepts, ?_⟩
        simp only [Worker.commit, hall, List.append_nil]
        exact hhanded

theorem RunInv.quiet (h : RunInv S cfg p d log r) {w v : ℕ} {worker : Worker K E}
    (hw : r.workers[w]? = some worker) (hv : worker.stream = some v) {looked : TrackingToken K}
    (hlooked : looked.isMergedToken = false) :
    RunInv S cfg p d log { r with workers := r.workers.set w (worker.moveTo looked) } := by
  have hok := h.workers w worker hw
  have hmoved : (worker.moveTo looked).segment = worker.segment ∧
      (worker.moveTo looked).stream = worker.stream ∧
      (worker.moveTo looked).batch = worker.batch ∧
      (worker.moveTo looked).delivered = worker.delivered ∧
      (worker.moveTo looked).token.isMergedToken = false := by
    unfold Worker.moveTo
    split_ifs
    · exact ⟨rfl, rfl, rfl, rfl, advanceTokenTo_unmerged hok.unmerged hlooked⟩
    · exact ⟨rfl, rfl, rfl, rfl, hok.unmerged⟩
  obtain ⟨hsegment, hstream, hbatch, hdelivered, hunmerged⟩ := hmoved
  refine h.setWorker hw h.shared rfl rfl hsegment hstream ?_ fun v view _ hview =>
    ⟨view, hview, sameHolder_refl view⟩
  refine ⟨hunmerged, ?_, ?_⟩
  · intro hnone
    cases hv.symm.trans (hstream.symm.trans hnone)
  · intro u hu
    rw [hsegment, hbatch, hdelivered]
    exact hok.opened u (hstream.symm.trans hu)

/-- More of the log arrives. -/
theorem RunInv.arrive (h : RunInv S cfg p d log r) {i : Inner C} (hi : r.shared.inner = some i)
    {n : ℕ} (hn : n ≤ r.shared.log.length) :
    RunInv S cfg p d log
      { r with shared := { r.shared with inner := some { i with seen := n } } } where
  shared := by
    refine ⟨h.shared.reads, ?_, ?_, ?_⟩
    · intro _
      exact h.shared.readAt (by simp [hi])
    · intro k hk
      cases hk
      obtain ⟨hfailed, -, hafter⟩ := h.shared.cursor i hi
      exact ⟨hfailed, hn, hafter⟩
    · intro v hv
      obtain ⟨hok, -, hs⟩ := h.shared.views v hv
      exact ⟨hok, by simp, hs⟩
  log := h.log
  segments := h.segments
  workers w worker hw := (h.workers w worker hw).frame fun v view _ hview =>
    ⟨view, hview, sameHolder_refl view⟩
  own := h.own
  owned := h.owned

theorem RunInv.step (h : RunInv S cfg p d log r)
    (hplain : ∀ e ∈ log, e.past.isMergedToken = false) {a : Action K}
    (hstep : ResetReplay.step S cfg r a = some r') : RunInv S cfg p d log r' := by
  cases a with
  | arrive n =>
      obtain ⟨shared, hshared, rfl⟩ := Option.map_eq_some_iff.mp hstep
      simp only [SharedStream.step] at hshared
      split at hshared
      · cases hshared
      · rename_i i hi
        split_ifs at hshared with hn
        cases hshared
        exact h.arrive hi hn.2
  | openStream w =>
      obtain ⟨worker, hw, hstep⟩ := Option.bind_eq_some_iff.mp hstep
      split_ifs at hstep with hopen
      cases hstep
      rw [Bool.not_eq_true, Option.isSome_eq_false_iff, Option.isNone_iff_eq_none] at hopen
      exact h.openStream hw hopen
  | next w =>
      obtain ⟨worker, hw, hstep⟩ := Option.bind_eq_some_iff.mp hstep
      obtain ⟨v, hv, hstep⟩ := Option.bind_eq_some_iff.mp hstep
      cases hstep
      exact h.next hw hv
  | commit w =>
      obtain ⟨worker, hw, hstep⟩ := Option.bind_eq_some_iff.mp hstep
      split_ifs at hstep
      cases hstep
      exact h.commit hplain hw
  | quiet w answer =>
      obtain ⟨worker, hw, hstep⟩ := Option.bind_eq_some_iff.mp hstep
      obtain ⟨v, hv, hstep⟩ := Option.bind_eq_some_iff.mp hstep
      obtain ⟨view, hview, hstep⟩ := Option.bind_eq_some_iff.mp hstep
      obtain ⟨looked, hlooked, hstep⟩ := Option.bind_eq_some_iff.mp hstep
      split_ifs at hstep with hok
      cases hstep
      rw [Bool.or_eq_true, not_or, Bool.not_eq_true] at hok
      exact h.quiet hw hv (by simpa using hok.2)

/-- At the head every buffer is empty, so nothing holds the read up. -/
theorem AtHead.not_full (h : RunInv S cfg p d log r) (hhead : AtHead S cfg r) (v : ℕ) :
    full cfg.readAhead (refill S cfg.readAhead r.shared v).views = false := by
  have hdry : ∀ u < r.shared.views.length, (take S cfg.readAhead r.shared u).1 = none := by
    intro u hu
    obtain ⟨w, a, ha, hau⟩ := h.owned u hu
    obtain ⟨-, x, hx, hnone⟩ := hhead.2 a (List.mem_of_getElem? ha)
    cases hau.symm.trans hx
    exact hnone
  have hempty : ∀ (u : ℕ) view, r.shared.views[u]? = some view → view.buffer = [] := by
    intro u view hview
    by_contra hne
    have hsame : refill S cfg.readAhead r.shared u = r.shared := by
      simp only [refill, hview, List.isEmpty_iff, hne, if_false]
    have hbuf := (take_none (hdry u (List.getElem?_eq_some_iff.mp hview).1)).2 view
    rw [hsame] at hbuf
    exact hne (hbuf hview)
  have hread : ∀ u < r.shared.views.length,
      refill S cfg.readAhead r.shared u = read S cfg.readAhead r.shared := by
    intro u hu
    have hview := List.getElem?_eq_getElem hu
    simp only [refill, hview, hempty u _ hview, List.isEmpty_nil, if_true]
  have hnone : ∀ view ∈ (refill S cfg.readAhead r.shared v).views, view.buffer = [] := by
    intro view hview
    obtain ⟨u, hu⟩ := List.mem_iff_getElem?.mp hview
    have hlt : u < r.shared.views.length := by
      rw [← refill_length S cfg.readAhead r.shared v]
      exact (List.getElem?_eq_some_iff.mp hu).1
    by_cases hv : v < r.shared.views.length
    · rw [hread v hv, ← hread u hlt] at hu
      exact (take_none (hdry u hlt)).2 view hu
    · have hsame : refill S cfg.readAhead r.shared v = r.shared := by
        simp only [refill, List.getElem?_eq_none (Nat.le_of_not_lt hv)]
      rw [hsame] at hu
      exact hempty u view hu
  unfold full
  rw [List.any_eq_false]
  intro view hview
  rw [hnone view hview]
  have hpos := cfg.readAhead_pos
  simp only [List.length_nil, Bool.and_eq_true, decide_eq_true_eq, not_and]
  omega

/-- At the head a worker has delivered what is in its segment from `d` above the
start position on. -/
theorem AtHead.delivered (hS : S.Lawful) (h : RunInv S cfg p d log r) (hhead : AtHead S cfg r)
    {worker : Worker K E} (hworker : worker ∈ r.workers) :
    worker.delivered = asked log (p + d) (cfg.accepts worker.segment) := by
  obtain ⟨w, hw⟩ := List.mem_iff_getElem?.mp hworker
  obtain ⟨hbatch, v, hv, hnone⟩ := hhead.2 worker hworker
  obtain ⟨view, hview, haccepts, hhanded⟩ := (h.workers w worker hw).opened v hv
  have hdrained := h.shared.drained hS hview hhead.1 hnone (AtHead.not_full h hhead v)
  rw [hhanded, hbatch, List.append_nil, h.log, haccepts] at hdrained
  exact hdrained

/-! ## The head is reached -/

/-- What a worker has still to do: open its stream, take and commit. -/
def Worker.todo (cfg : Config E) (p d : ℕ) (log : Log K E) (worker : Worker K E) : ℕ :=
  (if worker.stream.isNone then 2 else 0) + (if worker.batch.isEmpty then 0 else 1) +
    2 * ((asked log (p + d) (cfg.accepts worker.segment)).length -
      (worker.delivered.length + worker.batch.length))

def Run.todo (cfg : Config E) (p d : ℕ) (log : Log K E) (r : Run K E C) : ℕ :=
  (r.workers.map (Worker.todo cfg p d log)).sum + if arrived r.shared then 0 else 1

theorem sum_set_lt {α : Type} {f : α → ℕ} {l : List α} {i k : ℕ} {a b : α} (h : l[i]? = some a)
    (hlt : f b + k ≤ f a) : ((l.set i b).map f).sum + k ≤ (l.map f).sum := by
  induction l generalizing i with
  | nil => cases h
  | cons x l ih =>
      cases i with
      | zero =>
          cases h
          simp only [List.set_cons_zero, List.map_cons, List.sum_cons]
          omega
      | succ i =>
          have hrest := ih h
          simp only [List.set_cons_succ, List.map_cons, List.sum_cons]
          omega

/-- What a worker has taken is no more than it asked for. -/
theorem RunInv.taken_le (h : RunInv S cfg p d log r) {w : ℕ} {worker : Worker K E}
    (hw : r.workers[w]? = some worker) :
    worker.delivered.length + worker.batch.length ≤
      (asked log (p + d) (cfg.accepts worker.segment)).length := by
  have hok := h.workers w worker hw
  cases hstream : worker.stream with
  | none =>
      obtain ⟨-, -, hbatch, hdelivered⟩ := hok.unopened hstream
      rw [hbatch, hdelivered]
      exact Nat.zero_le _
  | some v =>
      obtain ⟨view, hview, haccepts, hhanded⟩ := hok.opened v hstream
      have hle := (h.shared.handed_prefix (List.mem_of_getElem? hview)).length_le
      rw [hhanded, List.length_append, h.log, haccepts] at hle
      exact hle

theorem advance_open {w : ℕ} {worker : Worker K E}
    (hw : r.workers[w]? = some worker) (hnone : worker.stream = none) :
    ∃ r', ResetReplay.step S cfg r (.openStream w) = some r' ∧
      r'.todo cfg p d log < r.todo cfg p d log := by
  have hstep : ResetReplay.step S cfg r (.openStream w) = some
      ⟨openView S r.shared worker.token.position (some worker.token) (cfg.accepts worker.segment),
        r.workers.set w { worker with stream := some r.shared.views.length }⟩ := by
    simp only [ResetReplay.step, hw, bind, Option.bind_some, hnone, Option.isSome_none,
      Bool.false_eq_true, if_false]
  refine ⟨_, hstep, ?_⟩
  have hsum := sum_set_lt (f := Worker.todo cfg p d log) (k := 2)
    (b := { worker with stream := some r.shared.views.length }) hw (by
      simp only [Worker.todo, hnone, Option.isNone_none, Option.isNone_some, if_true,
        Bool.false_eq_true, if_false]
      omega)
  unfold Run.todo
  simp only
  split_ifs <;> omega

theorem RunInv.advance_commit (h : RunInv S cfg p d log r)
    (hplain : ∀ e ∈ log, e.past.isMergedToken = false) {w : ℕ} {worker : Worker K E}
    (hw : r.workers[w]? = some worker) (hbatch : worker.batch ≠ []) :
    ∃ r', ResetReplay.step S cfg r (.commit w) = some r' ∧
      r'.todo cfg p d log < r.todo cfg p d log := by
  have hempty : worker.batch.isEmpty = false := by
    rw [Bool.eq_false_iff, ne_eq, List.isEmpty_iff]
    exact hbatch
  have hstep : ResetReplay.step S cfg r (.commit w) =
      some { r with workers := r.workers.set w (worker.commit cfg) } := by
    simp only [ResetReplay.step, hw, bind, Option.bind_some, hempty, Bool.false_eq_true, if_false]
  refine ⟨_, hstep, ?_⟩
  -- Before and after, its view has handed out the same events.
  have hlength : (worker.commit cfg).delivered.length =
      worker.delivered.length + worker.batch.length := by
    have hok := h.workers w worker hw
    have hok' := (h.commit hplain hw).workers w (worker.commit cfg)
      (List.getElem?_set_self (List.getElem?_eq_some_iff.mp hw).1)
    cases hstream : worker.stream with
    | none => exact absurd (hok.unopened hstream).2.2.1 hbatch
    | some v =>
        obtain ⟨view, hview, -, hhanded⟩ := hok.opened v hstream
        obtain ⟨view', hview', -, hhanded'⟩ := hok'.opened v hstream
        cases hview.symm.trans hview'
        have hsame := congrArg List.length (hhanded.symm.trans hhanded')
        simp only [List.length_append] at hsame
        simp only [Worker.commit, List.length_nil] at hsame ⊢
        omega
  have hsum := sum_set_lt (f := Worker.todo cfg p d log) (k := 1) (b := worker.commit cfg) hw (by
    have hmoved : (worker.commit cfg).todo cfg p d log =
        (if worker.stream.isNone then 2 else 0) + 0 +
          2 * ((asked log (p + d) (cfg.accepts worker.segment)).length -
            ((worker.commit cfg).delivered.length + 0)) := rfl
    rw [hmoved, hlength]
    simp only [Worker.todo, hempty, Bool.false_eq_true, if_false]
    omega)
  unfold Run.todo
  simp only
  omega

theorem RunInv.advance_arrive (h : RunInv S cfg p d log r) (hnot : arrived r.shared = false) :
    ∃ a r', ResetReplay.step S cfg r a = some r' ∧ r'.todo cfg p d log < r.todo cfg p d log := by
  cases hi : r.shared.inner with
  | none =>
      rw [arrived, hi] at hnot
      cases hnot
  | some i =>
      obtain ⟨-, hseen, -⟩ := h.shared.cursor i hi
      have hstep : ResetReplay.step S cfg r (.arrive r.shared.log.length) = some
          { r with shared := { r.shared with
            inner := some { i with seen := r.shared.log.length } } } := by
        simp only [ResetReplay.step, SharedStream.step, hi, hseen, le_refl, and_self, if_true,
          Option.map_some]
      refine ⟨_, _, hstep, ?_⟩
      have hdone : arrived { r.shared with inner := some { i with seen := r.shared.log.length } } =
          true := by
        simp [arrived]
      simp only [Run.todo, hdone, hnot, if_true, Bool.false_eq_true, if_false]
      omega

theorem RunInv.advance_next (h : RunInv S cfg p d log r) (harrived : arrived r.shared = true)
    {w v : ℕ} {worker : Worker K E} (hw : r.workers[w]? = some worker)
    (hbatch : worker.batch = []) (hv : worker.stream = some v) {e : SequencedEvent K E}
    (he : (take S cfg.readAhead r.shared v).1 = some e) :
    ∃ r', ResetReplay.step S cfg r (.next w) = some r' ∧
      r'.todo cfg p d log < r.todo cfg p d log := by
  have hstep : ResetReplay.step S cfg r (.next w) = some
      ⟨(take S cfg.readAhead r.shared v).2, r.workers.set w { worker with
        batch := worker.batch ++ (take S cfg.readAhead r.shared v).1.toList }⟩ := by
    simp only [ResetReplay.step, hw, bind, Option.bind_some, hv]
  refine ⟨_, hstep, ?_⟩
  have hnext := h.next hw hv
  rw [he, hbatch, Option.toList_some, List.nil_append] at hnext ⊢
  have hle := hnext.taken_le (List.getElem?_set_self (List.getElem?_eq_some_iff.mp hw).1)
  simp only [List.length_singleton] at hle
  have hstill : arrived (take S cfg.readAhead r.shared v).2 = true := by
    obtain ⟨view, hview, -⟩ := (h.workers w worker hw).opened v hv
    obtain ⟨hlog, -, hseen, -⟩ := refill_frame S cfg.readAhead r.shared v hview
    rw [arrived_iff] at harrived ⊢
    intro i hi
    obtain ⟨j, hj, hij⟩ := hseen i hi
    calc i.seen = j.seen := hij
      _ = r.shared.log.length := harrived j hj
      _ = (take S cfg.readAhead r.shared v).2.log.length := (congrArg List.length hlog).symm
  have hsum :=
    sum_set_lt (f := Worker.todo cfg p d log) (k := 1) (b := { worker with batch := [e] })
    hw (by
      simp only [Worker.todo, hbatch, List.isEmpty_cons, List.isEmpty_nil, List.length_singleton,
        List.length_nil, Bool.false_eq_true, if_false, if_true]
      omega)
  simp only [Run.todo, hstill, harrived, if_true]
  omega

/-- Short of the head there is a step that leaves less to do. -/
theorem RunInv.advance (h : RunInv S cfg p d log r)
    (hplain : ∀ e ∈ log, e.past.isMergedToken = false) (hnot : ¬ AtHead S cfg r) :
    ∃ a r', ResetReplay.step S cfg r a = some r' ∧ r'.todo cfg p d log < r.todo cfg p d log := by
  by_cases hopen : ∃ worker ∈ r.workers, worker.stream = none
  · obtain ⟨worker, hworker, hnone⟩ := hopen
    obtain ⟨w, hw⟩ := List.mem_iff_getElem?.mp hworker
    exact ⟨_, advance_open hw hnone⟩
  by_cases hbatch : ∃ worker ∈ r.workers, worker.batch ≠ []
  · obtain ⟨worker, hworker, hne⟩ := hbatch
    obtain ⟨w, hw⟩ := List.mem_iff_getElem?.mp hworker
    exact ⟨_, h.advance_commit hplain hw hne⟩
  cases harrived : arrived r.shared with
  | false => exact h.advance_arrive harrived
  | true =>
      -- All streams are open and all batches committed: some stream has more.
      by_contra hstuck
      apply hnot
      refine ⟨arrived_iff.mp harrived, ?_⟩
      · intro worker hworker
        have hempty : worker.batch = [] := by
          by_contra hne
          exact hbatch ⟨worker, hworker, hne⟩
        obtain ⟨v, hv⟩ : ∃ v, worker.stream = some v := by
          apply Option.ne_none_iff_exists'.mp
          intro hnone
          exact hopen ⟨worker, hworker, hnone⟩
        refine ⟨hempty, v, hv, ?_⟩
        obtain ⟨w, hw⟩ := List.mem_iff_getElem?.mp hworker
        cases he : (take S cfg.readAhead r.shared v).1 with
        | none => rfl
        | some e => exact absurd ⟨_, h.advance_next harrived hw hempty hv he⟩ hstuck

/-- From anywhere in a run its head can be reached. -/
theorem RunInv.reaches_head (h : RunInv S cfg p d log r)
    (hplain : ∀ e ∈ log, e.past.isMergedToken = false) :
    ∃ t, Reach (ResetReplay.step S cfg) always r t ∧ RunInv S cfg p d log t ∧ AtHead S cfg t := by
  induction htodo : r.todo cfg p d log using Nat.strong_induction_on generalizing r with
  | _ n ih =>
      by_cases hhead : AtHead S cfg r
      · exact ⟨r, .start, h, hhead⟩
      · obtain ⟨a, r', hstep, hless⟩ := h.advance hplain hhead
        obtain ⟨t, hreach, hinv, hdone⟩ := ih _ (htodo ▸ hless) (h.step hplain hstep) rfl
        have hone : Reach (ResetReplay.step S cfg) always r r' :=
          .next .start trivial hstep
        exact ⟨t, hone.trans hreach, hinv, hdone⟩

end Invariant

/-! ## The same events on both stores -/

/-- An event with its position and the key of the transaction that committed it. -/
structure CommittedEvent (E : Type) where
  position : ℕ
  gapKey : ℕ
  event : E

/-- What `inMemoryEventStore` streams. -/
def inMemoryLog (events : List (CommittedEvent E)) : Log ℕ E :=
  events.map fun c => ⟨c.position, c.event, none⟩

/-- What `postgresEventStore` streams. -/
def postgresLog (events : List (CommittedEvent E)) : Log ℕ E :=
  events.map fun c => ⟨c.position, c.event, some (gapAware c.position c.gapKey)⟩

/-- The positions of the handled events of a segment at or above `p`. -/
def handledFrom (cfg : Config E) (events : List (CommittedEvent E)) (p : ℕ) (segment : Segment) :
    List ℕ :=
  (events.filter fun c => decide (p ≤ c.position) &&
    (cfg.handled c.event && inSegment segment (cfg.hashOf c.event))).map CommittedEvent.position

/-- However the processor runs after a reset to `p`, on either store, at the head
every segment has delivered its handled events at or above `p`, in order. -/
def ReplaysAlike (cfg : Config E) (events : List (CommittedEvent E))
    (stored stored' : Segment → Option (TrackingToken ℕ)) (p : ℕ) : Prop :=
  ∀ (mem : Run ℕ E ℕ) (pg : Run ℕ E (Option ℕ × ℕ)),
    Reach (step denseStore cfg) always (resetTokens cfg (inMemoryLog events) stored p) mem →
    AtHead denseStore cfg mem →
    Reach (step commitStore cfg) always (resetTokens cfg (postgresLog events) stored' p) pg →
    AtHead commitStore cfg pg →
    ∀ (w : ℕ) a b, mem.workers[w]? = some a → pg.workers[w]? = some b →
      a.delivered.map SequencedEvent.sequence = handledFrom cfg events p a.segment ∧
        b.delivered.map SequencedEvent.sequence = handledFrom cfg events p a.segment

section Stores
variable {cfg : Config E} {events : List (CommittedEvent E)}

theorem asked_inMemoryLog (n : ℕ) (segment : Segment) :
    (asked (inMemoryLog events) n (cfg.accepts segment)).map SequencedEvent.sequence =
      handledFrom cfg events n segment := by
  simp only [asked, inMemoryLog, handledFrom, List.filter_map, List.map_map]
  rfl

theorem asked_postgresLog (n : ℕ) (segment : Segment) :
    (asked (postgresLog events) n (cfg.accepts segment)).map SequencedEvent.sequence =
      handledFrom cfg events n segment := by
  simp only [asked, postgresLog, handledFrom, List.filter_map, List.map_map]
  rfl

theorem inMemoryLog_reads (hpos : Ordered CommittedEvent.position events) :
    ReadsInOrder denseStore 0 (inMemoryLog events) := by
  apply denseStore_readsInOrder
  apply List.pairwise_map.mpr
  exact hpos.imp fun hlt => Nat.succ_lt_succ hlt

theorem postgresLog_reads (hpos : Ordered CommittedEvent.position events)
    (hkeys : Ordered CommittedEvent.gapKey events) :
    ReadsInOrder commitStore 1 (postgresLog events) := by
  apply commitStore_readsInOrder
  · apply List.pairwise_map.mpr
    exact hpos.imp fun hlt => Nat.succ_lt_succ hlt
  · apply List.pairwise_map.mpr
    refine hkeys.imp ?_
    intro a b hlt
    exact Prod.Lex.lt_iff.mpr (Or.inl hlt)
  · intro e he
    obtain ⟨c, -, rfl⟩ := List.mem_map.mp he
    exact ⟨c.gapKey, rfl⟩

theorem inMemoryLog_unmerged : ∀ e ∈ inMemoryLog events, e.past.isMergedToken = false := by
  intro e he
  obtain ⟨c, -, rfl⟩ := List.mem_map.mp he
  rfl

theorem postgresLog_unmerged : ∀ e ∈ postgresLog events, e.past.isMergedToken = false := by
  intro e he
  obtain ⟨c, -, rfl⟩ := List.mem_map.mp he
  rfl

/-- A worker of the run is there for the segment of its place. -/
theorem RunInv.segment_of {C : Type} {S : Store ℕ E C} {p d : ℕ} {log : Log ℕ E} {r : Run ℕ E C}
    (h : RunInv S cfg p d log r) {w : ℕ} {segment : Segment}
    (hw : cfg.segments[w]? = some segment) :
    ∃ worker, r.workers[w]? = some worker ∧ worker.segment = segment := by
  rw [← h.segments, List.getElem?_map, Option.map_eq_some_iff] at hw
  exact hw

/-- A reset replays alike on both stores exactly when no handled event is at the
start position: Postgres starts after it. -/
theorem reset_replays_alike_iff (hcut : Partition cfg.segments)
    (hpos : Ordered CommittedEvent.position events) (hkeys : Ordered CommittedEvent.gapKey events)
    (stored stored' : Segment → Option (TrackingToken ℕ)) (p : ℕ) :
    ReplaysAlike cfg events stored stored' p ↔
      ∀ c ∈ events, cfg.handled c.event = true → c.position ≠ p := by
  have hmem := runInv_resetTokens cfg p (inMemoryLog_reads hpos) stored
  have hpg := runInv_resetTokens cfg p (postgresLog_reads hpos hkeys) stored'
  constructor
  · intro halike c hc hhandled hat
    obtain ⟨segment, hsegment, hhas⟩ := hcut.covers (cfg.hashOf c.event)
    have hin := (inSegment_iff (hcut.valid segment hsegment) (cfg.hash_lt c.event)).mpr hhas
    obtain ⟨w, hw⟩ := List.mem_iff_getElem?.mp hsegment
    obtain ⟨mem, hmreach, hminv, hmhead⟩ := hmem.reaches_head inMemoryLog_unmerged
    obtain ⟨pg, hpreach, hpinv, hphead⟩ := hpg.reaches_head postgresLog_unmerged
    obtain ⟨a, ha, hasegment⟩ := hminv.segment_of hw
    obtain ⟨b, hb, hbsegment⟩ := hpinv.segment_of hw
    have hboth := (halike mem pg hmreach hmhead hpreach hphead w a b ha hb).2
    rw [AtHead.delivered commitStore_lawful hpinv hphead (List.mem_of_getElem? hb),
      asked_postgresLog, hbsegment, hasegment] at hboth
    -- The event at `p` is on one side only.
    have hleft : p ∈ handledFrom cfg events p segment := by
      refine List.mem_map.mpr ⟨c, List.mem_filter.mpr ⟨hc, ?_⟩, hat⟩
      simp only [hhandled, hin, hat, le_refl, decide_true, Bool.and_self]
    rw [← hboth] at hleft
    obtain ⟨x, hx, hxp⟩ := List.mem_map.mp hleft
    have hkept := (List.mem_filter.mp hx).2
    rw [Bool.and_eq_true, decide_eq_true_eq] at hkept
    omega
  · intro hnone mem pg hmreach hmhead hpreach hphead w a b ha hb
    have hminv := hmreach.invariant hmem fun _ _ _ _ hi _ hs => hi.step inMemoryLog_unmerged hs
    have hpinv := hpreach.invariant hpg fun _ _ _ _ hi _ hs => hi.step postgresLog_unmerged hs
    have hsegment : b.segment = a.segment := by
      have hsame := hminv.segments.trans hpinv.segments.symm
      have hat := congrArg (·[w]?) hsame
      simp only [List.getElem?_map, ha, hb, Option.map_some, Option.some.injEq] at hat
      exact hat.symm
    rw [AtHead.delivered denseStore_lawful hminv hmhead (List.mem_of_getElem? ha),
      AtHead.delivered commitStore_lawful hpinv hphead (List.mem_of_getElem? hb),
      asked_inMemoryLog, asked_postgresLog, hsegment]
    refine ⟨rfl, ?_⟩
    unfold handledFrom
    congr 1
    apply List.filter_congr
    intro c hc
    cases hhandled : cfg.handled c.event with
    | false => simp only [Bool.false_and, Bool.and_false]
    | true =>
        have hne := hnone c hc hhandled
        have hiff : p + 1 ≤ c.position ↔ p ≤ c.position := by omega
        rw [decide_eq_decide.mpr hiff]

end Stores

/-- One segment, every number its own hash, all of them handled. -/
def wholeLog : Config ℕ where
  handled _ := true
  hashOf n := n % 2 ^ 32
  hash_lt n := Nat.mod_lt n (by decide)
  segments := [⟨0, 0⟩]
  readAhead := 4
  readAhead_pos := by decide

theorem wholeLog_partition : Partition wholeLog.segments := partition_level (Nat.zero_le 31)

def threeEvents : List (CommittedEvent ℕ) := [⟨1, 3, 10⟩, ⟨2, 4, 20⟩, ⟨3, 5, 30⟩]

/-- A reset to position 0, where there is no event. -/
theorem reset_replays_alike_iff_fromZero :
    (∀ c ∈ threeEvents, wholeLog.handled c.event = true → c.position ≠ 0) ∧
      ReplaysAlike wholeLog threeEvents (fun _ => some (globalSequence 4))
        (fun _ => some (gapAware 3 5)) 0 := by
  have hnone : ∀ c ∈ threeEvents, wholeLog.handled c.event = true → c.position ≠ 0 := by decide
  refine ⟨hnone, (reset_replays_alike_iff wholeLog_partition ?_ ?_ _ _ 0).mpr hnone⟩
  · simp [Ordered, threeEvents]
  · simp [Ordered, threeEvents]

/-- A worker that takes two events at most, and commits. -/
def takesTwo : List (Action ℕ) := [.openStream 0, .arrive 3, .next 0, .next 0, .commit 0]

/-- After a reset to position 2, in memory the event there is delivered again; on
Postgres it is not. -/
theorem reset_skips_start_event :
    ∃ (mem : Run ℕ ℕ ℕ) (pg : Run ℕ ℕ (Option ℕ × ℕ)),
      Reach (step denseStore wholeLog) always
        (resetTokens wholeLog (inMemoryLog threeEvents) (fun _ => some (globalSequence 4)) 2) mem ∧
      Reach (step commitStore wholeLog) always
        (resetTokens wholeLog (postgresLog threeEvents) (fun _ => some (gapAware 3 5)) 2) pg ∧
      mem.workers.map (fun w => w.delivered.map SequencedEvent.sequence) = [[2, 3]] ∧
      pg.workers.map (fun w => w.delivered.map SequencedEvent.sequence) = [[3]] ∧
      ¬ ReplaysAlike wholeLog threeEvents (fun _ => some (globalSequence 4))
        (fun _ => some (gapAware 3 5)) 2 := by
  have hmem := reach_exec_get (show (exec (step denseStore wholeLog)
    (resetTokens wholeLog (inMemoryLog threeEvents) (fun _ => some (globalSequence 4)) 2)
    takesTwo).isSome = true by decide +kernel)
  have hpg := reach_exec_get (show (exec (step commitStore wholeLog)
    (resetTokens wholeLog (postgresLog threeEvents) (fun _ => some (gapAware 3 5)) 2)
    takesTwo).isSome = true by decide +kernel)
  refine ⟨_, _, hmem, hpg, by decide +kernel, by decide +kernel, ?_⟩
  intro halike
  have ha : (((exec (step denseStore wholeLog)
      (resetTokens wholeLog (inMemoryLog threeEvents) (fun _ => some (globalSequence 4)) 2)
      takesTwo).get (by decide +kernel)).workers[0]?).map Worker.segment = some ⟨0, 0⟩ := by
    decide +kernel
  have hb : (((exec (step commitStore wholeLog)
      (resetTokens wholeLog (postgresLog threeEvents) (fun _ => some (gapAware 3 5)) 2)
      takesTwo).get (by decide +kernel)).workers[0]?).map
        (fun w => w.delivered.map SequencedEvent.sequence) = some [3] := by
    decide +kernel
  obtain ⟨a, ha, hsegment⟩ := Option.map_eq_some_iff.mp ha
  obtain ⟨b, hb, hdelivered⟩ := Option.map_eq_some_iff.mp hb
  have hboth := (halike _ _ hmem (by decide +kernel) hpg (by decide +kernel) 0 a b ha hb).2
  rw [hdelivered, hsegment] at hboth
  exact absurd hboth (by decide +kernel)

end Kronos.Processing.ResetReplay
