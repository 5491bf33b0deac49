import Kronos.Processing.Worker

/-!
# A segment worker handles every event exactly once

Over a log in position order the worker's token is a bare position. Three
positions move separately: the stored token, the token in memory and the place
its view has been read to. `WorkerInv` says how they lie: what was delivered is
what the segment accepts below the stored token, nothing it accepts lies
between the stored token and the one in memory, and the view has handed out
what it accepts up to the end of the batch in flight.
-/
namespace Kronos.Processing.SegmentWorker
open Kronos.Lib.Transition Kronos.Lib.Window SharedStream TrackingToken

variable {K E : Type}

/-- Reading through view `v` took the shared stream from `s` to `t` and handed
the view `given`. -/
structure Given (readAhead : ℕ) (s t : SharedStream.State K E ℕ) (v : ℕ) (view : View K E)
    (given : List (SequencedEvent K E)) : Prop where
  inv : DenseInv readAhead t
  log : t.log = s.log
  head : t.head = s.head
  holder : ∃ after, t.views[v]? = some after ∧
    SameHolder { view with handed := view.handed ++ given } after

theorem Given.trans {readAhead : ℕ} {s t u : SharedStream.State K E ℕ} {v : ℕ}
    {view mid : View K E} {first second : List (SequencedEvent K E)}
    (h : Given readAhead s t v view first) (hmid : t.views[v]? = some mid)
    (k : Given readAhead t u v mid second) : Given readAhead s u v view (first ++ second) := by
  obtain ⟨w, hw, hsame⟩ := h.holder
  cases hmid.symm.trans hw
  obtain ⟨x, hx, hsame'⟩ := k.holder
  refine ⟨k.inv, k.log.trans h.log, k.head.trans h.head, x, hx, ?_⟩
  refine ⟨hsame'.member.trans hsame.member, hsame'.opened.trans hsame.opened,
    hsame'.openedToken.trans hsame.openedToken, hsame'.accepts.trans hsame.accepts, ?_⟩
  have hhanded := hsame'.handed
  rw [hsame.handed] at hhanded
  simpa using hhanded

/-- View `v` is open for the worker and has handed out what it accepts below `position`. -/
def Reading (accepts : SequencedEvent K E → Bool) (s : SharedStream.State K E ℕ)
    (v position : ℕ) : Prop :=
  ∃ view, s.views[v]? = some view ∧ view.member = true ∧ view.accepts = accepts ∧
    view.opened ≤ position ∧ view.handed = window pastPosition accepts view.opened position s.log

/-- What a worker takes are the accepted events after its position, up to the last one taken. -/
theorem Reading.taken {readAhead : ℕ} {accepts : SequencedEvent K E → Bool}
    {s t : SharedStream.State K E ℕ} {v position : ℕ} {view : View K E}
    (hord : Ordered pastPosition s.log)
    (hr : Reading accepts s v position) (hv : s.views[v]? = some view)
    {batch : List (SequencedEvent K E)} {last : SequencedEvent K E}
    (h : Given readAhead s t v view (batch ++ [last])) :
    position ≤ pastPosition last ∧
      batch ++ [last] = window pastPosition accepts position (pastPosition last) s.log ∧
      last ∈ s.log ∧ Reading accepts t v (pastPosition last) := by
  obtain ⟨w, hw, hm, ha, hopen, hhanded⟩ := hr
  cases hv.symm.trans hw
  obtain ⟨after, hafter, hsame⟩ := h.holder
  have hok := h.inv.views after (List.mem_of_getElem? hafter)
  have hpre := hok.handed_prefix h.inv.ordered
  rw [hsame.handed, asked_eq_beyond, hsame.opened, hsame.accepts, h.log] at hpre
  simp only [ha, ← List.append_assoc] at hpre
  have htaken := taken_eq_window hord hpre
  have hlast : last ∈ window pastPosition accepts view.opened (pastPosition last) s.log := by
    rw [← htaken]
    simp
  obtain ⟨hmem, hlo, -, hp⟩ := mem_window.mp hlast
  -- the last event taken is not one of those handed out before
  have hle : position ≤ pastPosition last := by
    by_contra hlt
    have hold : last ∈ view.handed := by
      rw [hhanded, mem_window]
      exact ⟨hmem, hlo, (Nat.lt_of_not_le hlt).le, hp⟩
    have hnodup := Ordered.nodup (hord.window accepts view.opened (pastPosition last))
    rw [← htaken] at hnodup
    have hdisj := (List.nodup_append.mp hnodup).2.2
    exact hdisj last (List.mem_append_left _ hold) last (List.mem_singleton_self _) rfl
  refine ⟨hle, ?_, hmem, after, hafter, hsame.member.trans hm, hsame.accepts.trans ha, ?_, ?_⟩
  · have hsplit := window_split (p := accepts) hord hopen hle
    rw [← htaken, ← hhanded, List.append_assoc] at hsplit
    exact (List.append_cancel_left hsplit).symm
  · rw [hsame.opened]
    exact hopen.trans hle
  · rw [hsame.handed, hsame.opened, h.log, ← htaken, List.append_assoc]

/-- Windows below the head are settled. -/
theorem window_settled {accepts : SequencedEvent K E → Bool} {log new : Log K E}
    {head lo hi : ℕ} (hhi : hi ≤ head) (hnew : ∀ e ∈ new, head ≤ e.sequence) :
    window pastPosition accepts lo hi (log ++ new) = window pastPosition accepts lo hi log := by
  apply window_append
  intro e he _ _
  exact Nat.lt_succ_of_le (hhi.trans (hnew e he))

/-! ## The invariant -/

/-- How the stored position and the one a worker goes on from lie on the log. -/
structure Tracked (accepts : SequencedEvent K E → Bool) (s : SharedStream.State K E ℕ)
    (stored token : ℕ) (delivered : List (SequencedEvent K E)) : Prop where
  le : stored ≤ token
  head : token ≤ s.head
  quiet : window pastPosition accepts stored token s.log = []
  delivered : delivered = window pastPosition accepts 0 stored s.log

section Tracked
variable {accepts : SequencedEvent K E → Bool} {s t : SharedStream.State K E ℕ}
  {stored token next : ℕ} {delivered : List (SequencedEvent K E)}

/-- Writing the token moves the stored one over nothing. -/
theorem Tracked.write (h : Tracked accepts s stored token delivered)
    (hord : Ordered pastPosition s.log) : Tracked accepts s token token delivered := by
  refine ⟨le_rfl, h.head, window_self _, ?_⟩
  rw [h.delivered, ← window_split hord (Nat.zero_le _) h.le, h.quiet, List.append_nil]

theorem Tracked.move (h : Tracked accepts s stored token delivered)
    (hord : Ordered pastPosition s.log) (hle : token ≤ next) (hhead : next ≤ s.head)
    (hquiet : window pastPosition accepts token next s.log = []) :
    Tracked accepts s stored next delivered := by
  refine ⟨h.le.trans hle, hhead, ?_, h.delivered⟩
  rw [← window_split hord h.le hle, h.quiet, hquiet, List.append_nil]

theorem Tracked.deliver (h : Tracked accepts s stored token delivered)
    (hord : Ordered pastPosition s.log) (hle : token ≤ next) (hhead : next ≤ s.head) :
    Tracked accepts s next next (delivered ++ window pastPosition accepts token next s.log) := by
  refine ⟨le_rfl, hhead, window_self _, ?_⟩
  rw [(h.write hord).delivered, window_split hord (Nat.zero_le _) hle]

theorem Tracked.grow (h : Tracked accepts s stored token delivered) (hhead : s.head ≤ t.head)
    {new : Log K E} (hlog : t.log = s.log ++ new) (hnew : ∀ e ∈ new, s.head ≤ e.sequence) :
    Tracked accepts t stored token delivered := by
  refine ⟨h.le, h.head.trans hhead, ?_, ?_⟩
  · rw [hlog, window_settled h.head hnew]
    exact h.quiet
  · rw [hlog, window_settled (h.le.trans h.head) hnew]
    exact h.delivered

theorem Reading.grow {v position : ℕ} (h : Reading accepts s v position) (hhead : position ≤ s.head)
    {new : Log K E} (hlog : t.log = s.log ++ new) (hnew : ∀ e ∈ new, s.head ≤ e.sequence)
    (hholder : ∀ view, s.views[v]? = some view →
      ∃ after, t.views[v]? = some after ∧ SameHolder view after) :
        Reading accepts t v position := by
  obtain ⟨view, hv, hm, ha, hopen, hhanded⟩ := h
  obtain ⟨after, hafter, hsame⟩ := hholder view hv
  refine ⟨after, hafter, hsame.member.trans hm, hsame.accepts.trans ha, ?_, ?_⟩
  · rw [hsame.opened]
    exact hopen
  · rw [hsame.handed, hsame.opened, hlog, window_settled hhead hnew]
    exact hhanded

/-- A stretch with nothing in it may be passed over. -/
theorem Reading.move {v : ℕ} (h : Reading accepts s v token) (hord : Ordered pastPosition s.log)
    (hle : token ≤ next) (hquiet : window pastPosition accepts token next s.log = []) :
    Reading accepts s v next := by
  obtain ⟨view, hv, hm, ha, hopen, hhanded⟩ := h
  refine ⟨view, hv, hm, ha, hopen.trans hle, ?_⟩
  rw [hhanded, ← window_split hord hopen hle, hquiet, List.append_nil]

end Tracked

/-- The token the worker goes on from. -/
def Phase.goesOn (token : TrackingToken K) : Phase K E → TrackingToken K
  | .committed endToken => endToken
  | _ => token

/-- Where the worker's view has been read to. -/
def Phase.readTo (token : TrackingToken K) : Phase K E → TrackingToken K
  | .batch _ endToken => endToken
  | .committed endToken => endToken
  | _ => token

/-- The position of the stored token. -/
def System.storedAt (sys : System K E) : ℕ := (sys.stored.getD (globalSequence 0)).position

structure WorkerInv (cfg : Config E) (sys : System K E) : Prop where
  shared : DenseInv cfg.replayBatchSize sys.shared
  plain : ∃ n, sys.worker.token = globalSequence n
  plainStored : ∃ n, sys.stored.getD (globalSequence 0) = globalSequence n
  tracked : Tracked cfg.accepts sys.shared sys.storedAt
    (sys.worker.phase.goesOn sys.worker.token).position sys.delivered
  batch : ∀ fresh endToken, sys.worker.phase = .batch fresh endToken →
    ∃ n, endToken = globalSequence n ∧ sys.worker.token.position ≤ n ∧ n ≤ sys.shared.head ∧
      fresh = window pastPosition cfg.accepts sys.worker.token.position n sys.shared.log
  committed : ∀ endToken, sys.worker.phase = .committed endToken →
    ∃ n, endToken = globalSequence n
  reading : ∀ v, sys.worker.stream = some v →
    Reading cfg.accepts sys.shared v (sys.worker.phase.readTo sys.worker.token).position
  closed : sys.worker.active = false → sys.worker.stream = none
  renewing : ∀ token, sys.worker.renewing = some token →
    token = sys.worker.token ∧ (sys.worker.phase = .idle ∨ sys.worker.phase = .waiting)
  halted : sys.worker.stopping ≠ .running → sys.worker.active = false
  stopWrites : sys.worker.stopping = .writing → sys.worker.phase = .idle

/-- The invariant of a worker that has no batch in its hands. -/
def Core (cfg : Config E) (sys : System K E) : Prop := WorkerInv cfg (sys.setPhase .idle)

end Kronos.Processing.SegmentWorker
