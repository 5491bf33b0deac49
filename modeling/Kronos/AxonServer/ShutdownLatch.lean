import Mathlib.Algebra.Order.Ring.Int
import Mathlib.Data.List.Nodup
import Kronos.Lib.Slots
import Kronos.Lib.Transition

/-!
# The shutdown latch

What is in flight registers with the latch and tells it when it ends. Once the shutdown
is initiated nothing registers any more, and a promise says when all that had is over.

The handles and the callbacks are numbered as they come. The callbacks stand in a `Set` of
the code, so they are distinct functions, and none calls back into the latch. Kept beside
the latch are the callbacks that ran and the promises of `initiateShutdown`; the calls
that share one promise of the code settle together. What a callback throws is caught and
left out.
-/
namespace Kronos.AxonServer.ShutdownLatch
open Kronos.Lib.Slots Kronos.Lib.Transition

structure Latch where
  callbacks : List ℕ
  activeCount : ℤ
  shuttingDown : Bool
  /-- How many callbacks were given. -/
  given : ℕ
  ran : List ℕ
  /-- Whether each promise of `initiateShutdown` is resolved. -/
  drains : List Bool
  deriving DecidableEq, Repr

/-- `ActivityHandle`, with the variable of its closure. -/
structure Handle where
  ended : Bool
  deriving DecidableEq, Repr

def shutdownLatch : Latch := ⟨[], 0, false, 0, [], []⟩

namespace Latch
variable (l : Latch)

/-- The pending promise is resolved: `drainResolve`. -/
def resolve : Latch := { l with drains := l.drains.map fun _ => true }

def checkDrained : Latch := if l.shuttingDown && l.activeCount == 0 then l.resolve else l

def onShutdown : Latch :=
  if l.shuttingDown then { l with given := l.given + 1, ran := l.ran ++ [l.given] }
  else { l with given := l.given + 1, callbacks := l.callbacks ++ [l.given] }

/-- What `onShutdown` returned for the callback is called. -/
def remove (callback : ℕ) : Latch := { l with callbacks := l.callbacks.erase callback }

/-- `none` where it throws. -/
def registerActivity : Option (Latch × Handle) :=
  if l.shuttingDown then none else some ({ l with activeCount := l.activeCount + 1 }, ⟨false⟩)

/-- `end` of a handle. -/
def «end» (handle : Handle) : Latch × Handle :=
  if handle.ended then (l, handle)
  else ({ l with activeCount := l.activeCount - 1 }.checkDrained, ⟨true⟩)

def initiateShutdown : Latch :=
  let l := { l with shuttingDown := true, callbacks := [], ran := l.ran ++ l.callbacks }
  { l with drains := l.drains ++ [l.activeCount == 0] }

end Latch

/-! ## What the latch knows -/

/-- It is in flight. -/
def Handle.live (handle : Handle) : Bool := !handle.ended

/-- The latch tells of `live` activities in flight. -/
structure Latch.Counts (l : Latch) (live : ℕ) : Prop where
  count : l.activeCount = live
  drained : ∀ drain ∈ l.drains, l.shuttingDown = true ∧ (drain = true ↔ live = 0)

section Operations
variable {l l' : Latch} {handle handle' : Handle} {live : ℕ}

theorem Latch.Counts.register (h : l.Counts live)
    (hregister : l.registerActivity = some (l', handle)) :
    l'.Counts (live + 1) ∧ l.shuttingDown = false ∧ handle = ⟨false⟩ := by
  unfold Latch.registerActivity at hregister
  split_ifs at hregister with hdown
  obtain ⟨rfl, rfl⟩ := Prod.mk.inj (Option.some.inj hregister)
  refine ⟨⟨?_, fun drain hdrain => absurd (h.drained drain hdrain).1 hdown⟩,
    Bool.eq_false_iff.mpr hdown, rfl⟩
  rw [h.count]
  rfl

theorem end_eq (l : Latch) :
    ∃ drains, (l.end ⟨false⟩).1 = { l with activeCount := l.activeCount - 1, drains } := by
  have hend : (l.end ⟨false⟩).1 = { l with activeCount := l.activeCount - 1 }.checkDrained := rfl
  rw [hend]
  unfold Latch.checkDrained
  split_ifs
  · exact ⟨_, rfl⟩
  · exact ⟨_, rfl⟩

theorem Latch.Counts.end (h : l.Counts (live + 1)) : (l.end ⟨false⟩).1.Counts live := by
  have hcount : l.activeCount - 1 = live := by rw [h.count, Nat.cast_succ, add_sub_cancel_right]
  have hpending : ∀ drain ∈ l.drains, l.shuttingDown = true ∧ drain = false := by
    intro drain hdrain
    obtain ⟨hdown, hdone⟩ := h.drained drain hdrain
    exact ⟨hdown, Bool.eq_false_iff.mpr fun htrue => absurd (hdone.mp htrue) (Nat.succ_ne_zero _)⟩
  have hend : (l.end ⟨false⟩).1 = { l with activeCount := l.activeCount - 1 }.checkDrained := rfl
  rw [hend]
  unfold Latch.checkDrained
  split_ifs with hidle
  · obtain ⟨hdown, hzero⟩ := Bool.and_eq_true_iff.mp hidle
    have hlive : live = 0 := Int.natCast_eq_zero.mp (hcount ▸ eq_of_beq hzero)
    refine ⟨hcount, fun drain hdrain => ⟨hdown, ?_⟩⟩
    obtain ⟨-, -, rfl⟩ := List.mem_map.mp hdrain
    exact ⟨fun _ => hlive, fun _ => rfl⟩
  · refine ⟨hcount, fun drain hdrain => ⟨(hpending drain hdrain).1, ?_⟩⟩
    rw [(hpending drain hdrain).2]
    refine ⟨nofun, fun hlive => absurd ?_ hidle⟩
    refine Bool.and_eq_true_iff.mpr ⟨(hpending drain hdrain).1, beq_iff_eq.mpr ?_⟩
    rw [hcount, hlive]
    rfl

theorem Latch.Counts.initiateShutdown (h : l.Counts live) : l.initiateShutdown.Counts live where
  count := h.count
  drained := by
    intro drain hdrain
    refine ⟨rfl, ?_⟩
    rcases List.mem_append.mp hdrain with hold | hnow
    · exact (h.drained drain hold).2
    · rw [List.mem_singleton.mp hnow, beq_iff_eq, h.count, Int.natCast_eq_zero]

theorem Latch.Counts.onShutdown (h : l.Counts live) : l.onShutdown.Counts live := by
  unfold Latch.onShutdown
  split_ifs
  · exact ⟨h.count, h.drained⟩
  · exact ⟨h.count, h.drained⟩

end Operations

/-! ## Runs -/

structure State where
  latch : Latch
  handles : List Handle
  removed : List ℕ
  deriving DecidableEq, Repr

inductive Action where
  | onShutdown
  | remove (callback : ℕ)
  | registerActivity
  | end (handle : ℕ)
  | initiateShutdown
  deriving DecidableEq, Repr

def initial : State := ⟨shutdownLatch, [], []⟩

def step (s : State) : Action → Option State
  | .onShutdown => some { s with latch := s.latch.onShutdown }
  | .remove callback =>
      if callback < s.latch.given then
        some { s with latch := s.latch.remove callback, removed := s.removed ++ [callback] }
      else none
  | .registerActivity => s.latch.registerActivity.map fun registered =>
      { s with latch := registered.1, handles := s.handles ++ [registered.2] }
  | .end k => s.handles[k]?.map fun handle =>
      { s with latch := (s.latch.end handle).1, handles := s.handles.set k (s.latch.end handle).2 }
  | .initiateShutdown => some { s with latch := s.latch.initiateShutdown }

structure Inv (s : State) : Prop where
  counts : s.latch.Counts (s.handles.countP Handle.live)
  once : (s.latch.ran ++ s.latch.callbacks).Nodup
  given : ∀ callback ∈ s.latch.ran ++ s.latch.callbacks, callback < s.latch.given
  waiting : s.latch.shuttingDown = true → s.latch.callbacks = []
  /-- A callback ran, waits for the shutdown, or was taken back. -/
  kept : ∀ callback < s.latch.given, callback ∈ s.latch.ran ++ s.latch.callbacks ∨
    callback ∈ s.removed

theorem inv_initial : Inv initial where
  counts := ⟨rfl, nofun⟩
  once := List.nodup_nil
  given := nofun
  waiting := fun _ => rfl
  kept := nofun

section Steps
variable {s t : State}

/-- A callback that is given runs at once or waits behind the others. -/
theorem onShutdown_order {l : Latch} (hwaiting : l.shuttingDown = true → l.callbacks = []) :
    l.onShutdown.ran ++ l.onShutdown.callbacks = l.ran ++ l.callbacks ++ [l.given] ∧
      l.onShutdown.given = l.given + 1 ∧
      (l.onShutdown.shuttingDown = true → l.onShutdown.callbacks = []) := by
  unfold Latch.onShutdown
  split_ifs with hdown
  · rw [hwaiting hdown]
    refine ⟨?_, rfl, fun _ => rfl⟩
    simp
  · exact ⟨(List.append_assoc _ _ _).symm, rfl, fun h => absurd h hdown⟩

theorem Inv.onShutdown (hi : Inv s) : Inv { s with latch := s.latch.onShutdown } := by
  obtain ⟨horder, hgiven, hwaiting⟩ := onShutdown_order hi.waiting
  refine ⟨hi.counts.onShutdown, ?_, ?_, hwaiting, ?_⟩
  · rw [horder]
    refine List.nodup_append.mpr ⟨hi.once, List.nodup_singleton _,
      fun callback hmem other hother => ?_⟩
    rw [List.mem_singleton.mp hother]
    exact (hi.given callback hmem).ne
  · intro callback hmem
    rw [horder] at hmem
    rw [hgiven]
    rcases List.mem_append.mp hmem with hold | hnow
    · exact (hi.given callback hold).trans (Nat.lt_succ_self _)
    · rw [List.mem_singleton.mp hnow]
      exact Nat.lt_succ_self _
  · intro callback hlt
    rw [horder]
    rw [hgiven] at hlt
    rcases Nat.lt_succ_iff_lt_or_eq.mp hlt with hold | rfl
    · exact (hi.kept callback hold).imp_left (List.mem_append_left _)
    · exact .inl (List.mem_append_right _ List.mem_cons_self)

theorem Inv.remove (hi : Inv s) (callback : ℕ) :
    Inv { s with latch := s.latch.remove callback, removed := s.removed ++ [callback] } := by
  have hsub :
      (s.latch.ran ++ s.latch.callbacks.erase callback).Sublist
      (s.latch.ran ++ s.latch.callbacks) :=
    List.Sublist.append_left List.erase_sublist _
  refine ⟨⟨hi.counts.count, hi.counts.drained⟩, hi.once.sublist hsub,
    fun other hmem => hi.given other (hsub.subset hmem), ?_, ?_⟩
  · intro hdown
    rw [Latch.remove, hi.waiting hdown]
    rfl
  · intro other hlt
    rcases hi.kept other hlt with hmem | hmem
    · rcases List.mem_append.mp hmem with hran | hwaits
      · exact .inl (List.mem_append_left _ hran)
      · rcases eq_or_ne other callback with rfl | hne
        · exact .inr (List.mem_append_right _ List.mem_cons_self)
        · exact .inl (List.mem_append_right _ ((List.mem_erase_of_ne hne).mpr hwaits))
    · exact .inr (List.mem_append_left _ hmem)

theorem Inv.registerActivity {l : Latch} {handle : Handle} (hi : Inv s)
    (h : s.latch.registerActivity = some (l, handle)) :
    Inv { s with latch := l, handles := s.handles ++ [handle] } := by
  obtain ⟨hcounts, -, rfl⟩ := hi.counts.register h
  unfold Latch.registerActivity at h
  split_ifs at h
  obtain ⟨rfl, -⟩ := Prod.mk.inj (Option.some.inj h)
  refine ⟨?_, hi.once, hi.given, hi.waiting, hi.kept⟩
  rw [List.countP_append]
  exact hcounts

theorem Inv.end {k : ℕ} {handle : Handle} (hi : Inv s) (h : s.handles[k]? = some handle) :
    Inv { s with
      latch := (s.latch.end handle).1, handles := s.handles.set k (s.latch.end handle).2 } := by
  obtain ⟨ended⟩ := handle
  cases ended with
  | true =>
      have hsame : s.handles.set k ⟨true⟩ = s.handles := set_of_some h
      refine ⟨?_, hi.once, hi.given, hi.waiting, hi.kept⟩
      show s.latch.Counts ((s.handles.set k ⟨true⟩).countP Handle.live)
      rw [hsame]
      exact hi.counts
  | false =>
      have hcount := countP_set_of_some h (⟨true⟩ : Handle) Handle.live
      have hcounts := hi.counts
      rw [← hcount.trans (Nat.add_zero _)] at hcounts
      obtain ⟨drains, hlatch⟩ := end_eq s.latch
      have hended := hcounts.end
      rw [hlatch] at hended ⊢
      exact ⟨hended, hi.once, hi.given, hi.waiting, hi.kept⟩

theorem Inv.initiateShutdown (hi : Inv s) : Inv { s with latch := s.latch.initiateShutdown } := by
  have horder : s.latch.initiateShutdown.ran ++ s.latch.initiateShutdown.callbacks =
      s.latch.ran ++ s.latch.callbacks :=
    List.append_nil _
  refine ⟨hi.counts.initiateShutdown, ?_, ?_, fun _ => rfl, ?_⟩
  · rw [horder]
    exact hi.once
  · rw [horder]
    exact hi.given
  · rw [horder]
    exact hi.kept

theorem inv_step {action : Action} (hi : Inv s) (h : step s action = some t) : Inv t := by
  cases action with
  | onShutdown => exact Option.some.inj h ▸ hi.onShutdown
  | remove callback =>
      simp only [step, Option.ite_none_right_eq_some, Option.some.injEq] at h
      exact h.2 ▸ hi.remove callback
  | registerActivity =>
      obtain ⟨⟨l, handle⟩, hregister, rfl⟩ := Option.map_eq_some_iff.mp h
      exact hi.registerActivity hregister
  | «end» k =>
      obtain ⟨handle, hhandle, rfl⟩ := Option.map_eq_some_iff.mp h
      exact hi.end hhandle
  | initiateShutdown => exact Option.some.inj h ▸ hi.initiateShutdown

theorem inv_of_reach (h : Reach step always initial s) : Inv s :=
  h.invariant inv_initial fun _ _ _ _ hi _ hs => inv_step hi hs

theorem drained_end {l : Latch} (hdrained : true ∈ l.drains) (handle : Handle) :
    true ∈ (l.end handle).1.drains := by
  unfold Latch.end
  split_ifs
  · exact hdrained
  · unfold Latch.checkDrained
    split_ifs
    · exact List.mem_map.mpr ⟨true, hdrained, rfl⟩
    · exact hdrained

/-- A promise that is resolved stays so. -/
theorem drained_step {action : Action} (h : step s action = some t)
    (hdrained : true ∈ s.latch.drains) :
    true ∈ t.latch.drains := by
  cases action with
  | onShutdown =>
      obtain rfl := Option.some.inj h
      show true ∈ s.latch.onShutdown.drains
      unfold Latch.onShutdown
      split_ifs
      · exact hdrained
      · exact hdrained
  | remove callback =>
      simp only [step, Option.ite_none_right_eq_some, Option.some.injEq] at h
      exact h.2 ▸ hdrained
  | registerActivity =>
      obtain ⟨⟨l, handle⟩, hregister, rfl⟩ := Option.map_eq_some_iff.mp h
      unfold Latch.registerActivity at hregister
      split_ifs at hregister
      obtain ⟨rfl, -⟩ := Prod.mk.inj (Option.some.inj hregister)
      exact hdrained
  | «end» k =>
      obtain ⟨handle, -, rfl⟩ := Option.map_eq_some_iff.mp h
      exact drained_end hdrained handle
  | initiateShutdown =>
      obtain rfl := Option.some.inj h
      exact List.mem_append_left _ hdrained

end Steps

/-- A promise of `initiateShutdown` is resolved just when nothing is in flight, and from then on
nothing ever is. No callback runs twice, and once the shutdown is initiated each has run that was
not taken back. -/
theorem drained_when_all_in_flight_ended (s : State) (h : Reach step always initial s) :
    s.latch.activeCount = (s.handles.countP Handle.live : ℤ) ∧
      (∀ drain ∈ s.latch.drains, drain = true ↔ ∀ handle ∈ s.handles, handle.ended = true) ∧
      (∀ t, Reach step always s t → true ∈ s.latch.drains → ∀ handle ∈ t.handles,
        handle.ended = true) ∧
      s.latch.ran.Nodup ∧
      (s.latch.shuttingDown = true → ∀ callback < s.latch.given,
        callback ∈ s.latch.ran ∨ callback ∈ s.removed) := by
  have hi := inv_of_reach h
  have hidle : ∀ {u : State}, u.handles.countP Handle.live = 0 ↔
      ∀ handle ∈ u.handles, handle.ended = true := by
    intro u
    simp [List.countP_eq_zero, Handle.live]
  refine ⟨hi.counts.count, fun drain hdrain => (hi.counts.drained drain hdrain).2.trans hidle,
    ?_, ?_, ?_⟩
  · intro t ht hdrained
    have hlast : true ∈ t.latch.drains := by
      induction ht with
      | start => exact hdrained
      | next _ _ hstep ih => exact drained_step hstep ih
    exact hidle.mp (((inv_of_reach (h.trans ht)).counts.drained true hlast).2.mp rfl)
  · exact hi.once.sublist (List.sublist_append_left _ _)
  · intro hdown callback hlt
    have hkept := hi.kept callback hlt
    rw [hi.waiting hdown, List.append_nil] at hkept
    exact hkept

/-- Two activities, a shutdown asked for twice, and the end of both. -/
theorem drained_after_two_activities : ∃ s : State, s.latch.drains = [true, true] ∧
    s.latch.ran = [0] ∧
    ∀ t, Reach step always s t → ∀ handle ∈ t.handles, handle.ended = true := by
  obtain ⟨s, hs, hdrains, hran⟩ := reach_exec_any (s := initial)
    (P := fun s => s.latch.drains = [true, true] ∧ s.latch.ran = [0])
    (show ((exec step initial [.onShutdown, .registerActivity, .registerActivity, .initiateShutdown,
      .end 1, .initiateShutdown,
      .end 0]).any fun s => decide _) = true by decide)
  have hdrained := drained_when_all_in_flight_ended s hs
  exact ⟨s, hdrains, hran,
    fun t ht => hdrained.2.2.1 t ht (by rw [hdrains]; exact List.mem_cons_self)⟩

end Kronos.AxonServer.ShutdownLatch
