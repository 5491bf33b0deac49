import Kronos.QueryHandling.UpdatesReachSubscribers

/-!
# Deferred updates run once

Every task that is emitted has a number. A task that was deferred to a unit of
work runs when that is committed, in the order of the calls and at most once; where
the unit of work fails it never runs.
-/
namespace Kronos.QueryHandling.LocalQueryBus
open Kronos.Lib.OrderedMap Kronos.Lib.Slots Kronos.Lib.Transition
open UpdateHandler (Handler)

variable {I N P α ε : Type} [DecidableEq N] {s t : Bus I N P α ε} {w : ℕ} {work : Work N P α ε}
    {task : Task N P α ε}

def Ran.number (r : Ran N P α ε) : ℕ := r.task.number

/-- A unit of work holds the tasks deferred to it, by their numbers, and what ran of them ran after
its commit. -/
structure Deferred (s : Bus I N P α ε) : Prop where
  once : (s.ran.map Ran.number).Nodup
  known : ∀ r ∈ s.ran, r.number < s.emitted.length
  ran : ∀ r ∈ s.ran, ∀ w : ℕ, s.emitted[r.number]? = some (some w) →
    ∃ work, s.works[w]? = some work ∧ work.committed = true
  waiting : ∀ (w : ℕ) (work : Work N P α ε), s.works[w]? = some work →
    ((work.updateTasks.getD []).map Task.number).Pairwise (· < ·) ∧
    ∀ task ∈ work.updateTasks.getD [], s.emitted[task.number]? = some (some w)

/-- Nothing was emitted, and nothing ran. -/
structure Same (s t : Bus I N P α ε) : Prop where
  ran : t.ran = s.ran
  works : t.works = s.works
  emitted : t.emitted = s.emitted

omit [DecidableEq N] in
theorem Deferred.same (hd : Deferred s) (h : Same s t) : Deferred t := by
  obtain ⟨hran, hworks, hemitted⟩ := h
  refine ⟨?_, ?_, ?_, ?_⟩
  · rw [hran]
    exact hd.once
  · rw [hran, hemitted]
    exact hd.known
  · rw [hran, hworks, hemitted]
    exact hd.ran
  · rw [hworks, hemitted]
    exact hd.waiting

section Steps
variable [DecidableEq I]

omit [DecidableEq N] in
theorem same_register {query : QueryMessage I N P} {bufferSize : ℕ} {initial : Option (Initial ε)}
    (h : s.register query bufferSize initial = some t) : Same s t := by
  unfold Bus.register at h
  split_ifs at h
  obtain rfl := Option.some.inj h
  exact ⟨rfl, rfl, rfl⟩

/-- The task is added to those that ran. -/
theorem run_ran (hi : Inv s) (task : Task N P α ε) :
    (∃ thrownAt, (s.run task).1.ran = s.ran ++ [⟨task, thrownAt⟩]) ∧
      (s.run task).1.works = s.works ∧
      (s.run task).1.emitted = s.emitted := by
  have hw := walked_loop task s.subscriptions s hi.walkable
  refine ⟨⟨(s.loop task s.subscriptions).2, ?_⟩, hw.works, hw.emitted⟩
  rw [← hw.ran]
  rfl

/-- The first of the tasks run, in their order. -/
theorem runTasks_ran : ∀ (tasks : List (Task N P α ε)) (s : Bus I N P α ε), Inv s →
    (∃ ran, (s.runTasks tasks).1.ran = s.ran ++ ran ∧ ran.map Ran.task <+: tasks) ∧
      (s.runTasks tasks).1.works = s.works ∧
      (s.runTasks tasks).1.emitted = s.emitted
  | [], s, _ => ⟨⟨[], (List.append_nil _).symm, List.nil_prefix⟩, rfl, rfl⟩
  | task :: tasks, s, hi => by
      obtain ⟨⟨thrownAt, hran⟩, hworks, hemitted⟩ := run_ran hi task
      unfold Bus.runTasks
      split_ifs
      · obtain ⟨⟨ran, hrest, hfirst⟩, hworks', hemitted'⟩ :=
          runTasks_ran tasks _ (Goes.run hi task).inv
        refine ⟨⟨⟨task, thrownAt⟩ :: ran, ?_, ?_⟩, hworks'.trans hworks, hemitted'.trans hemitted⟩
        · rw [hrest, hran, List.append_assoc, List.singleton_append]
        · rw [List.map_cons]
          exact (List.prefix_cons_inj task).mpr hfirst
      · exact ⟨⟨[⟨task, thrownAt⟩], hran, ⟨tasks, rfl⟩⟩, hworks, hemitted⟩

/-- A unit of work is committed. -/
theorem Deferred.afterCommit (hd : Deferred s) (hi : Inv s) {tasks : List (Task N P α ε)}
    (hwork : s.works[w]? = some work) (hopen : work.committed = false)
    (htasks : work.updateTasks = some tasks) : Deferred (s.afterCommit w work tasks) := by
  obtain ⟨⟨ran, hran, hfirst⟩, hworks, hemitted⟩ := runTasks_ran tasks s hi
  obtain ⟨hsorted, hthere⟩ := hd.waiting w work hwork
  rw [htasks, Option.getD_some] at hsorted hthere
  have hnow : ∀ r ∈ ran, s.emitted[r.number]? = some (some w) := fun r hr =>
    hthere r.task (hfirst.subset (List.mem_map_of_mem hr))
  have hmap : (ran.map Ran.number).Nodup := by
    have hnumbers : (ran.map Ran.task).map Task.number <+: tasks.map Task.number := hfirst.map _
    rw [List.map_map] at hnumbers
    exact (hsorted.imp Nat.ne_of_lt).sublist hnumbers.sublist
  unfold Bus.afterCommit
  refine ⟨?_, ?_, ?_, ?_⟩
  · show ((s.runTasks tasks).1.ran.map Ran.number).Nodup
    rw [hran, List.map_append]
    refine List.nodup_append.mpr ⟨hd.once, hmap, fun number hmem number' hmem' heq => ?_⟩
    obtain ⟨earlier, hearlier, rfl⟩ := List.mem_map.mp hmem
    obtain ⟨r, hr, rfl⟩ := List.mem_map.mp hmem'
    obtain ⟨committed, hcommitted, hdone⟩ := hd.ran earlier hearlier w (heq ▸ hnow r hr)
    obtain rfl := Option.some.inj (hwork.symm.trans hcommitted)
    rw [hopen] at hdone
    cases hdone
  · show ∀ r ∈ (s.runTasks tasks).1.ran, r.number < (s.runTasks tasks).1.emitted.length
    rw [hran, hemitted]
    intro r hr
    rcases List.mem_append.mp hr with hold | hnew
    · exact hd.known r hold
    · exact (List.getElem?_eq_some_iff.mp (hnow r hnew)).1
  · show ∀ r ∈ (s.runTasks tasks).1.ran, ∀ j : ℕ,
      (s.runTasks tasks).1.emitted[r.number]? = some (some j) →
      ∃ other, ((s.runTasks tasks).1.works.set w _)[j]? = some other ∧ other.committed = true
    rw [hran, hworks, hemitted]
    intro r hr j hj
    rcases eq_or_ne j w with rfl | hne
    · exact ⟨_, getElem?_set_of_some hwork, rfl⟩
    · rcases List.mem_append.mp hr with hold | hnew
      · obtain ⟨other, hother, hdone⟩ := hd.ran r hold j hj
        exact ⟨other, getElem?_set_of_ne hne hother, hdone⟩
      · exact absurd (Option.some.inj (Option.some.inj (hj.symm.trans (hnow r hnew)))) hne
  · intro j other hother
    change ((s.runTasks tasks).1.works.set w _)[j]? = some other at hother
    show _ ∧ ∀ task ∈ other.updateTasks.getD [],
      (s.runTasks tasks).1.emitted[task.number]? = some (some j)
    rw [hworks] at hother
    rw [hemitted]
    rcases getElem?_set_cases hother with ⟨rfl, rfl⟩ | ⟨-, hold⟩
    · exact hd.waiting j work hwork
    · exact hd.waiting j other hold

omit [DecidableEq N] [DecidableEq I] in
/-- A unit of work is closed. -/
theorem Deferred.closes (hd : Deferred s) (hwork : s.works[w]? = some work) :
    Deferred (s.setWork w { work with closed := true }) := by
  refine ⟨hd.once, hd.known, fun r hr j hj => ?_, fun j other hother => ?_⟩
  · obtain ⟨other, hother, hdone⟩ := hd.ran r hr j hj
    rcases eq_or_ne j w with rfl | hne
    · obtain rfl := Option.some.inj (hwork.symm.trans hother)
      exact ⟨_, getElem?_set_of_some hwork, hdone⟩
    · exact ⟨other, getElem?_set_of_ne hne hother, hdone⟩
  · rcases getElem?_set_cases hother with ⟨rfl, rfl⟩ | ⟨-, hold⟩
    · exact hd.waiting j work hwork
    · exact hd.waiting j other hold

/-- The unit of work `w` failed. -/
def Failed (w : ℕ) (s : Bus I N P α ε) : Prop :=
  ∃ work, s.works[w]? = some work ∧ work.closed = true ∧ work.committed = false

omit [DecidableEq N] [DecidableEq I] in
theorem Failed.same (hf : Failed w s) (h : t.works = s.works) : Failed w t := by
  obtain ⟨work, hwork, hrest⟩ := hf
  exact ⟨work, h ▸ hwork, hrest⟩

omit [DecidableEq N] [DecidableEq I] in
/-- Another unit of work goes on, or this one is closed once more. -/
theorem Failed.set (hf : Failed w s) {j : ℕ} (hwork : s.works[j]? = some work)
    {later : Work N P α ε} (h : t.works = s.works.set j later)
    (hlater : work.closed = true → work.committed = false → later.closed = true ∧
      later.committed = false) : Failed w t := by
  obtain ⟨failed, hfailed, hclosed, hopen⟩ := hf
  unfold Failed
  rw [h]
  rcases eq_or_ne w j with rfl | hne
  · obtain rfl := Option.some.inj (hwork.symm.trans hfailed)
    exact ⟨later, getElem?_set_of_some hwork, hlater hclosed hopen⟩
  · exact ⟨failed, getElem?_set_of_ne hne hfailed, hclosed, hopen⟩

end Steps

variable [DecidableEq I]

end Kronos.QueryHandling.LocalQueryBus
