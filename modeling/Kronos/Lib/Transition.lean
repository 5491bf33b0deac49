import Mathlib.Data.List.Basic

/-!
# Guarded transition systems

A system is a partial step function: `step s a` is the state after action `a`,
or `none` when `a` cannot happen in `s`. `Reach` collects the states of all
runs whose every action satisfies a side condition `ok` in the state before
it; `ok := fun _ _ => True` gives all runs. `exec` replays one concrete list of
actions, so a single trace can be evaluated.
-/
namespace Kronos.Lib.Transition

variable {S A : Type} {step : S → A → Option S} {ok : S → A → Prop} {s₀ s t : S}

/-- States reached from `s₀` by steps that all satisfy `ok` where they are taken. -/
inductive Reach (step : S → A → Option S) (ok : S → A → Prop) (s₀ : S) : S → Prop
  | start : Reach step ok s₀ s₀
  | next {s t : S} {a : A} : Reach step ok s₀ s → ok s a → step s a = some t → Reach step ok s₀ t

/-- The side condition that every action satisfies. -/
def always : S → A → Prop := fun _ _ => True

/-- Replay a list of actions. -/
def exec (step : S → A → Option S) : S → List A → Option S
  | s, [] => some s
  | s, a::as => (step s a).bind fun t => exec step t as

/-- The invariant rule. The step premise may use that the state is reachable. -/
theorem Reach.invariant {I : S → Prop} (h₀ : I s₀)
    (hstep : ∀ s a t, Reach step ok s₀ s → I s → ok s a → step s a = some t → I t)
    (h : Reach step ok s₀ s) : I s := by
  induction h with
  | start => exact h₀
  | next hs hok hst ih => exact hstep _ _ _ hs ih hok hst

theorem Reach.weaken {ok' : S → A → Prop} (hok : ∀ s a, ok s a → ok' s a)
    (h : Reach step ok s₀ s) : Reach step ok' s₀ s := by
  induction h with
  | start => exact .start
  | next _ ha hst ih => exact .next ih (hok _ _ ha) hst

theorem Reach.trans (h : Reach step ok s₀ s) (k : Reach step ok s t) : Reach step ok s₀ t := by
  induction k with
  | start => exact h
  | next _ ha hst ih => exact .next ih ha hst

theorem reach_of_exec {as : List A} (h : exec step s as = some t) :
    Reach step always s t := by
  induction as generalizing s with
  | nil => cases h; exact .start
  | cons a as ih =>
      obtain ⟨u, hu, ht⟩ := Option.bind_eq_some_iff.mp h
      exact (Reach.next .start trivial hu).trans (ih ht)

/-- The steps whose side condition holds. -/
def guarded (step : S → A → Option S) (ok : S → A → Prop) [∀ s a, Decidable (ok s a)] :
    S → A → Option S :=
  fun s a => if ok s a then step s a else none

theorem reach_of_guarded [∀ s a, Decidable (ok s a)] {as : List A}
    (h : exec (guarded step ok) s as = some t) : Reach step ok s t := by
  induction as generalizing s with
  | nil => cases h; exact .start
  | cons a as ih =>
      obtain ⟨u, hu, ht⟩ := Option.bind_eq_some_iff.mp h
      unfold guarded at hu
      split_ifs at hu with hok
      exact (Reach.next .start hok hu).trans (ih ht)

theorem reach_exec_get {as : List A} (h : (exec step s as).isSome = true) :
    Reach step always s ((exec step s as).get h) :=
  reach_of_exec (Option.some_get h).symm

theorem reach_guarded_get [∀ s a, Decidable (ok s a)] {as : List A}
    (h : (exec (guarded step ok) s as).isSome = true) :
    Reach step ok s ((exec (guarded step ok) s as).get h) :=
  reach_of_guarded (Option.some_get h).symm

theorem exists_of_any {α : Type} {o : Option α} {P : α → Prop} [DecidablePred P]
    (h : o.any (fun a => decide (P a)) = true) : ∃ a, o = some a ∧ P a := by
  cases o with
  | none => cases h
  | some a => exact ⟨a, rfl, of_decide_eq_true h⟩

/-- A state with a property a replay shows at its end. -/
theorem reach_exec_any {P : S → Prop} [DecidablePred P] {as : List A}
    (h : (exec step s as).any (fun t => decide (P t)) = true) :
    ∃ t, Reach step always s t ∧ P t := by
  obtain ⟨t, ht, hp⟩ := exists_of_any h
  exact ⟨t, reach_of_exec ht, hp⟩

theorem reach_guarded_any [∀ s a, Decidable (ok s a)] {P : S → Prop} [DecidablePred P] {as : List A}
    (h : (exec (guarded step ok) s as).any (fun t => decide (P t)) = true) :
    ∃ t, Reach step ok s t ∧ P t := by
  obtain ⟨t, ht, hp⟩ := exists_of_any h
  exact ⟨t, reach_of_guarded ht, hp⟩

end Kronos.Lib.Transition
