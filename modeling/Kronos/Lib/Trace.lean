import Mathlib.Data.List.Basic

/-!
# Traces

What has happened, in its order. A condition on an event may look at all that
happened before it; it holds along a trace when it held of every event as it came.
-/
namespace Kronos.Lib.Trace

variable {E : Type} {P : List E → E → Prop} {trace : List E} {event : E}

/-- Every event of the trace was right when it came. -/
def Each (P : List E → E → Prop) (trace : List E) : Prop :=
  ∀ before event after, trace = before ++ event :: after → P before event

theorem each_nil : Each P [] := by
  intro before event after heq
  exact absurd heq.symm (List.append_ne_nil_of_right_ne_nil _ (List.cons_ne_nil _ _))

theorem each_concat (h : Each P trace) (hevent : P trace event) : Each P (trace ++ [event]) := by
  intro before e after heq
  rcases List.eq_nil_or_concat' after with rfl | ⟨more, last, rfl⟩
  · obtain ⟨rfl, hlast⟩ := List.append_inj' heq rfl
    cases hlast
    exact hevent
  · rw [← List.cons_append, ← List.append_assoc] at heq
    exact h before e more (List.append_inj' heq rfl).1

theorem each_cons : Each P (event :: trace) ↔
    P [] event ∧ Each (fun past => P (event :: past)) trace := by
  constructor
  · intro h
    exact ⟨h [] event trace rfl,
      fun before e after heq => h (event :: before) e after (by rw [heq]; rfl)⟩
  · rintro ⟨hfirst, hrest⟩ before e after heq
    cases before with
    | nil =>
        obtain ⟨rfl, rfl⟩ := List.cons.inj heq
        exact hfirst
    | cons first before =>
        obtain ⟨rfl, hrest'⟩ := List.cons.inj heq
        exact hrest before e after hrest'

theorem each_append {first rest : List E} :
    Each P (first ++ rest) ↔ Each P first ∧ Each (fun past => P (first ++ past)) rest := by
  induction first generalizing P with
  | nil => exact ⟨fun h => ⟨each_nil, h⟩, fun h => h.2⟩
  | cons event first ih => rw [List.cons_append, each_cons, each_cons, ih, and_assoc]; rfl

end Kronos.Lib.Trace
