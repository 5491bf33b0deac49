import Mathlib.Data.List.Basic

/-!
# Conditions of AND and OR

A condition as a list of tokens, read from left to right with a stack of what is
open. AND binds tighter than OR, both group to the left, and a parenthesis holds
a condition of its own. `Reads` is the rule for composing: a list of tokens that
reads as a clause wherever an operand may start.
-/
namespace Kronos.Lib.Condition

variable {α : Type}

inductive Token (α : Type) where
  | atom (a : α)
  | openParen
  | closeParen
  | and
  | or
  deriving DecidableEq, Repr

inductive Clause (α : Type) where
  | atom (a : α)
  | and (left right : Clause α)
  | or (left right : Clause α)
  deriving DecidableEq, Repr

/-- The meaning of a clause; an atom without one leaves the clause without one. -/
def Clause.eval (value : α → Option Bool) : Clause α → Option Bool
  | .atom a => value a
  | .and left right => do return (← left.eval value) && (← right.eval value)
  | .or left right => do return (← left.eval value) || (← right.eval value)

/-- A clause behind the disjuncts before it, if there are any. -/
def joinOr : Option (Clause α) → Clause α → Clause α
  | none, clause => clause
  | some before, clause => .or before clause

/-- What was read since the last open parenthesis: the disjuncts before the last
OR, the conjunction after it, and whether an operand has to come next. -/
structure Frame (α : Type) where
  disjuncts : Option (Clause α)
  conjuncts : Option (Clause α)
  due : Bool

namespace Frame

def fresh : Frame α := ⟨none, none, true⟩

def operand (frame : Frame α) (clause : Clause α) : Option (Frame α) :=
  if frame.due then
    some ⟨frame.disjuncts, some (match frame.conjuncts with
      | none => clause
      | some before => .and before clause), false⟩
  else none

def close (frame : Frame α) : Option (Clause α) :=
  if frame.due then none else frame.conjuncts.map (joinOr frame.disjuncts)

end Frame

def readToken : List (Frame α) → Token α → Option (List (Frame α))
  | frame::stack, .atom a => do return (← frame.operand (.atom a))::stack
  | frame::stack, .openParen => if frame.due then some (.fresh::frame::stack) else none
  | frame::outer::stack, .closeParen => do return (← outer.operand (← frame.close))::stack
  | frame::stack, .and => if frame.due then none else some ({ frame with due := true }::stack)
  | frame::stack, .or => do return ⟨some (← frame.close), none, true⟩::stack
  | _, _ => none

def readTokens : List (Frame α) → List (Token α) → Option (List (Frame α))
  | stack, [] => some stack
  | stack, token::tokens => do readTokens (← readToken stack token) tokens

def parse (tokens : List (Token α)) : Option (Clause α) := do
  match ← readTokens [.fresh] tokens with
  | [frame] => frame.close
  | _ => none

def parenthesised (tokens : List (Token α)) : List (Token α) := .openParen::tokens ++ [.closeParen]

/-- The parts with OR between them. -/
def disjunction : List (List (Token α)) → List (Token α)
  | [] => []
  | [part] => part
  | part::next::parts => part ++ .or::disjunction (next::parts)

/-- The tokens read as the clause from wherever a condition may start. -/
def Reads (tokens : List (Token α)) (clause : Clause α) : Prop :=
  ∀ stack, ∃ frame, readTokens (.fresh::stack) tokens = some (frame::stack) ∧
    frame.close = some clause

theorem readTokens_append (stack : List (Frame α)) (tokens rest : List (Token α)) :
    readTokens stack (tokens ++ rest) = (readTokens stack tokens).bind (readTokens · rest) := by
  induction tokens generalizing stack with
  | nil => rfl
  | cons token tokens ih =>
      change (readToken stack token).bind (fun s => readTokens s (tokens ++ rest)) =
        ((readToken stack token).bind (readTokens · tokens)).bind (readTokens · rest)
      cases readToken stack token with
      | none => rfl
      | some stack => exact ih stack

theorem Reads.parse {tokens : List (Token α)} {clause : Clause α} (h : Reads tokens clause) :
    parse tokens = some clause := by
  obtain ⟨frame, hread, hclose⟩ := h []
  unfold Condition.parse
  rw [hread]
  exact hclose

theorem reads_atom (a : α) : Reads [.atom a] (.atom a) :=
  fun _ => ⟨⟨none, some (.atom a), false⟩, rfl, rfl⟩

/-- A parenthesised condition is one operand. -/
theorem Reads.operand {tokens : List (Token α)} {clause : Clause α} (h : Reads tokens clause)
    {frame after : Frame α} (hafter : frame.operand clause = some after) (stack : List (Frame α)) :
    readTokens (frame::stack) (parenthesised tokens) = some (after::stack) := by
  obtain ⟨inner, hread, hclose⟩ := h (frame::stack)
  have hdue : frame.due = true := by
    unfold Frame.operand at hafter
    split_ifs at hafter with hdue
    exact hdue
  change (readToken (frame::stack) .openParen).bind (readTokens · (tokens ++ [.closeParen])) = _
  have hopen : readToken (frame::stack) .openParen = some (.fresh::frame::stack) := if_pos hdue
  rw [hopen, Option.bind_some, readTokens_append, hread, Option.bind_some]
  change (readToken (inner::frame::stack) .closeParen).bind (readTokens · []) = _
  have hdone : readToken (inner::frame::stack) .closeParen = some (after::stack) := by
    change (do return (← frame.operand (← inner.close))::stack) = _
    rw [hclose]
    change (do return (← frame.operand clause)::stack) = _
    rw [hafter]
    rfl
  rw [hdone]
  rfl

/-- A parenthesised condition AND an atom. -/
theorem Reads.and_atom {tokens : List (Token α)} {clause : Clause α} (h : Reads tokens clause)
    (a : α) : Reads (parenthesised tokens ++ [.and, .atom a]) (.and clause (.atom a)) := by
  intro stack
  have hoperand : (Frame.fresh : Frame α).operand clause = some ⟨none, some clause, false⟩ := rfl
  refine ⟨⟨none, some (.and clause (.atom a)), false⟩, ?_, rfl⟩
  rw [readTokens_append, h.operand hoperand, Option.bind_some]
  rfl

/-- The rest of a disjunction, after an OR behind what was read as `before`. -/
theorem reads_disjuncts {parts : List (List (Token α) × Clause α)}
    (h : ∀ part ∈ parts, Reads part.1 part.2) {part : List (Token α) × Clause α}
    (hpart : Reads part.1 part.2) (before : Option (Clause α)) (stack : List (Frame α)) :
    ∃ frame, readTokens (⟨before, none, true⟩::stack)
        (disjunction ((part::parts).map fun p => parenthesised p.1)) = some (frame::stack) ∧
      frame.close = some (parts.foldl (fun clause p => .or clause p.2) (joinOr before part.2)) := by
  induction parts generalizing part before with
  | nil => exact ⟨⟨before, some part.2, false⟩, hpart.operand rfl stack, rfl⟩
  | cons next parts ih =>
      obtain ⟨frame, hrest, hclose⟩ := ih (fun p hp => h p (List.mem_cons_of_mem _ hp))
        (h next List.mem_cons_self) (some (joinOr before part.2))
      have hread : readTokens (⟨before, none, true⟩::stack) (parenthesised part.1) =
          some (⟨before, some part.2, false⟩::stack) := hpart.operand rfl stack
      refine ⟨frame, ?_, hclose⟩
      change readTokens _ (parenthesised part.1 ++
        .or::disjunction ((next::parts).map fun p => parenthesised p.1)) = _
      rw [readTokens_append, hread, Option.bind_some, ← hrest]
      rfl

/-- One or more parenthesised conditions with OR between them. -/
theorem reads_disjunction {part : List (Token α) × Clause α}
    {parts : List (List (Token α) × Clause α)} (hpart : Reads part.1 part.2)
    (h : ∀ part ∈ parts, Reads part.1 part.2) :
    Reads (disjunction ((part::parts).map fun p => parenthesised p.1))
      (parts.foldl (fun clause p => .or clause p.2) part.2) :=
  fun stack => reads_disjuncts h hpart none stack

theorem eval_foldl_or {value : α → Option Bool} {parts : List (List (Token α) × Clause α)}
    {values : List Bool} (h : List.Forall₂ (fun p b => p.2.eval value = some b) parts values)
    {clause : Clause α} {b : Bool} (hclause : clause.eval value = some b) :
    (parts.foldl (fun clause p => .or clause p.2) clause).eval value =
      some (b || values.any id) := by
  induction h generalizing clause b with
  | nil => rw [List.foldl_nil, hclause, List.any_nil, Bool.or_false]
  | @cons p v parts values hp hrest ih =>
      have hor : (Clause.or clause p.2).eval value = some (b || v) := by
        unfold Clause.eval
        rw [hclause, hp]
        rfl
      rw [List.foldl_cons, ih hor, List.any_cons, id, Bool.or_assoc]

end Kronos.Lib.Condition
