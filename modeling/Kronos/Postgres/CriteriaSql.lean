import Kronos.Lib.Condition
import Kronos.Postgres.EventStore

/-!
# Criteria as SQL

`buildCriteriaWhere` writes a condition over the columns `type` and `tags` with
numbered placeholders, to be spliced in parentheses into a larger statement. The
text is kept as tokens, `render` is the text itself; `evaluate` reads the tokens
with the precedence of AND over OR and looks every placeholder up among the
parameters of the whole statement.
-/
namespace Kronos.Postgres.CriteriaSql
open Kronos.Lib.Condition Kronos.EventSourcing Kronos.Postgres.EventStore

variable {P : Type}

/-- The comparisons a condition is made of. -/
inductive Atom where
  | true
  | cardinality
  | tagsContain (param : ℕ)
  | typeAny (param : ℕ)
  deriving DecidableEq, Repr

/-- What a statement may be given for a placeholder. -/
inductive Param where
  | texts (values : List String)
  | text (value : String)
  | bigint (value : ℤ)
  deriving DecidableEq, Repr

structure CriteriaSQL where
  clause : List (Token Atom)
  params : List Param
  nextParamIndex : ℕ
  deriving DecidableEq, Repr

def Atom.render : Atom → String
  | .true => "true"
  | .cardinality => "cardinality(tags) > 0"
  | .tagsContain param => "tags @> $" ++ toString param ++ "::text[]"
  | .typeAny param => "type = ANY($" ++ toString param ++ "::text[])"

/-- The text of the `WHERE` fragment. -/
def render (clause : List (Token Atom)) : String :=
  String.join (clause.map fun
    | .atom a => a.render
    | .openParen => "("
    | .closeParen => ")"
    | .and => " AND "
    | .or => " OR ")

mutual

def buildCriteriaWhere : EventCriteria → ℕ → CriteriaSQL
  | .anyTag, startIndex => ⟨[.atom .cardinality], [], startIndex⟩
  | .tags tags, startIndex =>
      if tags.length = 0 then ⟨[.atom .true], [], startIndex⟩
      else ⟨[.atom (.tagsContain startIndex)],
        [.texts (tags.map fun t => encodeTag t.key t.value)], startIndex + 1⟩
  | .typeRestricted inner types, startIndex =>
      let inner := buildCriteriaWhere inner startIndex
      ⟨parenthesised inner.clause ++ [.and, .atom (.typeAny inner.nextParamIndex)],
        inner.params ++ [.texts types], inner.nextParamIndex + 1⟩
  | .either criteria, startIndex =>
      let built := buildParts criteria startIndex
      ⟨disjunction built.1, built.2.1, built.2.2⟩

/-- The loop over the alternatives: their parts, their parameters and the next index. -/
def buildParts : List EventCriteria → ℕ → List (List (Token Atom)) × List Param × ℕ
  | [], next => ([], [], next)
  | sub::criteria, next =>
      let built := buildCriteriaWhere sub next
      let rest := buildParts criteria built.nextParamIndex
      (parenthesised built.clause::rest.1, built.params ++ rest.2.1, rest.2.2)

end

/-- The columns of a stored event that conditions look at. -/
structure EventColumns where
  type : String
  tags : List String
  deriving DecidableEq, Repr

def columnsOf (event : EventMessage P) : EventColumns :=
  ⟨qualifiedNameToString event.name, encodedTagsOf event⟩

/-- `$n`; placeholders count from one. -/
def lookupParam (params : List Param) (n : ℕ) : Option Param :=
  if n = 0 then none else params[n - 1]?

/-- A comparison on a row. A placeholder that is not bound to a text array is an error. -/
def Atom.holds (params : List Param) (row : EventColumns) : Atom → Option Bool
  | .true => some Bool.true
  | .cardinality => some (decide (0 < row.tags.length))
  | .tagsContain n =>
      match lookupParam params n with
      | some (.texts required) => some (required.all fun t => row.tags.contains t)
      | _ => none
  | .typeAny n =>
      match lookupParam params n with
      | some (.texts types) => some (types.contains row.type)
      | _ => none

def evaluate (params : List Param) (row : EventColumns) (clause : List (Token Atom)) :
    Option Bool := do
  (← parse clause).eval (Atom.holds params row)

/-- The placeholders of a condition, from left to right. -/
def placeholders (clause : List (Token Atom)) : List ℕ :=
  clause.filterMap fun
    | .atom (.tagsContain n) => some n
    | .atom (.typeAny n) => some n
    | _ => none

mutual

/-- No alternative is missing: `queryItems` throws on an empty array. -/
def Alternatives : EventCriteria → Prop
  | .tags _ => True
  | .anyTag => True
  | .typeRestricted inner _ => Alternatives inner
  | .either criteria => criteria ≠ [] ∧ AllAlternatives criteria

def AllAlternatives : List EventCriteria → Prop
  | [] => True
  | c::criteria => Alternatives c ∧ AllAlternatives criteria

end

/-- What is promised of a condition built behind the parameters `before`. -/
structure Built (event : EventMessage P) (before : List Param) (tokens : List (Token Atom))
    (params : List Param) (next : ℕ) (clause : Clause Atom) (accepts : Bool) : Prop where
  reads : Reads tokens clause
  value : ∀ after, clause.eval (Atom.holds (before ++ params ++ after) (columnsOf event)) =
    some accepts
  next_eq : next = before.length + 1 + params.length
  numbered : placeholders tokens = List.range' (before.length + 1) params.length

theorem lookupParam_append (before after : List Param) (param : Param) :
    lookupParam (before ++ param::after) (before.length + 1) = some param := by
  unfold lookupParam
  rw [if_neg (Nat.succ_ne_zero _), Nat.add_sub_cancel, List.getElem?_append_right (le_refl _),
    Nat.sub_self]
  rfl

theorem placeholders_append (tokens rest : List (Token Atom)) :
    placeholders (tokens ++ rest) = placeholders tokens ++ placeholders rest :=
  List.filterMap_append

theorem placeholders_parenthesised (tokens : List (Token Atom)) :
    placeholders (parenthesised tokens) = placeholders tokens := by
  change placeholders (tokens ++ [.closeParen]) = _
  rw [placeholders_append]
  exact List.append_nil _

theorem placeholders_disjunction (parts : List (List (Token Atom))) :
    placeholders (disjunction parts) = parts.flatMap placeholders := by
  induction parts with
  | nil => rfl
  | cons part parts ih =>
      cases parts with
      | nil => exact (List.append_nil _).symm
      | cons next parts =>
          change placeholders (part ++ .or::disjunction (next::parts)) = _
          rw [placeholders_append, List.flatMap_cons, ← ih]
          rfl

variable {event : EventMessage P}

theorem tags_hold (tags : List Tag) (before after : List Param) :
    Atom.holds (before ++ [.texts (tags.map fun t => encodeTag t.key t.value)] ++ after)
      (columnsOf event) (.tagsContain (before.length + 1)) =
        some (matchesWhere event (.tags tags)) := by
  have hlookup :=
    lookupParam_append before after (.texts (tags.map fun t => encodeTag t.key t.value))
  rw [List.append_assoc, List.singleton_append]
  simp only [Atom.holds, hlookup]
  rw [List.all_map, matchesWhere]
  rfl

/-- Restricting to types adds one comparison and one parameter. -/
theorem Built.restrict {before : List Param} {tokens : List (Token Atom)} {params : List Param}
    {next : ℕ} {clause : Clause Atom} {accepts : Bool}
    (h : Built event before tokens params next clause accepts) (types : List String) :
    Built event before (parenthesised tokens ++ [.and, .atom (.typeAny next)])
      (params ++ [.texts types]) (next + 1) (.and clause (.atom (.typeAny next)))
      (accepts && types.contains (qualifiedNameToString event.name)) where
  reads := h.reads.and_atom _
  value := by
    intro after
    have hinner := h.value (.texts types::after)
    have hparams : before ++ (params ++ [.texts types]) ++ after =
        before ++ params ++ .texts types::after := by
      simp only [List.append_assoc, List.singleton_append]
    have htype : Atom.holds (before ++ params ++ .texts types::after) (columnsOf event)
        (.typeAny next) = some (types.contains (qualifiedNameToString event.name)) := by
      have hlookup := lookupParam_append (before ++ params) after (.texts types)
      rw [List.length_append, Nat.add_right_comm, ← h.next_eq] at hlookup
      simp only [Atom.holds, hlookup]
      rfl
    rw [hparams]
    unfold Clause.eval
    rw [hinner]
    change (do return accepts && (← Atom.holds _ _ (.typeAny next))) = _
    rw [htype]
    rfl
  next_eq := by
    rw [h.next_eq, List.length_append, List.length_singleton]
    omega
  numbered := by
    rw [placeholders_append, placeholders_parenthesised, h.numbered, List.length_append,
      List.length_singleton, List.range'_concat, h.next_eq, Nat.one_mul]
    rfl

/-- What is promised of the alternatives built behind the parameters `before`. -/
structure BuiltParts (event : EventMessage P) (before : List Param)
    (built : List (List (Token Atom)) × List Param × ℕ)
    (parts : List (List (Token Atom) × Clause Atom)) (accepts : List Bool) : Prop where
  tokens : built.1 = parts.map fun part => parenthesised part.1
  reads : ∀ part ∈ parts, Reads part.1 part.2
  values : ∀ after, List.Forall₂ (fun part accept =>
    part.2.eval (Atom.holds (before ++ built.2.1 ++ after) (columnsOf event)) =
      some accept) parts accepts
  next_eq : built.2.2 = before.length + 1 + built.2.1.length
  numbered : built.1.flatMap placeholders = List.range' (before.length + 1) built.2.1.length

/-- One alternative more in front. -/
theorem Built.cons {before : List Param} {tokens : List (Token Atom)} {params : List Param}
    {next : ℕ} {clause : Clause Atom} {accepts : Bool}
    (h : Built event before tokens params next clause accepts)
    {rest : List (List (Token Atom)) × List Param × ℕ}
    {parts : List (List (Token Atom) × Clause Atom)} {others : List Bool}
    (hrest : BuiltParts event (before ++ params) rest parts others) :
    BuiltParts event before (parenthesised tokens::rest.1, params ++ rest.2.1, rest.2.2)
      ((tokens, clause)::parts) (accepts::others) where
  tokens := by rw [hrest.tokens, List.map_cons]
  reads := by
    intro part hpart
    rcases List.mem_cons.mp hpart with rfl | hmem
    · exact h.reads
    · exact hrest.reads part hmem
  values := by
    intro after
    have hfirst := h.value (rest.2.1 ++ after)
    have hothers := hrest.values after
    rw [← List.append_assoc] at hfirst
    rw [← List.append_assoc]
    exact .cons hfirst hothers
  next_eq := by
    rw [hrest.next_eq, List.length_append, List.length_append]
    omega
  numbered := by
    change (parenthesised tokens::rest.1).flatMap placeholders =
      List.range' (before.length + 1) (params ++ rest.2.1).length
    rw [List.flatMap_cons, placeholders_parenthesised, h.numbered, hrest.numbered,
      List.length_append, List.length_append, Nat.add_right_comm, List.range'_append_1]

/-- The alternatives with OR between them. -/
theorem BuiltParts.disjunction {before : List Param}
    {built : List (List (Token Atom)) × List Param × ℕ}
    {parts : List (List (Token Atom) × Clause Atom)} {accept : Bool} {accepts : List Bool}
    (h : BuiltParts event before built parts (accept::accepts)) :
    ∃ clause, Built event before (disjunction built.1) built.2.1 built.2.2 clause
      ((accept::accepts).any id) := by
  cases parts with
  | nil => cases h.values []
  | cons part parts =>
      refine ⟨parts.foldl (fun clause p => .or clause p.2) part.2, ?_, ?_, h.next_eq, ?_⟩
      · rw [h.tokens]
        exact reads_disjunction (h.reads part List.mem_cons_self)
          fun p hp => h.reads p (List.mem_cons_of_mem _ hp)
      · intro after
        obtain ⟨hfirst, hrest⟩ := List.forall₂_cons.mp (h.values after)
        rw [eval_foldl_or hrest hfirst, List.any_cons]
        rfl
      · rw [placeholders_disjunction, h.numbered]

theorem matchesSome_eq_any (criteria : List EventCriteria) :
    matchesSome event criteria = (criteria.map (matchesWhere event)).any id := by
  induction criteria with
  | nil => rfl
  | cons c criteria ih =>
      rw [matchesSome, ih, List.map_cons, List.any_cons]
      rfl

mutual

/-- Every criteria builds a condition that says what `matchesWhere` says. -/
theorem built_criteria : ∀ (criteria : EventCriteria) (before : List Param), Alternatives criteria →
    ∃ clause, Built event before (buildCriteriaWhere criteria (before.length + 1)).clause
      (buildCriteriaWhere criteria (before.length + 1)).params
      (buildCriteriaWhere criteria (before.length + 1)).nextParamIndex clause
      (matchesWhere event criteria)
  | .anyTag, before, _ =>
      ⟨.atom .cardinality, reads_atom _, fun _ => rfl, rfl, rfl⟩
  | .tags tags, before, _ => by
      unfold buildCriteriaWhere
      cases tags with
      | nil => exact ⟨.atom .true, reads_atom _, fun _ => rfl, rfl, rfl⟩
      | cons t tags =>
          exact ⟨.atom (.tagsContain (before.length + 1)), reads_atom _,
            fun after => tags_hold (t::tags) before after, rfl, rfl⟩
  | .typeRestricted inner types, before, h => by
      obtain ⟨clause, hinner⟩ := built_criteria inner before (by unfold Alternatives at h; exact h)
      refine ⟨.and clause (.atom (.typeAny
        (buildCriteriaWhere inner (before.length + 1)).nextParamIndex)), ?_⟩
      have hbuilt := hinner.restrict types
      rw [buildCriteriaWhere, matchesWhere]
      exact hbuilt
  | .either [], before, h => by
      unfold Alternatives at h
      exact absurd rfl h.1
  | .either (c::criteria), before, h => by
      unfold Alternatives at h
      obtain ⟨parts, hparts⟩ := built_parts (c::criteria) before h.2
      obtain ⟨clause, hbuilt⟩ := hparts.disjunction
      refine ⟨clause, ?_⟩
      rw [buildCriteriaWhere, matchesWhere, matchesSome_eq_any]
      exact hbuilt

theorem built_parts : ∀ (criteria : List EventCriteria) (before : List Param),
    AllAlternatives criteria → ∃ parts, BuiltParts event before
      (buildParts criteria (before.length + 1)) parts (criteria.map (matchesWhere event))
  | [], before, _ => by
      refine ⟨[], rfl, ?_, fun _ => .nil, rfl, rfl⟩
      intro part hpart
      cases hpart
  | c::criteria, before, h => by
      unfold AllAlternatives at h
      obtain ⟨clause, hfirst⟩ := built_criteria c before h.1
      obtain ⟨parts, hrest⟩ := built_parts criteria
        (before ++ (buildCriteriaWhere c (before.length + 1)).params) h.2
      have hcons := hfirst.cons hrest
      rw [List.length_append, Nat.add_right_comm, ← hfirst.next_eq] at hcons
      rw [buildParts, List.map_cons]
      exact ⟨_, hcons⟩

end

example :
    render (buildCriteriaWhere (.either [.tags [⟨"a", "1"⟩], .typeRestricted .anyTag ["T"]])
    1).clause =
    "(tags @> $1::text[]) OR ((cardinality(tags) > 0) AND type = ANY($2::text[]))" := by
  decide +kernel

end Kronos.Postgres.CriteriaSql
