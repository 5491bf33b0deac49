import Kronos.Postgres.CriteriaSql

/-!
# Criteria on the wire, and the three readings of a query

A KronosDB criterion is any of some names, no names meaning any type, and all of
some tags; a read carries a list of them. What `criteriaToWire` makes of a
compiled query is compared here with the in-memory matcher and with the SQL.
-/
namespace Kronos.KronosDb.NativeEvents
open Kronos.Lib.Condition Kronos.EventSourcing
open Kronos.Postgres.EventStore Kronos.Postgres.CriteriaSql

variable {P : Type}

structure WireCriterion where
  names : List String
  tags : List Tag
  deriving DecidableEq, Repr

mutual

def criteriaToWire : EventCriteria → List WireCriterion
  | .tags tags => [⟨[], tags⟩]
  | .typeRestricted inner types =>
      [⟨types, match inner with
        | .tags tags => tags
        | _ => []⟩]
  | .either criteria => allToWire criteria
  | .anyTag => [⟨[], []⟩]

def allToWire : List EventCriteria → List WireCriterion
  | [] => []
  | c::criteria => criteriaToWire c ++ allToWire criteria

end

/-- What KronosDB makes of a criterion. -/
def WireCriterion.accepts (criterion : WireCriterion) (event : EventMessage P) : Bool :=
  (criterion.names.isEmpty || criterion.names.contains (qualifiedNameToString event.name)) &&
    criterion.tags.all fun t => decide (t ∈ event.tags)

/-- No key of the event's tags has the delimiter in it. -/
def PlainEvent (event : EventMessage P) : Prop := ∀ t ∈ event.tags, '\x1f' ∉ t.key.toList

/-- No tag key of the query has the delimiter in it. -/
def PlainQuery (query : EventQuery) : Prop :=
  ∀ items, queryItems query = .ok items → ∀ item ∈ items, ∀ entry ∈ item.tags.getD [],
    '\x1f' ∉ entry.1.toList

/-- The three readings of a compiled query on one event, and its placeholders. -/
structure Agree (event : EventMessage P) (criteria : EventCriteria) (before after : List Param)
    (built : CriteriaSQL) : Prop where
  sql : evaluate (before ++ built.params ++ after) (columnsOf event) built.clause =
    some (matchesCriteria event criteria)
  wire : (criteriaToWire criteria).any (fun criterion => criterion.accepts event) =
    matchesCriteria event criteria
  next : built.nextParamIndex = before.length + 1 + built.params.length
  numbered : placeholders built.clause = List.range' (before.length + 1) built.params.length
  bound : ∀ k < built.params.length,
    lookupParam (before ++ built.params ++ after) (before.length + 1 + k) = built.params[k]?

variable {event : EventMessage P}

theorem eq_of_append_cons {α : Type} {x : α} {a b c d : List α} (ha : x ∉ a) (hc : x ∉ c)
    (h : a ++ x::b = c ++ x::d) : a = c ∧ b = d := by
  induction a generalizing c with
  | nil =>
      cases c with
      | nil => exact ⟨rfl, (List.cons.inj h).2⟩
      | cons y c =>
          obtain ⟨rfl, -⟩ := List.cons.inj h
          exact absurd List.mem_cons_self hc
  | cons y a ih =>
      cases c with
      | nil =>
          obtain ⟨rfl, -⟩ := List.cons.inj h
          exact absurd List.mem_cons_self ha
      | cons z c =>
          obtain ⟨rfl, htail⟩ := List.cons.inj h
          obtain ⟨rfl, hrest⟩ := ih (fun hx => ha (List.mem_cons_of_mem _ hx))
            (fun hx => hc (List.mem_cons_of_mem _ hx)) htail
          exact ⟨rfl, hrest⟩

/-- Between keys without the delimiter the encoding tells tags apart. -/
theorem encodeTag_injective {t u : Tag} (ht : '\x1f' ∉ t.key.toList) (hu : '\x1f' ∉ u.key.toList)
    (h : encodeTag t.key t.value = encodeTag u.key u.value) : t = u := by
  have hchars := congrArg String.toList h
  unfold encodeTag tagDelimiter at hchars
  simp only [String.toList_append, List.append_assoc] at hchars
  obtain ⟨hkey, hvalue⟩ := eq_of_append_cons ht hu hchars
  cases t
  cases u
  rw [Tag.mk.injEq]
  exact ⟨String.toList_injective hkey, String.toList_injective hvalue⟩

theorem contains_encodedTags (hevent : PlainEvent event) {t : Tag} (ht : '\x1f' ∉ t.key.toList) :
    (encodedTagsOf event).contains (encodeTag t.key t.value) = event.tags.any fun u => u = t := by
  rw [Bool.eq_iff_iff, List.contains_iff_mem, List.any_eq_true]
  constructor
  · intro hmem
    obtain ⟨u, hu, heq⟩ := List.mem_map.mp hmem
    exact ⟨u, hu, decide_eq_true (encodeTag_injective (hevent u hu) ht heq)⟩
  · rintro ⟨u, hu, heq⟩
    rw [← of_decide_eq_true heq]
    exact List.mem_map_of_mem hu

/-- What the stores make of the criteria of one item. -/
structure Readings (event : EventMessage P) (criteria : EventCriteria) : Prop where
  alternatives : Alternatives criteria
  sql : matchesWhere event criteria = matchesCriteria event criteria
  wire : (criteriaToWire criteria).any (fun criterion => criterion.accepts event) =
    matchesCriteria event criteria

theorem readings_item (hevent : PlainEvent event) {item : QueryItem} {criteria : EventCriteria}
    (hplain : ∀ entry ∈ item.tags.getD [], '\x1f' ∉ entry.1.toList)
    (h : compileItem item = .ok criteria) : Readings event criteria := by
  obtain ⟨tags, htags, hcases⟩ := compileItem_eq_ok h
  have hkeys : ∀ t ∈ tags, '\x1f' ∉ t.key.toList := by
    intro t ht
    rw [tagsFromRecord_eq_ok htags] at ht
    obtain ⟨entry, hentry, rfl⟩ := List.mem_map.mp ht
    exact hplain entry hentry
  have hwhere : matchesWhere event (.tags tags) = matchesCriteria event (.tags tags) := by
    rw [matchesWhere, matchesCriteria, Bool.eq_iff_iff, List.all_eq_true, List.all_eq_true]
    refine forall₂_congr ?_
    intro t ht
    rw [contains_encodedTags hevent (hkeys t ht)]
  have hall : (tags.all fun t => decide (t ∈ event.tags)) = matchesCriteria event (.tags tags) := by
    rw [matchesCriteria]
    congr 1
    funext t
    rw [Bool.eq_iff_iff, decide_eq_true_eq, List.any_eq_true]
    constructor
    · intro ht
      exact ⟨t, ht, decide_eq_true rfl⟩
    · rintro ⟨u, hu, heq⟩
      rw [← of_decide_eq_true heq]
      exact hu
  rcases hcases with ⟨rfl, -⟩ | ⟨t, types, -, rfl⟩
  · refine ⟨trivial, hwhere, ?_⟩
    rw [criteriaToWire, List.any_cons, List.any_nil, Bool.or_false, ← hall]
    rfl
  · refine ⟨trivial, ?_, ?_⟩
    · have hrestricted : matchesCriteria event (.typeRestricted (.tags tags)
          ((t::types).map resolveTypeName)) = (matchesCriteria event (.tags tags) &&
            ((t::types).map resolveTypeName).contains (qualifiedNameToString event.name)) := by
        simp only [matchesCriteria]
      rw [matchesWhere, hwhere, hrestricted]
    · rw [criteriaToWire, List.any_cons, List.any_nil, Bool.or_false, matchesCriteria, ← hall,
        Bool.and_comm]
      rfl

/-- The alternatives one by one. -/
theorem readings_all {criteria : List EventCriteria} (h : ∀ c ∈ criteria, Readings event c) :
    AllAlternatives criteria ∧ matchesSome event criteria = matchesEither event criteria ∧
      (allToWire criteria).any (fun criterion => criterion.accepts event) =
        matchesEither event criteria := by
  induction criteria with
  | nil => exact ⟨trivial, rfl, rfl⟩
  | cons c criteria ih =>
      have hc := h c List.mem_cons_self
      obtain ⟨hall, hsome, hwire⟩ := ih fun d hd => h d (List.mem_cons_of_mem _ hd)
      refine ⟨⟨hc.alternatives, hall⟩, ?_, ?_⟩
      · rw [matchesSome, matchesEither, hc.sql, hsome]
      · rw [allToWire, List.any_append, matchesEither, hc.wire, hwire]

theorem readings_either {criteria : List EventCriteria} (hne : criteria ≠ [])
    (h : ∀ c ∈ criteria, Readings event c) : Readings event (.either criteria) := by
  obtain ⟨hall, hsome, hwire⟩ := readings_all h
  refine ⟨⟨hne, hall⟩, ?_, ?_⟩
  · rw [matchesWhere, matchesCriteria, hsome]
  · rw [criteriaToWire, matchesCriteria, hwire]

/-- Every reading of a query agrees with every other on every event, wherever its
SQL stands in a statement. -/
theorem query_interpreters_agree {query : EventQuery} {criteria : EventCriteria}
    (hquery : compileQuery query = .ok criteria) (hplain : PlainQuery query)
    (hevent : PlainEvent event) (before after : List Param) :
    Agree event criteria before after (buildCriteriaWhere criteria (before.length + 1)) := by
  obtain ⟨items, hitems, hcases⟩ := compileQuery_cases hquery
  have hreadings : Readings event criteria := by
    rcases hcases with ⟨item, rfl, hitem⟩ | ⟨cs, hcs, rfl⟩
    · exact readings_item hevent (hplain _ hitems item (List.mem_singleton_self _)) hitem
    · refine readings_either ?_ ?_
      · rintro rfl
        exact queryItems_ne_nil hitems (List.forall₂_nil_right_iff.mp (mapM_eq_ok.mp hcs))
      · intro c hc
        obtain ⟨item, hitem, hok⟩ := exists_of_mem_result hcs hc
        exact readings_item hevent (hplain _ hitems item hitem) hok
  obtain ⟨clause, hbuilt⟩ := @built_criteria P event criteria before hreadings.alternatives
  refine ⟨?_, hreadings.wire, hbuilt.next_eq, hbuilt.numbered, ?_⟩
  · unfold evaluate
    rw [hbuilt.reads.parse]
    exact (hbuilt.value after).trans (congrArg some hreadings.sql)
  · intro k hk
    unfold lookupParam
    rw [if_neg (by omega), List.append_assoc, List.getElem?_append_right (by omega),
      List.getElem?_append_left (by omega)]
    congr 1
    omega

/-- Two items, one of them with a type, behind one parameter. -/
def openOrders : EventQuery :=
  .items [⟨some [("order", "1")], some [.string "shop.Opened"]⟩, ⟨some [("customer", "7")], none⟩]

def openedOrder : EventMessage Unit := ⟨⟨"shop", "Opened"⟩, [⟨"order", "1"⟩], ()⟩

theorem query_interpreters_agree_twoItems : ∃ criteria, compileQuery openOrders = .ok criteria ∧
    matchesCriteria openedOrder criteria = true ∧
      Agree openedOrder criteria [.bigint 0] [] (buildCriteriaWhere criteria 2) := by
  have hquery : compileQuery openOrders = .ok _ := rfl
  refine ⟨_, hquery, by decide, query_interpreters_agree hquery ?_ ?_ [.bigint 0] []⟩
  · intro items hitems item hitem
    cases hitems
    rcases List.mem_cons.mp hitem with rfl | hmem
    · decide
    · rw [List.mem_singleton.mp hmem]
      decide
  · unfold PlainEvent
    decide

/-- A key with the delimiter in it, and an event whose value has it. -/
def delimiterKey : EventQuery := .item ⟨some [("a\x1fb", "c")], none⟩

def delimiterValue : EventMessage Unit := ⟨⟨"shop", "Opened"⟩, [⟨"a", "b\x1fc"⟩], ()⟩

/-- The SQL takes a tag for another one whose key has the delimiter in it. -/
theorem query_interpreters_disagree : PlainEvent delimiterValue ∧
    ∃ criteria, compileQuery delimiterKey = .ok criteria ∧
      matchesCriteria delimiterValue criteria = false ∧
        evaluate (buildCriteriaWhere criteria 1).params (columnsOf delimiterValue)
          (buildCriteriaWhere criteria 1).clause = some true := by
  refine ⟨?_, _, rfl, by decide, by decide⟩
  unfold PlainEvent
  decide

end Kronos.KronosDb.NativeEvents
