import Mathlib.Data.List.Forall2

/-!
# Queries over tags and types

A query is one item or several that are ORed. An item asks for all of its tags
and any of its types. A store compiles the query to criteria and matches events
against those; `compileQuery_eq_ok` says that this is the reading above.

An array with no items and a tag with an empty key or value are errors, and so
are the reads and appends that carry them. What the types of the source exclude
(a query that is no object, nested arrays) is left out.
-/
namespace Kronos.EventSourcing

structure QualifiedName where
  nspace : String
  name : String
  deriving DecidableEq, Repr

def qualifiedNameToString (qn : QualifiedName) : String := qn.nspace ++ "." ++ qn.name

structure Tag where
  key : String
  value : String
  deriving DecidableEq, Repr

def tag (key value : String) : Except String Tag :=
  if key = "" then .error "Tag key must not be empty"
  else if value = "" then .error "Tag value must not be empty"
  else .ok ⟨key, value⟩

def tagsFromRecord (record : List (String × String)) : Except String (List Tag) :=
  record.mapM fun entry => tag entry.1 entry.2

/-- How a query may name an event type. -/
inductive TypeName where
  | event (name : QualifiedName)
  | qualified (name : QualifiedName)
  | string (name : String)
  deriving DecidableEq, Repr

def resolveTypeName : TypeName → String
  | .event name => qualifiedNameToString name
  | .qualified name => qualifiedNameToString name
  | .string name => name

structure QueryItem where
  tags : Option (List (String × String))
  types : Option (List TypeName)
  deriving DecidableEq, Repr

inductive EventQuery where
  | item (item : QueryItem)
  | items (items : List QueryItem)
  deriving DecidableEq, Repr

def queryItems : EventQuery → Except String (List QueryItem)
  | .item item => .ok [item]
  | .items [] => .error <|
      "An event query cannot be an EMPTY array: the items of a query are ORed, so zero items " ++
      "matches no event at all. Pass the one item you mean — `\x7b tags: \x7b … \x7d \x7d` — or, to match " ++
      "every event, an item with no tags: `\x7b\x7d`."
  | .items items => .ok items

inductive EventCriteria where
  | tags (tags : List Tag)
  | anyTag
  | typeRestricted (inner : EventCriteria) (types : List String)
  | either (criteria : List EventCriteria)

def compileItem (item : QueryItem) : Except String EventCriteria := do
  let inner := EventCriteria.tags (← tagsFromRecord (item.tags.getD []))
  match item.types with
  | none => return inner
  | some [] => return inner
  | some types => return .typeRestricted inner (types.map resolveTypeName)

def compileQuery (query : EventQuery) : Except String EventCriteria := do
  match ← queryItems query with
  | [item] => compileItem item
  | items => return .either (← items.mapM compileItem)

/-- An event as the stores match it; `content` is everything else. -/
structure EventMessage (P : Type) where
  name : QualifiedName
  tags : List Tag
  content : P
  deriving DecidableEq, Repr

variable {P : Type}

mutual

def matchesCriteria (event : EventMessage P) : EventCriteria → Bool
  | .tags tags => tags.all fun required => event.tags.any fun t => t = required
  | .anyTag => !event.tags.isEmpty
  | .typeRestricted inner types =>
      matchesCriteria event inner && types.contains (qualifiedNameToString event.name)
  | .either criteria => matchesEither event criteria

def matchesEither (event : EventMessage P) : List EventCriteria → Bool
  | [] => false
  | c::criteria => matchesCriteria event c || matchesEither event criteria

end

/-- Whether an event matches one item: all of its tags, any of its types. -/
def matchesItem (event : EventMessage P) (item : QueryItem) : Bool :=
  ((item.tags.getD []).all fun entry => event.tags.any fun t => t = ⟨entry.1, entry.2⟩) &&
    match item.types with
    | none => true
    | some [] => true
    | some types => (types.map resolveTypeName).contains (qualifiedNameToString event.name)

theorem matchesEither_eq_any (event : EventMessage P) (criteria : List EventCriteria) :
    matchesEither event criteria = criteria.any (matchesCriteria event) := by
  induction criteria with
  | nil => rfl
  | cons c criteria ih => rw [matchesEither, ih, List.any_cons]

/-- A traversal that throws stops at the first error. -/
theorem mapM_eq_ok {α β ε : Type} {f : α → Except ε β} {l : List α} {bs : List β} :
    l.mapM f = .ok bs ↔ List.Forall₂ (fun a b => f a = .ok b) l bs := by
  induction l generalizing bs with
  | nil =>
      rw [List.mapM_nil, List.forall₂_nil_left_iff]
      exact ⟨fun h => (Except.ok.inj h).symm, fun h => congrArg Except.ok h.symm⟩
  | cons a l ih =>
      rw [List.mapM_cons, List.forall₂_cons_left_iff]
      cases ha : f a with
      | error e =>
          constructor
          · intro h
            cases h
          · intro h
            obtain ⟨b, bs', hb, -⟩ := h
            cases hb
      | ok b =>
          cases hl : l.mapM f with
          | error e =>
              constructor
              · intro h
                cases h
              · intro h
                obtain ⟨b', bs', -, hrest, -⟩ := h
                rw [ih.mpr hrest] at hl
                cases hl
          | ok rest =>
              constructor
              · intro h
                exact ⟨b, rest, rfl, ih.mp hl, (Except.ok.inj h).symm⟩
              · intro h
                obtain ⟨b', bs', hb, hrest, rfl⟩ := h
                cases hb
                rw [ih.mpr hrest] at hl
                cases hl
                rfl

theorem tag_eq_ok {key value : String} {t : Tag} (h : tag key value = .ok t) :
    t = ⟨key, value⟩ := by
  unfold tag at h
  split_ifs at h
  exact (Except.ok.inj h).symm

theorem tagsFromRecord_eq_ok {record : List (String × String)} {tags : List Tag}
    (h : tagsFromRecord record = .ok tags) : tags = record.map fun entry => ⟨entry.1, entry.2⟩ := by
  have htags := mapM_eq_ok.mp h
  induction htags with
  | nil => rfl
  | cons hentry hrest ih => rw [tag_eq_ok hentry, ih (mapM_eq_ok.mpr hrest), List.map_cons]

/-- What an item compiles to. -/
theorem compileItem_eq_ok {item : QueryItem} {criteria : EventCriteria}
    (h : compileItem item = .ok criteria) :
    ∃ tags, tagsFromRecord (item.tags.getD []) = .ok tags ∧
      ((criteria = .tags tags ∧ (item.types = none ∨ item.types = some [])) ∨
        ∃ t types, item.types = some (t::types) ∧
          criteria = .typeRestricted (.tags tags) ((t::types).map resolveTypeName)) := by
  unfold compileItem at h
  cases htags : tagsFromRecord (item.tags.getD []) with
  | error e =>
      rw [htags] at h
      cases h
  | ok tags =>
      rw [htags] at h
      refine ⟨tags, rfl, ?_⟩
      cases htypes : item.types with
      | none =>
          rw [htypes] at h
          exact Or.inl ⟨(Except.ok.inj h).symm, Or.inl rfl⟩
      | some types =>
          rw [htypes] at h
          cases types with
          | nil => exact Or.inl ⟨(Except.ok.inj h).symm, Or.inr rfl⟩
          | cons t types => exact Or.inr ⟨t, types, rfl, (Except.ok.inj h).symm⟩

theorem matches_compileItem {event : EventMessage P} {item : QueryItem} {criteria : EventCriteria}
    (h : compileItem item = .ok criteria) :
    matchesCriteria event criteria = matchesItem event item := by
  obtain ⟨tags, htags, hcases⟩ := compileItem_eq_ok h
  have hinner : matchesCriteria event (.tags tags) =
      (item.tags.getD []).all fun entry => event.tags.any fun t => t = ⟨entry.1, entry.2⟩ := by
    rw [matchesCriteria, tagsFromRecord_eq_ok htags, List.all_map]
    rfl
  unfold matchesItem
  rcases hcases with ⟨rfl, htypes | htypes⟩ | ⟨t, types, htypes, rfl⟩
  · rw [htypes, hinner, Bool.and_true]
  · rw [htypes, hinner, Bool.and_true]
  · rw [htypes, matchesCriteria, hinner]

theorem queryItems_ne_nil {query : EventQuery} {items : List QueryItem}
    (h : queryItems query = .ok items) : items ≠ [] := by
  unfold queryItems at h
  split at h
  · cases h
    exact List.cons_ne_nil _ _
  · cases h
  · rename_i hne
    cases h
    intro hnil
    exact hne (by rw [hnil])

theorem queryItems_of_ne_nil {items : List QueryItem} (h : items ≠ []) :
    queryItems (.items items) = .ok items := by
  cases items with
  | nil => exact absurd rfl h
  | cons item items => rfl

theorem any_compiled {event : EventMessage P} {items : List QueryItem}
    {criteria : List EventCriteria} (h : items.mapM compileItem = .ok criteria) :
    criteria.any (matchesCriteria event) = items.any (matchesItem event) := by
  have hall := mapM_eq_ok.mp h
  induction hall with
  | nil => rfl
  | cons hitem hrest ih =>
      rw [List.any_cons, List.any_cons, matches_compileItem hitem, ih (mapM_eq_ok.mpr hrest)]

theorem mapM_isOk {α β ε : Type} {f : α → Except ε β} {l : List α}
    (h : ∀ a ∈ l, ∃ b, f a = .ok b) : ∃ bs, l.mapM f = .ok bs := by
  induction l with
  | nil => exact ⟨[], rfl⟩
  | cons a l ih =>
      obtain ⟨b, hb⟩ := h a List.mem_cons_self
      obtain ⟨bs, hbs⟩ := ih fun x hx => h x (List.mem_cons_of_mem a hx)
      exact ⟨b::bs, mapM_eq_ok.mpr (.cons hb (mapM_eq_ok.mp hbs))⟩

theorem exists_of_mem_source {α β ε : Type} {f : α → Except ε β} {l : List α} {bs : List β} {a : α}
    (h : l.mapM f = .ok bs) (ha : a ∈ l) : ∃ b ∈ bs, f a = .ok b := by
  have hall := mapM_eq_ok.mp h
  induction hall with
  | nil => cases ha
  | cons hb hrest ih =>
      rcases List.mem_cons.mp ha with rfl | ha
      · exact ⟨_, List.mem_cons_self, hb⟩
      · obtain ⟨b, hmem, hok⟩ := ih (mapM_eq_ok.mpr hrest) ha
        exact ⟨b, List.mem_cons_of_mem _ hmem, hok⟩

theorem exists_of_mem_result {α β ε : Type} {f : α → Except ε β} {l : List α} {bs : List β} {b : β}
    (h : l.mapM f = .ok bs) (hb : b ∈ bs) : ∃ a ∈ l, f a = .ok b := by
  have hall := mapM_eq_ok.mp h
  induction hall with
  | nil => cases hb
  | cons ha hrest ih =>
      rcases List.mem_cons.mp hb with rfl | hb
      · exact ⟨_, List.mem_cons_self, ha⟩
      · obtain ⟨a, hmem, hok⟩ := ih (mapM_eq_ok.mpr hrest) hb
        exact ⟨a, List.mem_cons_of_mem _ hmem, hok⟩

/-- What a query compiles to: its one item, or all of them. -/
theorem compileQuery_cases {query : EventQuery} {criteria : EventCriteria}
    (h : compileQuery query = .ok criteria) :
    ∃ items, queryItems query = .ok items ∧
      ((∃ item, items = [item] ∧ compileItem item = .ok criteria) ∨
        ∃ cs, items.mapM compileItem = .ok cs ∧ criteria = .either cs) := by
  unfold compileQuery at h
  cases hitems : queryItems query with
  | error e =>
      rw [hitems] at h
      cases h
  | ok items =>
      rw [hitems] at h
      refine ⟨items, rfl, ?_⟩
      change (match items with
        | [item] => compileItem item
        | items => do return .either (← items.mapM compileItem)) = _ at h
      split at h
      · rename_i item
        exact Or.inl ⟨item, rfl, h⟩
      · cases hall : items.mapM compileItem with
        | error e =>
            rw [hall] at h
            cases h
        | ok cs =>
            rw [hall] at h
            exact Or.inr ⟨cs, rfl, (Except.ok.inj h).symm⟩

/-- A query that compiles: its items are there, and each compiles. -/
theorem compileQuery_eq_ok {query : EventQuery} {criteria : EventCriteria}
    (h : compileQuery query = .ok criteria) :
    ∃ items, queryItems query = .ok items ∧ (∀ item ∈ items, ∃ c, compileItem item = .ok c) ∧
      ∀ event : EventMessage P, matchesCriteria event criteria = items.any (matchesItem event) := by
  obtain ⟨items, hitems, ⟨item, rfl, hitem⟩ | ⟨cs, hall, rfl⟩⟩ := compileQuery_cases h
  · refine ⟨_, hitems, fun x hx => ⟨criteria, by rw [List.mem_singleton.mp hx, hitem]⟩, ?_⟩
    intro event
    rw [matches_compileItem hitem, List.any_cons, List.any_nil, Bool.or_false]
  · refine ⟨items, hitems, ?_, ?_⟩
    · intro item hitem
      obtain ⟨c, -, hc⟩ := exists_of_mem_source hall hitem
      exact ⟨c, hc⟩
    · intro event
      rw [matchesCriteria, matchesEither_eq_any, any_compiled hall]

theorem compileQuery_isOk {query : EventQuery} {items : List QueryItem}
    (hitems : queryItems query = .ok items) (h : ∀ item ∈ items, ∃ c, compileItem item = .ok c) :
    ∃ criteria, compileQuery query = .ok criteria := by
  unfold compileQuery
  rw [hitems]
  change ∃ criteria, (match items with
    | [item] => compileItem item
    | items => do return .either (← items.mapM compileItem)) = .ok criteria
  split
  · rename_i item
    exact h item (List.mem_singleton_self item)
  · obtain ⟨cs, hcs⟩ := mapM_isOk h
    rw [hcs]
    exact ⟨_, rfl⟩

end Kronos.EventSourcing
