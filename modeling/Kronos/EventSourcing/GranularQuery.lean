import Kronos.EventSourcing.DcbQuery
import Mathlib.Data.List.Nodup
import Mathlib.Data.Nat.Notation

/-!
# The query of a state

A state is scoped by one tag record. What it folds is matched, type by type, on
the keys the type shares with the record; the distinct key sets become the items
of the query, a type joins every item whose keys it has, and an item that a
broader one covers is dropped.

A record lists its entries in the order `Object.keys` gives. Of a descriptor the
derivation reads the name and the keys of its tags.
-/
namespace Kronos.EventSourcing

variable {P : Type}

/-- A record of tags: a key has one value. -/
structure TagRecord where
  entries : List (String × String)
  nodup : (entries.map Prod.fst).Nodup

def TagRecord.keys (record : TagRecord) : List String := record.entries.map Prod.fst

/-- `record[key]`, for a key of the record. -/
def TagRecord.value (record : TagRecord) (key : String) : String :=
  ((record.entries.find? fun entry => entry.1 = key).map Prod.snd).getD ""

structure EventDescriptor where
  name : QualifiedName
  tags : List String
  deriving DecidableEq, Repr

def tagKeysOf (descriptor : EventDescriptor) : List String := descriptor.tags

/-- A folded type, with the keys it can be matched on. -/
structure Fold where
  type : String
  shared : List String
  deriving DecidableEq, Repr

def formatKeys (keys : List String) : String :=
  if keys.isEmpty then "no tags" else "\x7b " ++ ", ".intercalate keys ++ " \x7d"

def sharedKeys (record : TagRecord) (descriptor : EventDescriptor) : List String :=
  record.keys.filter fun key => (tagKeysOf descriptor).contains key

def foldOf (label : String) (record : TagRecord) (descriptor : EventDescriptor) :
    Except String Fold :=
  let type := qualifiedNameToString descriptor.name
  let shared := sharedKeys record descriptor
  if shared.isEmpty then
    .error <| "State " ++ label ++ " folds \"" ++ type ++
      "\", but they share no tag key: the state is scoped by " ++ formatKeys record.keys ++
      " and \"" ++ type ++ "\" carries " ++ formatKeys (tagKeysOf descriptor) ++ ". " ++
      "That fold can never fire — no event of that type can match this state's query. " ++
      "Either scope the state by a key that event carries, tag the event with one of the " ++
      "state's keys, or drop the evolver."
  else .ok ⟨type, shared⟩

/-- Key-list equality. -/
def sameKeys (a b : List String) : Bool :=
  a.length == b.length && (a.zip b).all fun pair => pair.1 == pair.2

/-- Is every key of `subset` present in `of`? -/
def isSubset (subset of : List String) : Bool := subset.all fun key => of.contains key

/-- The distinct key sets, in first-seen order. -/
def candidatesOf (folds : List Fold) : List (List String) :=
  folds.foldl (fun candidates fold =>
    if candidates.any fun c => sameKeys c fold.shared then candidates
    else candidates ++ [fold.shared]) []

def itemOf (record : TagRecord) (folds : List Fold) (keys : List String) : QueryItem where
  tags := some (keys.map fun key => (key, record.value key))
  types := some ((((folds.filter fun f => isSubset keys f.shared).map Fold.type).eraseDups).map
    TypeName.string)

/-- A sibling of fewer keys has every type of the item. -/
def covers (other : QueryItem) (otherKeys : List String) (item : QueryItem) (keys : List String) :
    Bool :=
  decide (otherKeys.length < keys.length) && isSubset otherKeys keys &&
    (item.types.getD []).all fun type => (other.types.getD []).contains type

def itemsOf (record : TagRecord) (folds : List Fold) : List QueryItem :=
  (candidatesOf folds).map (itemOf record folds)

/-- The items no other item covers. -/
def keptOf (items : List QueryItem) (candidates : List (List String)) : List QueryItem :=
  let indexed := (items.zip candidates).zipIdx
  (indexed.filter fun a => !indexed.any fun b =>
    decide (a.2 ≠ b.2) && covers b.1.1 b.1.2 a.1.1 a.1.2).map fun a => a.1.1

/-- `kept.length === 1 ? kept[0]! : kept`. -/
def queryOf : List QueryItem → EventQuery
  | [item] => .item item
  | items => .items items

def deriveGranularQuery (label : String) (record : TagRecord) (evolvers : List EventDescriptor) :
    Except String EventQuery :=
  if evolvers.isEmpty then
    if record.keys.isEmpty then
      .error <| "State " ++ label ++
        " has neither tags nor evolvers, so its query would match EVERY event in the store. " ++
        "Give it a tag record that scopes it, or evolvers that name the event types it folds."
    else .ok (.item ⟨some record.entries, none⟩)
  else do
    let folds ← evolvers.mapM (foldOf label record)
    return queryOf (keptOf (itemsOf record folds) (candidatesOf folds))

/-! ## Keys and candidates -/

theorem sameKeys_iff {a b : List String} : sameKeys a b = true ↔ a = b := by
  induction a generalizing b with
  | nil =>
      cases b with
      | nil => simp [sameKeys]
      | cons y b => simp [sameKeys]
  | cons x a ih =>
      cases b with
      | nil => simp [sameKeys]
      | cons y b =>
          rw [List.cons.injEq, ← ih]
          simp only [sameKeys, List.length_cons, List.zip_cons_cons, List.all_cons,
            Bool.and_eq_true, beq_iff_eq, Nat.add_right_cancel_iff]
          tauto

theorem isSubset_iff {subset of : List String} : isSubset subset of = true ↔ subset ⊆ of := by
  simp [isSubset, List.subset_def]

/-- The candidates are the key sets of the folds. -/
theorem mem_candidatesOf {folds : List Fold} {keys : List String} :
    keys ∈ candidatesOf folds ↔ ∃ f ∈ folds, f.shared = keys := by
  suffices h : ∀ candidates : List (List String),
      keys ∈ folds.foldl (fun candidates fold =>
        if candidates.any fun c => sameKeys c fold.shared then candidates
        else candidates ++ [fold.shared]) candidates ↔
      keys ∈ candidates ∨ ∃ f ∈ folds, f.shared = keys by
    simpa [candidatesOf] using h []
  induction folds with
  | nil => simp
  | cons fold folds ih =>
      intro candidates
      rw [List.foldl_cons, ih]
      split_ifs with hseen
      · -- a set that was seen before is among the candidates already
        have hmem : fold.shared ∈ candidates := by
          obtain ⟨c, hc, hsame⟩ := List.any_eq_true.mp hseen
          rw [← sameKeys_iff.mp hsame]
          exact hc
        constructor
        · rintro (h | ⟨f, hf, rfl⟩)
          · exact .inl h
          · exact .inr ⟨f, List.mem_cons_of_mem _ hf, rfl⟩
        · rintro (h | ⟨f, hf, rfl⟩)
          · exact .inl h
          · rcases List.mem_cons.mp hf with rfl | hf
            · exact .inl hmem
            · exact .inr ⟨f, hf, rfl⟩
      · rw [List.mem_append, List.mem_singleton]
        constructor
        · rintro ((h | rfl) | ⟨f, hf, rfl⟩)
          · exact .inl h
          · exact .inr ⟨fold, List.mem_cons_self, rfl⟩
          · exact .inr ⟨f, List.mem_cons_of_mem _ hf, rfl⟩
        · rintro (h | ⟨f, hf, rfl⟩)
          · exact .inl (.inl h)
          · rcases List.mem_cons.mp hf with rfl | hf
            · exact .inl (.inr rfl)
            · exact .inr ⟨f, hf, rfl⟩

/-! ## What an item matches -/

/-- An event carries the record's tags on these keys. -/
def Carries (event : EventMessage P) (record : TagRecord) (keys : List String) : Prop :=
  ∀ key ∈ keys, (⟨key, record.value key⟩ : Tag) ∈ event.tags

theorem mem_types_itemOf {record : TagRecord} {folds : List Fold} {keys : List String}
    {type : TypeName} : type ∈ (itemOf record folds keys).types.getD [] ↔
      ∃ f ∈ folds, keys ⊆ f.shared ∧ type = .string f.type := by
  simp only [itemOf, Option.getD_some, List.mem_map, List.mem_eraseDups, List.mem_filter,
    isSubset_iff]
  constructor
  · rintro ⟨name, ⟨f, ⟨hf, hsub⟩, rfl⟩, rfl⟩
    exact ⟨f, hf, hsub, rfl⟩
  · rintro ⟨f, hf, hsub, rfl⟩
    exact ⟨f.type, ⟨f, ⟨hf, hsub⟩, rfl⟩, rfl⟩

theorem types_itemOf_ne_nil {record : TagRecord} {folds : List Fold} {keys : List String}
    (h : keys ∈ candidatesOf folds) : (itemOf record folds keys).types.getD [] ≠ [] := by
  obtain ⟨f, hf, rfl⟩ := mem_candidatesOf.mp h
  exact List.ne_nil_of_mem (mem_types_itemOf.mpr ⟨f, hf, List.Subset.refl _, rfl⟩)

/-- An item with types matches on its tags and one of the types. -/
theorem matchesItem_of_types {event : EventMessage P} {item : QueryItem}
    (h : item.types.getD [] ≠ []) : matchesItem event item = true ↔
      (∀ entry ∈ item.tags.getD [], (⟨entry.1, entry.2⟩ : Tag) ∈ event.tags) ∧
        ∃ type ∈ item.types.getD [], resolveTypeName type = qualifiedNameToString event.name := by
  obtain ⟨tags, types⟩ := item
  cases types with
  | none => exact absurd rfl h
  | some types =>
      cases types with
      | nil => exact absurd rfl h
      | cons type types =>
          simp only [matchesItem, Option.getD_some, Bool.and_eq_true, List.all_eq_true,
            List.any_eq_true, decide_eq_true_eq, List.contains_iff_mem, List.mem_map,
            exists_eq_right]

theorem matchesItem_itemOf {event : EventMessage P} {record : TagRecord} {folds : List Fold}
    {keys : List String} (h : keys ∈ candidatesOf folds) :
    matchesItem event (itemOf record folds keys) = true ↔
      Carries event record keys ∧
        ∃ f ∈ folds, keys ⊆ f.shared ∧ f.type = qualifiedNameToString event.name := by
  rw [matchesItem_of_types (types_itemOf_ne_nil h)]
  constructor
  · rintro ⟨htags, type, htype, hname⟩
    obtain ⟨f, hf, hsub, rfl⟩ := mem_types_itemOf.mp htype
    refine ⟨?_, f, hf, hsub, hname⟩
    intro key hkey
    exact htags (key, record.value key) (List.mem_map_of_mem hkey)
  · rintro ⟨hcarries, f, hf, hsub, hname⟩
    refine ⟨?_, _, mem_types_itemOf.mpr ⟨f, hf, hsub, rfl⟩, hname⟩
    intro entry hentry
    obtain ⟨key, hkey, rfl⟩ := List.mem_map.mp hentry
    exact hcarries key hkey

/-! ## Dropping covered items -/

theorem covers_iff {other item : QueryItem} {otherKeys keys : List String} :
    covers other otherKeys item keys = true ↔ otherKeys.length < keys.length ∧
      otherKeys ⊆ keys ∧ item.types.getD [] ⊆ other.types.getD [] := by
  simp [covers, isSubset_iff, List.subset_def, and_assoc]

/-- An item is kept when no candidate's item covers it. -/
theorem mem_keptOf {record : TagRecord} {folds : List Fold} {candidates : List (List String)}
    {item : QueryItem} :
    item ∈ keptOf (candidates.map (itemOf record folds)) candidates ↔
      ∃ keys ∈ candidates, item = itemOf record folds keys ∧
        ∀ other ∈ candidates, ¬ covers (itemOf record folds other) other item keys = true := by
  have hzip : (candidates.map (itemOf record folds)).zip candidates =
      candidates.map fun keys => (itemOf record folds keys, keys) := by
    induction candidates with
    | nil => rfl
    | cons keys candidates ih => rw [List.map_cons, List.zip_cons_cons, ih, List.map_cons]
  have hat : ∀ entry : (QueryItem × List String) × ℕ,
      entry ∈ (candidates.map fun keys => (itemOf record folds keys, keys)).zipIdx ↔
        ∃ keys, candidates[entry.2]? = some keys ∧ entry.1 = (itemOf record folds keys, keys) := by
    intro entry
    rw [List.mem_zipIdx_iff_getElem?, List.getElem?_map, Option.map_eq_some_iff]
    simp only [eq_comm]
  simp only [keptOf, hzip, List.mem_map, List.mem_filter, hat, Bool.not_eq_true', List.any_eq_false,
    Bool.and_eq_true, decide_eq_true_eq, not_and]
  constructor
  · rintro ⟨⟨⟨_, keys⟩, i⟩, ⟨⟨_, hkeys, heq⟩, hkept⟩, rfl⟩
    cases heq
    refine ⟨keys, List.mem_of_getElem? hkeys, rfl, ?_⟩
    intro other hother hcovers
    obtain ⟨j, hj⟩ := List.mem_iff_getElem?.mp hother
    apply hkept ((itemOf record folds other, other), j) ⟨other, hj, rfl⟩ ?_ hcovers
    -- an item does not cover itself: it has as many keys as it has
    intro hij
    change i = j at hij
    subst hij
    rw [hkeys] at hj
    cases hj
    exact absurd (covers_iff.mp hcovers).1 (Nat.lt_irrefl _)
  · rintro ⟨keys, hkeys, rfl, hkept⟩
    obtain ⟨i, hi⟩ := List.mem_iff_getElem?.mp hkeys
    refine ⟨((itemOf record folds keys, keys), i), ⟨⟨keys, hi, rfl⟩, ?_⟩, rfl⟩
    rintro ⟨⟨_, other⟩, j⟩ ⟨_, hother, heq⟩ -
    cases heq
    exact hkept other (List.mem_of_getElem? hother)

/-- Every event an item matches is matched by an item that is kept. -/
theorem matches_kept {event : EventMessage P} {record : TagRecord} {folds : List Fold}
    {keys : List String} (hkeys : keys ∈ candidatesOf folds)
    (h : matchesItem event (itemOf record folds keys) = true) :
    ∃ item ∈ keptOf (itemsOf record folds) (candidatesOf folds), matchesItem event item = true := by
  induction hlen : keys.length using Nat.strongRecOn generalizing keys with
  | _ n ih =>
      by_cases hcovered : ∃ other ∈ candidatesOf folds,
          covers (itemOf record folds other) other (itemOf record folds keys) keys = true
      · obtain ⟨other, hother, hcovers⟩ := hcovered
        obtain ⟨hshorter, hsub, htypes⟩ := covers_iff.mp hcovers
        apply ih other.length (hlen ▸ hshorter) hother ?_ rfl
        -- the broader item asks for fewer tags and has the type too
        obtain ⟨hcarries, f, hf, hfsub, hname⟩ := (matchesItem_itemOf hkeys).mp h
        obtain ⟨g, hg, hgsub, hsame⟩ :=
          mem_types_itemOf.mp (htypes (mem_types_itemOf.mpr ⟨f, hf, hfsub, rfl⟩))
        apply (matchesItem_itemOf hother).mpr
        refine ⟨fun key hkey => hcarries key (hsub hkey), g, hg, hgsub, ?_⟩
        rw [← hname, TypeName.string.inj hsame]
      · refine ⟨_, mem_keptOf.mpr ⟨keys, hkeys, rfl, ?_⟩, h⟩
        intro other hother hcovers
        exact hcovered ⟨other, hother, hcovers⟩

/-- Dropping covered items does not change which events match. -/
theorem any_keptOf (event : EventMessage P) (record : TagRecord) (folds : List Fold) :
    (keptOf (itemsOf record folds) (candidatesOf folds)).any (matchesItem event) =
      (itemsOf record folds).any (matchesItem event) := by
  rw [Bool.eq_iff_iff, List.any_eq_true, List.any_eq_true]
  constructor
  · rintro ⟨item, hitem, hmatch⟩
    obtain ⟨keys, hkeys, rfl, -⟩ := mem_keptOf.mp hitem
    exact ⟨_, List.mem_map_of_mem hkeys, hmatch⟩
  · rintro ⟨item, hitem, hmatch⟩
    obtain ⟨keys, hkeys, rfl⟩ := List.mem_map.mp hitem
    exact matches_kept hkeys hmatch

theorem any_itemsOf {event : EventMessage P} {record : TagRecord} {folds : List Fold} :
    (itemsOf record folds).any (matchesItem event) = true ↔
      ∃ f ∈ folds, f.type = qualifiedNameToString event.name ∧
        ∃ u ∈ folds, u.shared ⊆ f.shared ∧ Carries event record u.shared := by
  rw [List.any_eq_true]
  constructor
  · rintro ⟨item, hitem, hmatch⟩
    obtain ⟨keys, hkeys, rfl⟩ := List.mem_map.mp hitem
    obtain ⟨hcarries, f, hf, hsub, hname⟩ := (matchesItem_itemOf hkeys).mp hmatch
    obtain ⟨u, hu, rfl⟩ := mem_candidatesOf.mp hkeys
    exact ⟨f, hf, hname, u, hu, hsub, hcarries⟩
  · rintro ⟨f, hf, hname, u, hu, hsub, hcarries⟩
    have hkeys : u.shared ∈ candidatesOf folds := mem_candidatesOf.mpr ⟨u, hu, rfl⟩
    exact ⟨_, List.mem_map_of_mem hkeys,
      (matchesItem_itemOf hkeys).mpr ⟨hcarries, f, hf, hsub, hname⟩⟩

/-! ## The derivation -/

/-- The fold of a descriptor that shares a key with the record. -/
def foldIn (record : TagRecord) (descriptor : EventDescriptor) : Fold :=
  ⟨qualifiedNameToString descriptor.name, sharedKeys record descriptor⟩

theorem foldOf_eq_ok {label : String} {record : TagRecord} {d : EventDescriptor} {f : Fold} :
    foldOf label record d = .ok f ↔ sharedKeys record d ≠ [] ∧ f = foldIn record d := by
  unfold foldOf
  by_cases hempty : sharedKeys record d = []
  · simp [hempty]
  · simp only [List.isEmpty_iff, hempty, if_false, Except.ok.injEq, ne_eq, not_false_eq_true,
      true_and, foldIn]
    exact eq_comm

/-- Every type shares a key, and the folds are theirs; or some type shares none. -/
theorem mapM_foldOf (label : String) (record : TagRecord) (evolvers : List EventDescriptor) :
    ((∀ d ∈ evolvers, sharedKeys record d ≠ []) ∧
        evolvers.mapM (foldOf label record) = .ok (evolvers.map (foldIn record))) ∨
      ((∃ d ∈ evolvers, sharedKeys record d = []) ∧
        ∃ message, evolvers.mapM (foldOf label record) = .error message) := by
  by_cases hall : ∀ d ∈ evolvers, sharedKeys record d ≠ []
  · refine .inl ⟨hall, mapM_eq_ok.mpr ?_⟩
    rw [List.forall₂_map_right_iff, List.forall₂_same]
    intro d hd
    exact foldOf_eq_ok.mpr ⟨hall d hd, rfl⟩
  · push Not at hall
    refine .inr ⟨hall, ?_⟩
    cases hmap : evolvers.mapM (foldOf label record) with
    | error message => exact ⟨message, rfl⟩
    | ok folds =>
        obtain ⟨d, hd, hempty⟩ := hall
        obtain ⟨f, -, hok⟩ := exists_of_mem_source hmap hd
        exact absurd hempty (foldOf_eq_ok.mp hok).1

/-- What a fold of the state needs of an event: its type is folded, and it carries
the record's tags on the keys of some folded type that are all keys of its own. -/
def Needed (record : TagRecord) (evolvers : List EventDescriptor) (event : EventMessage P) : Prop :=
  ∃ d ∈ evolvers, qualifiedNameToString d.name = qualifiedNameToString event.name ∧
    ∃ u ∈ evolvers, sharedKeys record u ⊆ sharedKeys record d ∧
      Carries event record (sharedKeys record u)

theorem any_itemsOf_evolvers {event : EventMessage P} {record : TagRecord}
    {evolvers : List EventDescriptor} :
    (itemsOf record (evolvers.map (foldIn record))).any (matchesItem event) = true ↔
      Needed record evolvers event := by
  rw [any_itemsOf]
  simp only [List.mem_map, exists_exists_and_eq_and]
  exact Iff.rfl

/-- An item that was derived: its keys are those of a folded type. -/
theorem keptOf_evolvers {record : TagRecord} {evolvers : List EventDescriptor} {item : QueryItem}
    (h : item ∈ keptOf (itemsOf record (evolvers.map (foldIn record)))
      (candidatesOf (evolvers.map (foldIn record)))) :
    ∃ u ∈ evolvers,
      item.tags = some ((sharedKeys record u).map fun key => (key, record.value key)) ∧
      item.types.getD [] ≠ [] := by
  obtain ⟨keys, hkeys, rfl, -⟩ := mem_keptOf.mp h
  obtain ⟨f, hf, rfl⟩ := mem_candidatesOf.mp hkeys
  obtain ⟨u, hu, rfl⟩ := List.mem_map.mp hf
  exact ⟨u, hu, rfl, types_itemOf_ne_nil hkeys⟩

/-- The keys of a record are not empty texts, and neither are its values. -/
def TagRecord.Filled (record : TagRecord) : Prop :=
  ∀ key ∈ record.keys, key ≠ "" ∧ record.value key ≠ ""

theorem sharedKeys_subset (record : TagRecord) (d : EventDescriptor) :
    sharedKeys record d ⊆ record.keys :=
  fun _ hkey => (List.mem_filter.mp hkey).1

/-- Something is kept: an event with all the tags of the record is matched. -/
theorem keptOf_ne_nil (record : TagRecord) {evolvers : List EventDescriptor} (h : evolvers ≠ []) :
    keptOf (itemsOf record (evolvers.map (foldIn record)))
      (candidatesOf (evolvers.map (foldIn record))) ≠ [] := by
  obtain ⟨d, hd⟩ := List.exists_mem_of_ne_nil evolvers h
  have hneeded : Needed record evolvers
      (⟨d.name, record.keys.map fun key => ⟨key, record.value key⟩, ()⟩ : EventMessage Unit) := by
    refine ⟨d, hd, rfl, d, hd, List.Subset.refl _, ?_⟩
    intro key hkey
    exact List.mem_map_of_mem (sharedKeys_subset record d hkey)
  have hany := any_itemsOf_evolvers.mpr hneeded
  rw [← any_keptOf] at hany
  obtain ⟨item, hitem, -⟩ := List.any_eq_true.mp hany
  exact List.ne_nil_of_mem hitem

theorem queryItems_queryOf {items : List QueryItem} (h : items ≠ []) :
    queryItems (queryOf items) = .ok items := by
  match items with
  | [] => exact absurd rfl h
  | [item] => rfl
  | item :: next :: items => rfl

/-- With evolvers: the derivation throws, or its items are those that are kept. -/
theorem deriveGranularQuery_cases (label : String) (record : TagRecord)
    {evolvers : List EventDescriptor} (h : evolvers ≠ []) :
    ((∀ d ∈ evolvers, sharedKeys record d ≠ []) ∧
        ∃ query, deriveGranularQuery label record evolvers = .ok query ∧
          queryItems query = .ok (keptOf (itemsOf record (evolvers.map (foldIn record)))
            (candidatesOf (evolvers.map (foldIn record))))) ∨
      ((∃ d ∈ evolvers, sharedKeys record d = []) ∧
        ∃ message, deriveGranularQuery label record evolvers = .error message) := by
  have hne : evolvers.isEmpty = false := by simpa using h
  rcases mapM_foldOf label record evolvers with ⟨hall, hfolds⟩ | ⟨hnone, message, hfolds⟩
  · refine .inl ⟨hall, ?_⟩
    refine ⟨_, ?_, queryItems_queryOf (keptOf_ne_nil record h)⟩
    simp only [deriveGranularQuery, hne, hfolds]
    rfl
  · refine .inr ⟨hnone, message, ?_⟩
    simp only [deriveGranularQuery, hne, hfolds]
    rfl

theorem compileItem_isOk {item : QueryItem}
    (h : ∀ entry ∈ item.tags.getD [], entry.1 ≠ "" ∧ entry.2 ≠ "") :
    ∃ criteria, compileItem item = .ok criteria := by
  have htags : ∃ tags, tagsFromRecord (item.tags.getD []) = .ok tags := by
    apply mapM_isOk
    intro entry hentry
    obtain ⟨hkey, hvalue⟩ := h entry hentry
    exact ⟨⟨entry.1, entry.2⟩, by simp [tag, hkey, hvalue]⟩
  obtain ⟨tags, htags⟩ := htags
  unfold compileItem
  rw [htags]
  match item.types with
  | none => exact ⟨_, rfl⟩
  | some [] => exact ⟨_, rfl⟩
  | some (type :: types) => exact ⟨_, rfl⟩

/-- The query of a state that folds something: derived unless some type shares no
key with the record, never without tags or types, and matching exactly the events
the fold needs, also after the covered items are dropped and after it is compiled. -/
theorem deriveGranularQuery_exact (label : String) (record : TagRecord)
    {evolvers : List EventDescriptor} (h : evolvers ≠ []) :
    ((∃ message, deriveGranularQuery label record evolvers = .error message) ↔
      ∃ d ∈ evolvers, sharedKeys record d = []) ∧
    ∀ query, deriveGranularQuery label record evolvers = .ok query →
      (∃ items, queryItems query = .ok items ∧
        (∀ item ∈ items, item.tags.getD [] ≠ [] ∧ item.types.getD [] ≠ []) ∧
        ∀ event : EventMessage P,
          (items.any (matchesItem event) = true ↔ Needed record evolvers event) ∧
          items.any (matchesItem event) =
            (itemsOf record (evolvers.map (foldIn record))).any (matchesItem event)) ∧
      (∀ criteria, compileQuery query = .ok criteria → ∀ event : EventMessage P,
        (matchesCriteria event criteria = true ↔ Needed record evolvers event)) ∧
      (record.Filled → ∃ criteria, compileQuery query = .ok criteria) := by
  rcases deriveGranularQuery_cases label record h with
    ⟨hall, query, hquery, hitems⟩ | ⟨hnone, message, herror⟩
  · refine ⟨⟨?_, ?_⟩, ?_⟩
    · rintro ⟨message, herror⟩
      rw [hquery] at herror
      cases herror
    · rintro ⟨d, hd, hempty⟩
      exact absurd hempty (hall d hd)
    · intro derived hderived
      rw [hquery] at hderived
      cases hderived
      have hmatch : ∀ event : EventMessage P,
          (keptOf (itemsOf record (evolvers.map (foldIn record)))
          (candidatesOf (evolvers.map (foldIn record)))).any (matchesItem event) = true ↔
            Needed record evolvers event := by
        intro event
        rw [any_keptOf, any_itemsOf_evolvers]
      refine ⟨⟨_, hitems, ?_, fun event => ⟨hmatch event, any_keptOf event record _⟩⟩, ?_, ?_⟩
      · intro item hitem
        obtain ⟨u, hu, htags, htypes⟩ := keptOf_evolvers hitem
        refine ⟨?_, htypes⟩
        rw [htags, Option.getD_some]
        simpa using hall u hu
      · intro criteria hcompile event
        obtain ⟨items, hsame, -, heq⟩ := compileQuery_eq_ok (P := P) hcompile
        rw [hitems] at hsame
        cases hsame
        rw [heq event]
        exact hmatch event
      · intro hfilled
        apply compileQuery_isOk hitems
        intro item hitem
        obtain ⟨u, hu, htags, -⟩ := keptOf_evolvers hitem
        apply compileItem_isOk
        intro entry hentry
        rw [htags, Option.getD_some] at hentry
        obtain ⟨key, hkey, rfl⟩ := List.mem_map.mp hentry
        exact hfilled key (sharedKeys_subset record u hkey)
  · refine ⟨⟨fun _ => hnone, fun _ => ⟨message, herror⟩⟩, ?_⟩
    intro query hquery
    rw [herror] at hquery
    cases hquery

/-- A subscription state: a course event, a student event and one with both keys. -/
def subscriptionRecord : TagRecord := ⟨[("courseId", "cs-101"), ("studentId", "stu-1")], by decide⟩

def subscriptionEvolvers : List EventDescriptor :=
  [⟨⟨"course", "Created"⟩, ["courseId"]⟩, ⟨⟨"faculty", "Enrolled"⟩, ["studentId"]⟩,
    ⟨⟨"course", "Subscribed"⟩, ["courseId", "studentId"]⟩]

/-- Another student's subscription to the course is matched. -/
theorem subscription_exact :
    ∃ query, deriveGranularQuery "Subscription" subscriptionRecord subscriptionEvolvers =
      .ok query ∧
      ∃ criteria, compileQuery query = .ok criteria ∧
        matchesCriteria
          (⟨⟨"course", "Subscribed"⟩, [⟨"courseId", "cs-101"⟩, ⟨"studentId", "stu-2"⟩],
          ()⟩ : EventMessage Unit) criteria = true := by
  obtain ⟨hthrows, hexact⟩ := deriveGranularQuery_exact (P := Unit) "Subscription"
    subscriptionRecord (show subscriptionEvolvers ≠ [] by decide)
  cases hderive : deriveGranularQuery "Subscription" subscriptionRecord subscriptionEvolvers with
  | error message =>
      have hnone := hthrows.mp ⟨message, hderive⟩
      exact absurd hnone (by decide)
  | ok query =>
      obtain ⟨-, hmatch, hcompiles⟩ := hexact query hderive
      obtain ⟨criteria, hcriteria⟩ := hcompiles (by
        show ∀ key ∈ subscriptionRecord.keys, key ≠ "" ∧ subscriptionRecord.value key ≠ ""
        decide)
      refine ⟨query, rfl, criteria, hcriteria, (hmatch criteria hcriteria _).mpr ?_⟩
      refine ⟨⟨⟨"course", "Subscribed"⟩, ["courseId", "studentId"]⟩, by decide, rfl,
        ⟨⟨"course", "Created"⟩, ["courseId"]⟩, by decide, by decide, ?_⟩
      show ∀ key ∈ sharedKeys subscriptionRecord _, (⟨key, subscriptionRecord.value key⟩ : Tag) ∈ _
      decide

end Kronos.EventSourcing
