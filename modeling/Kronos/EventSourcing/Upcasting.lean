import Kronos.EventSourcing.InMemoryStreams

/-!
# Upcasting at the log boundary

An upcaster is a total function on events, run on whatever the wrapped store
hands back. It may rename types, and the log keeps the names events were written
under: `open` rewrites the types of a query to the stored names, or drops them
when those are not given, and the reader discards what it did not ask for.
`source` hands the query on as it is.

The wrapped store is the in-memory one. Its write members pass through untouched
and are left out.
-/
namespace Kronos.EventSourcing.Upcasting

variable {P : Type}

/-- The item as the log understands it: no types means any type. -/
def storedItem (storedTypes : Option (String → List String)) (item : QueryItem) : QueryItem :=
  match item.types with
  | none => item
  | some [] => item
  | some types =>
      match storedTypes with
      | none => { item with types := none }
      | some storedTypes =>
          let stored := (types.flatMap fun type => storedTypes (resolveTypeName type)).eraseDups
          { item with types := some (stored.map .string) }

def storedQuery (storedTypes : Option (String → List String)) (query : EventQuery) :
    Except String EventQuery := do
  match (← queryItems query).map (storedItem storedTypes) with
  | [item] => return .item item
  | items => return .items items

section Store
variable (upcast : EventMessage P → EventMessage P) (store : InMemoryEventStore P)

def source (query : EventQuery) (start : Option ℕ) : Except String (SourcingResult P) := do
  let result ← store.source query start
  return { result with events := result.events.map upcast }

/-- `open`: the inner stream of the wrapper. -/
def openUpcasting (storedTypes : Option (String → List String)) (query : Option EventQuery)
    (position : ℕ) : Except String MessageStream :=
  match query with
  | none => openStream none position
  | some query => do openStream (some (← storedQuery storedTypes query)) position

def lift (item : Entry P) : Entry P := { item with event := upcast item.event }

def next (stream : MessageStream) : Option (Entry P) × MessageStream :=
  ((stream.next store).1.map (lift upcast), (stream.next store).2)

/-- The events of the first `n` calls of `next`. -/
def deliveries (stream : MessageStream) : ℕ → List (EventMessage P)
  | 0 => []
  | n + 1 =>
      match next upcast store stream with
      | (some item, stream) => item.event::deliveries stream n
      | (none, _) => []

/-- The upcast of the stored events whose upcast matches, in log order. -/
def upcastMatches (criteria : EventCriteria) : List (EventMessage P) :=
  (store.events.map fun entry => upcast entry.event).filter fun event =>
    matchesCriteria event criteria

/-- Both readers get the events whose upcast matches; a stream has looked at the
whole log once `next` was called as often as the log is long. -/
structure ReadsAlike (storedTypes : Option (String → List String)) (query : EventQuery) : Prop where
  sourced : (do return (← source upcast store query none).events) =
    (do return upcastMatches upcast store (← compileQuery query) : Except String _)
  streamed : ∀ n, store.events.length ≤ n →
    (do
      let criteria ← compileQuery query
      let stream ← openUpcasting storedTypes (some query) 0
      return (deliveries upcast store stream n).filter fun event =>
        matchesCriteria event criteria) =
    (do return upcastMatches upcast store (← compileQuery query) : Except String _)

end Store

/-- An upcaster changes what an event means, not where it lives. -/
def KeepsTags (upcast : EventMessage P → EventMessage P) : Prop :=
  ∀ event, (upcast event).tags = event.tags

/-- The stored names of a type cover every event that upcasts to it. -/
def CorrectTypes (upcast : EventMessage P → EventMessage P)
    (storedTypes : Option (String → List String)) : Prop :=
  ∀ f, storedTypes = some f → ∀ event,
    qualifiedNameToString event.name ∈ f (qualifiedNameToString (upcast event).name)

/-- The event matches as stored exactly when its upcast matches. -/
def MatchesAsStored (upcast : EventMessage P → EventMessage P) (query : EventQuery)
    (event : EventMessage P) : Prop :=
  ∀ criteria, compileQuery query = .ok criteria →
    matchesCriteria event criteria = matchesCriteria (upcast event) criteria

/-- If the upcast of the event matches, some stored item matches the event. -/
def FoundAsStored (upcast : EventMessage P → EventMessage P)
    (storedTypes : Option (String → List String)) (query : EventQuery) (event : EventMessage P) :
    Prop :=
  ∀ criteria items, compileQuery query = .ok criteria → queryItems query = .ok items →
    matchesCriteria (upcast event) criteria = true →
      ∃ item ∈ items, matchesItem event (storedItem storedTypes item) = true

section
variable {upcast : EventMessage P → EventMessage P} {storedTypes : Option (String → List String)}
  {store : InMemoryEventStore P}

/-- The first find of a stream and what is left for it after that. -/
theorem wants_after (h : store.Rising) {stream : MessageStream} {item : Entry P}
    (hfind : store.events.find? stream.wants = some item) :
    store.events.filter stream.wants =
      item::store.events.filter
        ({ stream with cursor := item.position + 1 } : MessageStream).wants := by
  obtain ⟨hwants, before, after, hevents, hskipped⟩ := List.find?_eq_some_iff_append.mp hfind
  have hinc := h.increasing
  rw [hevents] at hinc ⊢
  obtain ⟨-, htail, hcross⟩ := List.pairwise_append.mp hinc
  have hcursor : stream.cursor ≤ item.position :=
    of_decide_eq_true (Bool.and_eq_true_iff.mp hwants).1
  have hbefore : before.filter stream.wants = [] := by
    refine List.filter_eq_nil_iff.mpr ?_
    intro entry hentry hw
    have hnot := hskipped entry hentry
    rw [hw] at hnot
    cases hnot
  have hpassed : ∀ entry : Entry P, entry.position ≤ item.position →
      ¬ ({ stream with cursor := item.position + 1 } : MessageStream).wants entry = true := by
    intro entry hle hw
    have hlt : item.position + 1 ≤ entry.position :=
      of_decide_eq_true (Bool.and_eq_true_iff.mp hw).1
    omega
  have hbefore' : before.filter
      ({ stream with cursor := item.position + 1 } : MessageStream).wants = [] := by
    refine List.filter_eq_nil_iff.mpr ?_
    intro entry hentry
    exact hpassed entry (hcross entry hentry item List.mem_cons_self).le
  have hafter : after.filter stream.wants =
      after.filter ({ stream with cursor := item.position + 1 } : MessageStream).wants := by
    refine List.filter_congr ?_
    intro entry hentry
    have hlt := (List.pairwise_cons.mp htail).1 entry hentry
    unfold MessageStream.wants
    rw [decide_eq_true (hcursor.trans hlt.le), decide_eq_true (Nat.succ_le_of_lt hlt)]
  rw [List.filter_append, List.filter_append, hbefore, hbefore', List.nil_append, List.nil_append,
    List.filter_cons_of_pos hwants, List.filter_cons_of_neg (hpassed item (le_refl _)), hafter]

/-- What an open stream delivers: all it is after, upcast, in log order. -/
theorem deliveries_eq (h : store.Rising) (n : ℕ) {stream : MessageStream}
    (hopen : stream.closed = false) : deliveries upcast store stream n =
      ((store.events.filter stream.wants).map fun entry => upcast entry.event).take n := by
  induction n generalizing stream with
  | zero => rfl
  | succ n ih =>
      have hclosed : ¬ stream.closed = true := by
        rw [hopen]
        exact Bool.false_ne_true
      unfold deliveries next MessageStream.next MessageStream.findNext
      rw [if_neg hclosed]
      cases hfind : store.events.find? stream.wants with
      | none =>
          have hnone : store.events.filter stream.wants = [] :=
            List.filter_eq_nil_iff.mpr (List.find?_eq_none.mp hfind)
          simp only [hnone, Option.map_none, List.map_nil, List.take_nil]
      | some item =>
          have hrest := @ih { stream with cursor := item.position + 1 } hopen
          simp only [Option.map_some]
          rw [hrest, wants_after h hfind, List.map_cons, List.take_succ_cons]
          rfl

theorem storedItem_tags (item : QueryItem) : (storedItem storedTypes item).tags = item.tags := by
  unfold storedItem
  split
  · rfl
  · rfl
  · split
    · rfl
    · rfl

theorem compileItem_isOk {item : QueryItem} {tags : List Tag}
    (h : tagsFromRecord (item.tags.getD []) = .ok tags) : ∃ c, compileItem item = .ok c := by
  unfold compileItem
  rw [h]
  cases item.types with
  | none => exact ⟨_, rfl⟩
  | some types =>
      cases types with
      | nil => exact ⟨_, rfl⟩
      | cons t types => exact ⟨_, rfl⟩

/-- The stored query compiles when the query does, and matches by stored items. -/
theorem storedQuery_spec {query : EventQuery} {criteria : EventCriteria} {items : List QueryItem}
    (h : compileQuery query = .ok criteria) (hitems : queryItems query = .ok items) :
    ∃ stored criteria', storedQuery storedTypes query = .ok stored ∧
      compileQuery stored = .ok criteria' ∧ ∀ event : EventMessage P,
        matchesCriteria event criteria' =
          items.any fun item => matchesItem event (storedItem storedTypes item) := by
  obtain ⟨items', hitems', hall, -⟩ := compileQuery_eq_ok (P := P) h
  rw [hitems] at hitems'
  cases hitems'
  have hcompile : ∀ item ∈ items.map (storedItem storedTypes), ∃ c, compileItem item = .ok c := by
    intro stored hstored
    obtain ⟨item, hitem, rfl⟩ := List.mem_map.mp hstored
    obtain ⟨c, hc⟩ := hall item hitem
    obtain ⟨tags, htags, -⟩ := compileItem_eq_ok hc
    exact compileItem_isOk (by rw [storedItem_tags, htags])
  have hstored : ∃ stored, storedQuery storedTypes query = .ok stored ∧
      queryItems stored = .ok (items.map (storedItem storedTypes)) := by
    unfold storedQuery
    rw [hitems]
    change ∃ stored, (match items.map (storedItem storedTypes) with
      | [item] => return .item item
      | items => return .items items : Except String EventQuery) = .ok stored ∧ _
    split
    · rename_i item hitem
      exact ⟨_, rfl, by rw [hitem]; rfl⟩
    · refine ⟨_, rfl, queryItems_of_ne_nil ?_⟩
      intro hnil
      exact queryItems_ne_nil hitems (List.map_eq_nil_iff.mp hnil)
  obtain ⟨stored, hstored, hstoredItems⟩ := hstored
  obtain ⟨criteria', hcriteria'⟩ := compileQuery_isOk hstoredItems hcompile
  refine ⟨stored, criteria', hstored, hcriteria', ?_⟩
  intro event
  obtain ⟨items', hitems', -, hmatches⟩ := compileQuery_eq_ok (P := P) hcriteria'
  rw [hstoredItems] at hitems'
  cases hitems'
  rw [hmatches, List.any_map]
  rfl

/-- With tags kept and correct stored types, no event is missed under its stored name. -/
theorem found_of_correct (htags : KeepsTags upcast) (htypes : CorrectTypes upcast storedTypes)
    {event : EventMessage P} {item : QueryItem} (h : matchesItem (upcast event) item = true) :
    matchesItem event (storedItem storedTypes item) = true := by
  unfold matchesItem at h
  rw [htags event] at h
  obtain ⟨hall, htype⟩ := Bool.and_eq_true_iff.mp h
  unfold matchesItem
  rw [storedItem_tags]
  refine Bool.and_eq_true_iff.mpr ⟨hall, ?_⟩
  unfold storedItem
  cases hitem : item.types with
  | none => simp only [hitem]
  | some types =>
      cases types with
      | nil => simp only [hitem]
      | cons t types =>
          rw [hitem] at htype
          cases hst : storedTypes with
          | none => rfl
          | some f =>
              obtain ⟨asked, hasked, heq⟩ := List.mem_map.mp (List.contains_iff_mem.mp htype)
              have hname : qualifiedNameToString event.name ∈
                  ((t::types).flatMap fun type => f (resolveTypeName type)).eraseDups := by
                rw [List.mem_eraseDups]
                refine List.mem_flatMap.mpr ⟨asked, hasked, ?_⟩
                rw [heq]
                exact htypes f hst event
              simp only
              cases hstored :
                ((t::types).flatMap fun type => f (resolveTypeName type)).eraseDups with
              | nil => rfl
              | cons name names =>
                  rw [hstored] at hname
                  simp only [List.map_cons]
                  refine List.contains_iff_mem.mpr ?_
                  simpa [resolveTypeName] using hname

/-- Selecting before a map and selecting after it agree only if they select the
same elements, even where the map is not injective. -/
theorem map_filter_eq_iff {α β : Type} {f : α → β} {p : α → Bool} {q : β → Bool} {l : List α} :
    (l.filter p).map f = (l.map f).filter q ↔ ∀ a ∈ l, p a = q (f a) := by
  constructor
  · intro h
    have hle : ∀ a ∈ l, p a = true → q (f a) = true := by
      intro a ha hp
      have hmem : f a ∈ (l.filter p).map f :=
        List.mem_map.mpr ⟨a, List.mem_filter.mpr ⟨ha, hp⟩, rfl⟩
      rw [h] at hmem
      exact (List.mem_filter.mp hmem).2
    -- one selection lies within the other and is as long
    have hlength : ((l.filter (q ∘ f)).filter p).length = (l.filter (q ∘ f)).length := by
      have hsame : (l.filter (q ∘ f)).filter p = l.filter p := by
        rw [List.filter_filter]
        refine List.filter_congr ?_
        intro a ha
        cases hp : p a with
        | false => rfl
        | true => exact hle a ha hp
      have hmap := congrArg List.length h
      rw [List.filter_map, List.length_map, List.length_map] at hmap
      rw [hsame, hmap]
    have hall := List.length_filter_eq_length_iff.mp hlength
    intro a ha
    cases hq : q (f a) with
    | true => exact hall a (List.mem_filter.mpr ⟨ha, hq⟩)
    | false =>
        cases hp : p a with
        | false => rfl
        | true => exact (hle a ha hp).symm.trans hq
  · intro h
    rw [List.filter_map]
    exact congrArg (List.map f) (List.filter_congr h)

/-- `source` is right exactly when every event matches as stored. -/
theorem sourced_iff {query : EventQuery} {criteria : EventCriteria}
    (h : compileQuery query = .ok criteria) :
    ((do return (← source upcast store query none).events) =
        (do return upcastMatches upcast store (← compileQuery query) : Except String _)) ↔
      ∀ entry ∈ store.events, MatchesAsStored upcast query entry.event := by
  have hall :
      store.events.filter (fun entry => decide ((none : Option ℕ).getD 0 ≤ entry.position)) =
      store.events := List.filter_eq_self.mpr fun entry _ => decide_eq_true (Nat.zero_le _)
  have hsource : (do return (← source upcast store query none).events : Except String _) =
      .ok (((store.events.filter fun entry => matchesCriteria entry.event criteria).map
        Entry.event).map upcast) := by
    unfold source InMemoryEventStore.source
    rw [h, hall]
    rfl
  rw [hsource, h, List.map_map]
  have hiff := map_filter_eq_iff (f := fun entry : Entry P => upcast entry.event)
    (p := fun entry => matchesCriteria entry.event criteria)
    (q := fun event => matchesCriteria event criteria) (l := store.events)
  constructor
  · intro heq entry hentry criteria' hcriteria'
    rw [h] at hcriteria'
    cases hcriteria'
    exact hiff.mp (Except.ok.inj heq) entry hentry
  · intro hmatch
    exact congrArg Except.ok (hiff.mpr fun entry hentry => hmatch entry hentry criteria h)

/-- A stream is right exactly when no event whose upcast matches is passed over. -/
theorem streamed_iff (hrising : store.Rising) {query : EventQuery} {criteria : EventCriteria}
    (h : compileQuery query = .ok criteria) {n : ℕ} (hn : store.events.length ≤ n) :
    ((do
        let criteria ← compileQuery query
        let stream ← openUpcasting storedTypes (some query) 0
        return (deliveries upcast store stream n).filter fun event =>
          matchesCriteria event criteria) =
        (do return upcastMatches upcast store (← compileQuery query) : Except String _)) ↔
      ∀ entry ∈ store.events, FoundAsStored upcast storedTypes query entry.event := by
  obtain ⟨items, hitems, -, -⟩ := compileQuery_eq_ok (P := P) h
  obtain ⟨stored, criteria', hstored, hcriteria', hmatches⟩ :=
    @storedQuery_spec P storedTypes query criteria items h hitems
  have hopen : openUpcasting storedTypes (some query) 0 = .ok ⟨0, some criteria', false⟩ := by
    change (do openStream (some (← storedQuery storedTypes query)) 0) = _
    rw [hstored]
    change openStream (some stored) 0 = _
    change (do return ⟨0, some (← compileQuery stored), false⟩ : Except String MessageStream) = _
    rw [hcriteria']
    rfl
  have hwants : ∀ entry : Entry P, (⟨0, some criteria', false⟩ : MessageStream).wants entry =
      items.any fun item => matchesItem entry.event (storedItem storedTypes item) := by
    intro entry
    rw [← hmatches entry.event]
    unfold MessageStream.wants
    rw [decide_eq_true (Nat.zero_le _), Bool.true_and]
  have hshort : ((store.events.filter (⟨0, some criteria', false⟩ : MessageStream).wants).map
      fun entry => upcast entry.event).length ≤ n := by
    rw [List.length_map]
    exact (List.length_filter_le _ _).trans hn
  rw [h, hopen]
  change (Except.ok ((deliveries upcast store ⟨0, some criteria', false⟩ n).filter _) =
    Except.ok _) ↔ _
  rw [deliveries_eq hrising n rfl, List.take_of_length_le hshort, List.filter_map,
    List.filter_filter]
  have hiff := map_filter_eq_iff (f := fun entry : Entry P => upcast entry.event)
    (p := fun entry => matchesCriteria (upcast entry.event) criteria &&
      (⟨0, some criteria', false⟩ : MessageStream).wants entry)
    (q := fun event => matchesCriteria event criteria) (l := store.events)
  constructor
  · intro heq entry hentry criteria'' items' hcriteria'' hitems' hmatch
    rw [h] at hcriteria''
    rw [hitems] at hitems'
    cases hcriteria''
    cases hitems'
    have hboth := hiff.mp (Except.ok.inj heq) entry hentry
    rw [hmatch, Bool.true_and, hwants] at hboth
    exact List.any_eq_true.mp hboth
  · intro hfound
    refine congrArg Except.ok (hiff.mpr ?_)
    intro entry hentry
    cases hmatch : matchesCriteria (upcast entry.event) criteria with
    | false => rfl
    | true =>
        rw [Bool.true_and, hwants]
        exact List.any_eq_true.mpr (hfound entry hentry criteria items h hitems hmatch)

/-- Both readers get the same exactly when every event matches as stored and no
event is passed over under its stored name; the second is so for every upcaster
that keeps tags with correct stored types, or none. -/
theorem upcasting_reads_alike_iff (h : store.Rising) (query : EventQuery) :
    (ReadsAlike upcast store storedTypes query ↔ ∀ entry ∈ store.events,
        MatchesAsStored upcast query entry.event ∧
          FoundAsStored upcast storedTypes query entry.event) ∧
      (KeepsTags upcast → CorrectTypes upcast storedTypes →
        (ReadsAlike upcast store storedTypes query ↔
          ∀ entry ∈ store.events, MatchesAsStored upcast query entry.event)) := by
  have hiff : ReadsAlike upcast store storedTypes query ↔ ∀ entry ∈ store.events,
      MatchesAsStored upcast query entry.event ∧
        FoundAsStored upcast storedTypes query entry.event := by
    cases hq : compileQuery query with
    | error e =>
        constructor
        · intro _ entry _
          refine ⟨?_, ?_⟩
          · intro criteria hcriteria
            rw [hq] at hcriteria
            cases hcriteria
          · intro criteria items hcriteria
            rw [hq] at hcriteria
            cases hcriteria
        · intro _
          refine ⟨?_, ?_⟩
          · unfold source InMemoryEventStore.source
            rw [hq]
            rfl
          · intro n _
            rw [hq]
            rfl
    | ok criteria =>
        constructor
        · intro hreads entry hentry
          exact ⟨(sourced_iff hq).mp hreads.sourced entry hentry,
            (streamed_iff h hq (le_refl _)).mp (hreads.streamed _ (le_refl _)) entry hentry⟩
        · intro hall
          exact ⟨(sourced_iff hq).mpr fun entry hentry => (hall entry hentry).1,
            fun n hn => (streamed_iff h hq hn).mpr fun entry hentry => (hall entry hentry).2⟩
  refine ⟨hiff, ?_⟩
  intro htags htypes
  rw [hiff]
  refine forall₂_congr ?_
  intro entry hentry
  refine and_iff_left ?_
  intro criteria items hcriteria hitems hmatch
  obtain ⟨items', hitems', -, hany⟩ := compileQuery_eq_ok (P := P) hcriteria
  rw [hitems] at hitems'
  cases hitems'
  rw [hany] at hmatch
  obtain ⟨item, hitem, hitemMatch⟩ := List.any_eq_true.mp hmatch
  exact ⟨item, hitem, found_of_correct htags htypes hitemMatch⟩

end

/-- `OrderPlaced` became `OrderCreated`. -/
def renamed (event : EventMessage Unit) : EventMessage Unit :=
  if event.name = ⟨"shop", "OrderPlaced"⟩ then { event with name := ⟨"shop", "OrderCreated"⟩ }
  else event

def ordersStored (type : String) : List String :=
  if type = "shop.OrderCreated" then [type, "shop.OrderPlaced"] else [type]

/-- A log of one event, written under its old name. -/
def placed : InMemoryEventStore Unit := ⟨[⟨0, ⟨⟨"shop", "OrderPlaced"⟩, [⟨"order", "1"⟩], ()⟩⟩], 1⟩

def createdOrders : EventQuery := .item ⟨some [("order", "1")], some [.string "shop.OrderCreated"]⟩

def allOfOrder : EventQuery := .item ⟨some [("order", "1")], none⟩

theorem placed_rising : placed.Rising where
  increasing := List.pairwise_singleton _ _
  below := by
    intro entry hentry
    rw [List.mem_singleton.mp hentry]
    decide

theorem keepsTags_renamed : KeepsTags renamed := by
  intro event
  unfold renamed
  split_ifs
  · rfl
  · rfl

theorem correctTypes_renamed : CorrectTypes renamed (some ordersStored) := by
  intro f hf event
  cases hf
  unfold renamed
  split_ifs with hname
  · rw [hname]
    exact List.mem_cons_of_mem _ (List.mem_singleton_self _)
  · unfold ordersStored
    split_ifs
    · exact List.mem_cons_self
    · exact List.mem_singleton_self _

/-- A query that names no type reads alike through a renaming. -/
theorem upcasting_reads_alike_untyped : placed.Rising ∧
    ReadsAlike renamed placed (some ordersStored) allOfOrder := by
  refine ⟨placed_rising,
    ((upcasting_reads_alike_iff placed_rising allOfOrder).1.mpr ?_)⟩
  intro entry hentry
  rw [List.mem_singleton.mp hentry]
  refine ⟨?_, ?_⟩
  · intro criteria hcriteria
    cases hcriteria
    decide
  · intro criteria items hcriteria hitems _
    cases hitems
    exact ⟨_, List.mem_singleton_self _, by decide⟩

/-- A query for the current name misses the event that was renamed to it. -/
theorem upcasting_source_misses : KeepsTags renamed ∧ CorrectTypes renamed (some ordersStored) ∧
    placed.Rising ∧ ¬ ReadsAlike renamed placed (some ordersStored) createdOrders := by
  refine ⟨keepsTags_renamed, correctTypes_renamed, placed_rising, ?_⟩
  intro h
  have hlength := congrArg (fun r => (r.toOption.map List.length : Option ℕ)) h.sourced
  exact absurd hlength (by decide +kernel)

end Kronos.EventSourcing.Upcasting
