import Mathlib.Data.List.Induction
import Kronos.EventSourcing.DcbQuery

/-!
# What a handler reads of its own writes

`ctx.load` caches what it sourced for a state and an id; `ctx.append` buffers the
event and evolves every cached state that has an evolver for the event's type.
The entry is a promise chain: a later `load` answers with the chain as it stands
when it is called. An evolver's result is put into the entry as it is. When it is
a promise, the next evolver is handed that promise, while the `load` that returns
it has it flattened.

The reference is the fold of the sourced events and of the buffered events that
match the query. The cache evolves by type, from the first load on; `CacheFits`
says when that comes to the same.
-/
namespace Kronos.EventSourcing.OwnWrites

variable {Id P σ : Type}

/-- A JavaScript value that is a state, or a promise of one. -/
inductive Value (σ : Type) where
  | plain (state : σ)
  | promise (state : σ)

def Value.settled : Value σ → σ
  | .plain s => s
  | .promise s => s

/-- An evolver: what it makes of a state and an event, whether it returns that as
a promise, and what becomes of it when it is handed a promise for the state. -/
structure Evolver (σ P : Type) where
  name : QualifiedName
  promises : Bool
  run : σ → EventMessage P → σ
  onPromise : σ → EventMessage P → Value σ

def Evolver.evolve (ev : Evolver σ P) : Value σ → EventMessage P → Value σ
  | .plain s, e => if ev.promises then .promise (ev.run s e) else .plain (ev.run s e)
  | .promise s, e => ev.onPromise s e

/-- A state definition. -/
structure Module (Id σ P : Type) where
  query : Id → EventQuery
  initial : Id → σ
  evolvers : List (Evolver σ P)

/-- The part of a definition that says which events are folded, not how. -/
structure Shape (Id : Type) where
  query : Id → EventQuery
  evolvers : List (QualifiedName × Bool)

def Module.shape (m : Module Id σ P) : Shape Id :=
  ⟨m.query, m.evolvers.map fun ev => (ev.name, ev.promises)⟩

/-- The first evolver of the event's type. -/
def Module.evolverFor (m : Module Id σ P) (e : EventMessage P) : Option (Evolver σ P) :=
  m.evolvers.find? fun ev =>
    decide (qualifiedNameToString ev.name = qualifiedNameToString e.name)

/-- `applyEvent` of the repository, which awaits the evolver. -/
def Module.applyEvent (m : Module Id σ P) (state : σ) (e : EventMessage P) : σ :=
  match m.evolverFor e with
  | some ev => (ev.evolve (.plain state) e).settled
  | none => state

/-- The repository's load: the fold of what `source` returned, unless the query
is refused. -/
def Module.doLoad (m : Module Id σ P) (id : Id) (sourced : List (EventMessage P)) :
    Except String (Value σ) := do
  let _ ← compileQuery (m.query id)
  return .plain (sourced.foldl m.applyEvent (m.initial id))

/-- What `append` does to one cached state. -/
def Module.evolveCached (m : Module Id σ P) (state : Value σ) (e : EventMessage P) : Value σ :=
  match m.evolverFor e with
  | some ev => ev.evolve state e
  | none => state

/-- What a handler does, in order. A load carries what `source` returns if it
comes to sourcing; definitions are numbered as `state()` numbers them. -/
inductive Op (Id P : Type) where
  | load (n : ℕ) (id : Id) (sourced : List (EventMessage P))
  | append (event : EventMessage P)

/-- One entry of the state cache, with the module it was loaded for. -/
structure Entry (σ : Type) where
  key : String
  module : ℕ
  result : Except String (Value σ)

structure UnitOfWork (σ P : Type) where
  buffered : List (EventMessage P)
  stateCache : List (Entry σ)

def events : List (Op Id P) → List (EventMessage P)
  | [] => []
  | .append e::ops => e::events ops
  | .load _ _ _::ops => events ops

section Run
variable (stableIdKey : Id → String) (modules : ℕ → Module Id σ P)

def cacheKey (n : ℕ) (id : Id) : String := "state#" ++ toString n ++ ":" ++ stableIdKey id

def UnitOfWork.append (uow : UnitOfWork σ P) (e : EventMessage P) : UnitOfWork σ P where
  buffered := uow.buffered ++ [e]
  stateCache := uow.stateCache.map fun entry =>
    {entry with result := entry.result.map fun s => (modules entry.module).evolveCached s e}

/-- The entry a load answers with, put into the cache if there was none. -/
def UnitOfWork.entryFor (uow : UnitOfWork σ P) (n : ℕ) (id : Id) (sourced : List (EventMessage P)) :
    Entry σ :=
  match uow.stateCache.find? fun entry => decide (entry.key = cacheKey stableIdKey n id) with
  | some entry => entry
  | none => ⟨cacheKey stableIdKey n id, n, (modules n).doLoad id sourced⟩

def UnitOfWork.step (uow : UnitOfWork σ P) : Op Id P → UnitOfWork σ P
  | .append e => uow.append modules e
  | .load n id sourced =>
      if uow.stateCache.any fun entry => decide (entry.key = cacheKey stableIdKey n id) then uow
      else {uow with
        stateCache := uow.stateCache ++ [uow.entryFor stableIdKey modules n id sourced]}

def run (ops : List (Op Id P)) : UnitOfWork σ P :=
  ops.foldl (UnitOfWork.step stableIdKey modules) ⟨[], []⟩

/-- What a load returns after `ops`. -/
def loaded (ops : List (Op Id P)) (n : ℕ) (id : Id) (sourced : List (EventMessage P)) :
    Except String σ :=
  ((run stableIdKey modules ops).entryFor stableIdKey modules n id sourced).result.map Value.settled

end Run

/-- A load that comes first among those some test picks, and what is appended
around it. -/
structure First (Id P : Type) where
  before : List (EventMessage P)
  module : ℕ
  id : Id
  sourced : List (EventMessage P)
  after : List (EventMessage P)

def firstLoad (test : ℕ → Id → Bool) : List (Op Id P) → Option (First Id P)
  | [] => none
  | .append e::ops => (firstLoad test ops).map fun f => {f with before := e::f.before}
  | .load n id sourced::ops =>
      if test n id then some ⟨[], n, id, sourced, events ops⟩ else firstLoad test ops

/-- Whether a buffered event is one of the query's. -/
def matchesQuery (e : EventMessage P) (query : EventQuery) : Bool :=
  match compileQuery query with
  | .ok criteria => matchesCriteria e criteria
  | .error _ => false

/-- The fold of the sourced events and of the buffered ones that match. -/
def expected [DecidableEq Id] (m : Module Id σ P) (ops : List (Op Id P)) (n : ℕ) (id : Id)
    (sourced : List (EventMessage P)) : σ :=
  let read := match firstLoad (fun k i => decide (k = n ∧ i = id)) ops with
    | some f => f.sourced
    | none => sourced
  (read ++ (events ops).filter fun e => matchesQuery e (m.query id)).foldl m.applyEvent
    (m.initial id)

/-- Every load whose query is not refused returns the fold. -/
def ReadsOwnWrites [DecidableEq Id] (stableIdKey : Id → String) (modules : ℕ → Module Id σ P)
    (ops : List (Op Id P)) : Prop :=
  ∀ before n id sourced after, ops = before ++ .load n id sourced::after →
    (compileQuery ((modules n).query id)).isOk = true →
    loaded stableIdKey modules before n id sourced =
      .ok (expected (modules n) before n id sourced)

section Shape
variable (shape : Shape Id)

/-- Whether the event's type is evolved, and if so whether by a promise. -/
def Shape.evolves (e : EventMessage P) : Option Bool :=
  (shape.evolvers.find? fun ev =>
    decide (qualifiedNameToString ev.1 = qualifiedNameToString e.name)).map Prod.snd

/-- No evolver runs after one that returned a promise. -/
def Shape.awaited : List (EventMessage P) → Bool
  | [] => true
  | e::es =>
      if shape.evolves e = some true then es.all fun e => decide (shape.evolves e = none)
      else Shape.awaited es

/-- No event of an evolved type that matches was appended before the first load. -/
def Shape.unread (id : Id) (es : List (EventMessage P)) : Bool :=
  es.all fun e => decide (shape.evolves e = none) || !matchesQuery e (shape.query id)

/-- Every event of an evolved type appended since matches. -/
def Shape.own (id : Id) (es : List (EventMessage P)) : Bool :=
  es.all fun e => decide (shape.evolves e = none) || matchesQuery e (shape.query id)

/-- The cache entry that answers the load was made for this state and id, and was
evolved by what matches, each evolver having been handed a state. -/
def Shape.fits [DecidableEq Id] (stableIdKey : Id → String) (ops : List (Op Id P)) (n : ℕ)
    (id : Id) : Bool :=
  match firstLoad
    (fun k i => decide (cacheKey stableIdKey k i = cacheKey stableIdKey n id)) ops with
  | none => shape.unread id (events ops)
  | some f =>
      decide (f.module = n ∧ f.id = id) && shape.unread id f.before && shape.own id f.after &&
        shape.awaited f.after

end Shape

def CacheFits [DecidableEq Id] (stableIdKey : Id → String) (shapes : ℕ → Shape Id)
    (ops : List (Op Id P)) : Prop :=
  ∀ before n id sourced after, ops = before ++ .load n id sourced::after →
    (compileQuery ((shapes n).query id)).isOk = true →
    (shapes n).fits stableIdKey before n id = true

theorem events_append (ops ops' : List (Op Id P)) :
    events (ops ++ ops') = events ops ++ events ops' := by
  induction ops with
  | nil => rfl
  | cons op ops ih => cases op <;> simp [events, ih]

theorem firstLoad_append_append (test : ℕ → Id → Bool) (ops : List (Op Id P)) (e : EventMessage P) :
    firstLoad test (ops ++ [.append e]) =
      (firstLoad test ops).map fun f => {f with after := f.after ++ [e]} := by
  induction ops with
  | nil => rfl
  | cons op ops ih =>
      cases op with
      | append e' =>
          simp only [List.cons_append, firstLoad, ih, Option.map_map]
          rfl
      | load n id sourced =>
          simp only [List.cons_append, firstLoad, ih]
          split_ifs
          · simp [events_append, events]
          · rfl

theorem firstLoad_append_load (test : ℕ → Id → Bool) (ops : List (Op Id P)) (n : ℕ) (id : Id)
    (sourced : List (EventMessage P)) :
    firstLoad test (ops ++ [.load n id sourced]) =
      (firstLoad test ops).or
        (if test n id then some ⟨events ops, n, id, sourced, []⟩ else none) := by
  induction ops with
  | nil =>
      simp only [List.nil_append, firstLoad, events, Option.none_or]
  | cons op ops ih =>
      cases op with
      | append e =>
          simp only [List.cons_append, firstLoad, ih, events]
          cases firstLoad test ops with
          | none =>
              split_ifs <;> rfl
          | some f => rfl
      | load n' id' sourced' =>
          simp only [List.cons_append, firstLoad, ih, events]
          by_cases ht : test n' id' = true
          · rw [if_pos ht, if_pos ht, events_append]
            simp [events]
          · rw [if_neg ht, if_neg ht]

/-- The parts of the first load fit together. -/
theorem firstLoad_events {test : ℕ → Id → Bool} {ops : List (Op Id P)} {f : First Id P}
    (h : firstLoad test ops = some f) :
    events ops = f.before ++ f.after ∧ test f.module f.id = true := by
  induction ops generalizing f with
  | nil => cases h
  | cons op ops ih =>
      cases op with
      | append e =>
          simp only [firstLoad, Option.map_eq_some_iff] at h
          obtain ⟨g, hg, rfl⟩ := h
          obtain ⟨hevents, htest⟩ := ih hg
          exact ⟨by simp [events, hevents], htest⟩
      | load n id sourced =>
          simp only [firstLoad] at h
          split_ifs at h with ht
          · cases h
            exact ⟨rfl, ht⟩
          · exact ih h

/-- A weaker test that the same load passes finds the same load first. -/
theorem firstLoad_congr {test test' : ℕ → Id → Bool} {ops : List (Op Id P)} {f : First Id P}
    (hweak : ∀ n id, test' n id = true → test n id = true) (h : firstLoad test ops = some f)
    (hf : test' f.module f.id = true) : firstLoad test' ops = some f := by
  induction ops generalizing f with
  | nil => cases h
  | cons op ops ih =>
      cases op with
      | append e =>
          simp only [firstLoad, Option.map_eq_some_iff] at h ⊢
          obtain ⟨g, hg, rfl⟩ := h
          exact ⟨g, ih hg hf, rfl⟩
      | load n id sourced =>
          simp only [firstLoad] at h ⊢
          split_ifs at h with ht
          · cases h
            rw [if_pos hf]
          · rw [if_neg fun h' => ht (hweak _ _ h')]
            exact ih h hf

theorem firstLoad_eq_none {test test' : ℕ → Id → Bool} {ops : List (Op Id P)}
    (hweak : ∀ n id, test' n id = true → test n id = true) (h : firstLoad test ops = none) :
    firstLoad test' ops = none := by
  induction ops with
  | nil => rfl
  | cons op ops ih =>
      cases op with
      | append e =>
          simp only [firstLoad, Option.map_eq_none_iff] at h ⊢
          exact ih h
      | load n id sourced =>
          simp only [firstLoad] at h ⊢
          split_ifs at h with ht
          rw [if_neg fun h' => ht (hweak _ _ h')]
          exact ih h

section Cache
variable {stableIdKey : Id → String} {modules : ℕ → Module Id σ P}

/-- The entry of a key, as its first load and the appends since have made it. -/
def cachedResult (modules : ℕ → Module Id σ P) (f : First Id P) : Except String (Value σ) :=
  f.after.foldl (fun r e => r.map fun s => (modules f.module).evolveCached s e)
    ((modules f.module).doLoad f.id f.sourced)

theorem run_append (ops : List (Op Id P)) (op : Op Id P) :
    run stableIdKey modules (ops ++ [op]) =
      (run stableIdKey modules ops).step stableIdKey modules op := by
  rw [run, List.foldl_append]
  rfl

theorem run_find (ops : List (Op Id P)) (key : String) :
    (run stableIdKey modules ops).stateCache.find? (fun entry => decide (entry.key = key)) =
      (firstLoad (fun n id => decide (cacheKey stableIdKey n id = key)) ops).map
        fun f => ⟨key, f.module, cachedResult modules f⟩ := by
  induction ops using List.reverseRecOn with
  | nil => rfl
  | append_singleton ops op ih =>
      rw [run_append]
      cases op with
      | append e =>
          rw [firstLoad_append_append]
          simp only [UnitOfWork.step, UnitOfWork.append, List.find?_map, Option.map_map]
          change Option.map _ ((run stableIdKey modules ops).stateCache.find?
            fun entry => decide (entry.key = key)) = _
          rw [ih, Option.map_map]
          congr 1
          funext f
          simp [cachedResult, List.foldl_append]
      | load n id sourced =>
          rw [firstLoad_append_load]
          simp only [UnitOfWork.step]
          by_cases hany : ((run stableIdKey modules ops).stateCache.any fun entry =>
              decide (entry.key = cacheKey stableIdKey n id)) = true
          · rw [if_pos hany]
            by_cases hkey : cacheKey stableIdKey n id = key
            · rw [ih]
              obtain ⟨entry, hentry, heq⟩ := List.any_eq_true.mp hany
              have hsome : ((run stableIdKey modules ops).stateCache.find?
                  fun entry => decide (entry.key = key)).isSome = true := by
                rw [List.find?_isSome]
                exact ⟨entry, hentry, by rw [← hkey]; exact heq⟩
              rw [ih, Option.isSome_map] at hsome
              obtain ⟨f, hf⟩ := Option.isSome_iff_exists.mp hsome
              rw [hf]
              rfl
            · rw [ih]
              simp [hkey]
          · have hnone : (run stableIdKey modules ops).stateCache.find?
                (fun entry => decide (entry.key = cacheKey stableIdKey n id)) = none := by
              rw [List.find?_eq_none]
              intro entry hentry heq
              exact hany (List.any_eq_true.mpr ⟨entry, hentry, heq⟩)
            rw [if_neg hany, List.find?_append, ih]
            simp only [UnitOfWork.entryFor, hnone]
            by_cases hkey : cacheKey stableIdKey n id = key
            · subst hkey
              rw [ih, Option.map_eq_none_iff] at hnone
              simp [hnone, cachedResult]
            · simp [hkey]

/-- What a load returns, read off the operations before it. -/
theorem loaded_eq (ops : List (Op Id P)) (n : ℕ) (id : Id) (sourced : List (EventMessage P)) :
    loaded stableIdKey modules ops n id sourced =
      (match firstLoad
          (fun k i => decide (cacheKey stableIdKey k i = cacheKey stableIdKey n id)) ops with
        | some f => cachedResult modules f
        | none => (modules n).doLoad id sourced).map Value.settled := by
  unfold loaded UnitOfWork.entryFor
  rw [run_find]
  cases firstLoad
    (fun k i => decide (cacheKey stableIdKey k i = cacheKey stableIdKey n id)) ops with
  | none => rfl
  | some f => rfl

theorem doLoad_ok (m : Module Id σ P) {id : Id} (h : (compileQuery (m.query id)).isOk = true)
    (sourced : List (EventMessage P)) :
    m.doLoad id sourced = .ok (.plain (sourced.foldl m.applyEvent (m.initial id))) := by
  unfold Module.doLoad
  cases hq : compileQuery (m.query id) with
  | error e =>
      rw [hq] at h
      cases h
  | ok c => rfl

theorem cachedResult_ok (modules : ℕ → Module Id σ P) {f : First Id P}
    (h : (compileQuery ((modules f.module).query f.id)).isOk = true) :
    cachedResult modules f = .ok (f.after.foldl (modules f.module).evolveCached
      (.plain (f.sourced.foldl (modules f.module).applyEvent
        ((modules f.module).initial f.id)))) := by
  have hfold (es : List (EventMessage P)) (v : Value σ) :
      es.foldl (fun r e => r.map fun s => (modules f.module).evolveCached s e)
        (Except.ok v : Except String (Value σ)) =
      .ok (es.foldl (modules f.module).evolveCached v) := by
    induction es generalizing v with
    | nil => rfl
    | cons e es ih => exact ih _
  rw [cachedResult, doLoad_ok _ h, hfold]

/-- A load that was refused stays refused. -/
theorem cachedResult_error (modules : ℕ → Module Id σ P) {f : First Id P}
    (h : (compileQuery ((modules f.module).query f.id)).isOk = false) :
    ∃ message, cachedResult modules f = .error message := by
  unfold cachedResult Module.doLoad
  cases hq : compileQuery ((modules f.module).query f.id) with
  | ok c =>
      rw [hq] at h
      cases h
  | error e =>
      refine ⟨e, ?_⟩
      induction f.after with
      | nil => rfl
      | cons x es ih => exact ih

end Cache

section Fold
variable (m : Module Id σ P)

theorem shape_evolves (e : EventMessage P) :
    m.shape.evolves e = (m.evolverFor e).map Evolver.promises := by
  unfold Shape.evolves Module.shape Module.evolverFor
  rw [List.find?_map, Option.map_map]
  rfl

theorem evolverFor_eq_none {e : EventMessage P} (h : m.shape.evolves e = none) :
    m.evolverFor e = none := by
  rw [shape_evolves, Option.map_eq_none_iff] at h
  exact h

theorem applyEvent_of_none {e : EventMessage P} (h : m.shape.evolves e = none) (s : σ) :
    m.applyEvent s e = s := by
  rw [Module.applyEvent, evolverFor_eq_none m h]

theorem evolveCached_of_none {e : EventMessage P} (h : m.shape.evolves e = none) (v : Value σ) :
    m.evolveCached v e = v := by
  rw [Module.evolveCached, evolverFor_eq_none m h]

/-- The events whose type is evolved. -/
def Shape.evolved (shape : Shape Id) (es : List (EventMessage P)) : List (EventMessage P) :=
  es.filter fun e => decide (shape.evolves e ≠ none)

theorem foldl_evolved (es : List (EventMessage P)) (s : σ) :
    (m.shape.evolved es).foldl m.applyEvent s = es.foldl m.applyEvent s := by
  induction es generalizing s with
  | nil => rfl
  | cons e es ih =>
      unfold Shape.evolved at ih ⊢
      by_cases h : m.shape.evolves e = none
      · rw [List.filter_cons_of_neg (by simp [h]), List.foldl_cons, applyEvent_of_none m h]
        exact ih s
      · rw [List.filter_cons_of_pos (by simp [h]), List.foldl_cons, List.foldl_cons]
        exact ih _

theorem foldl_evolveCached_of_none {es : List (EventMessage P)}
    (h : ∀ e ∈ es, m.shape.evolves e = none) (v : Value σ) : es.foldl m.evolveCached v = v := by
  induction es with
  | nil => rfl
  | cons e es ih =>
      rw [List.foldl_cons, evolveCached_of_none m (h e List.mem_cons_self)]
      exact ih fun e' he' => h e' (List.mem_cons_of_mem e he')

theorem foldl_applyEvent_of_none {es : List (EventMessage P)}
    (h : ∀ e ∈ es, m.shape.evolves e = none) (s : σ) : es.foldl m.applyEvent s = s := by
  induction es with
  | nil => rfl
  | cons e es ih =>
      rw [List.foldl_cons, applyEvent_of_none m (h e List.mem_cons_self)]
      exact ih fun e' he' => h e' (List.mem_cons_of_mem e he')

/-- While every evolver is handed a state, the cached state settles to the fold. -/
theorem settled_foldl {es : List (EventMessage P)} (h : m.shape.awaited es = true) (s : σ) :
    (es.foldl m.evolveCached (.plain s)).settled = es.foldl m.applyEvent s := by
  induction es generalizing s with
  | nil => rfl
  | cons e es ih =>
      rw [List.foldl_cons, List.foldl_cons]
      unfold Shape.awaited at h
      cases hev : m.evolverFor e with
      | none =>
          have hnone : m.shape.evolves e = none := by rw [shape_evolves, hev]; rfl
          rw [hnone] at h
          rw [evolveCached_of_none m hnone, applyEvent_of_none m hnone]
          exact ih h s
      | some ev =>
          have hsome : m.shape.evolves e = some ev.promises := by rw [shape_evolves, hev]; rfl
          rw [hsome] at h
          simp only [Module.evolveCached, Module.applyEvent, hev, Evolver.evolve]
          cases hp : ev.promises with
          | false =>
              simp only [hp, Option.some.injEq, Bool.false_eq_true, if_false] at h ⊢
              exact ih h _
          | true =>
              simp only [hp, if_true, List.all_eq_true, decide_eq_true_eq] at h ⊢
              rw [foldl_evolveCached_of_none m h, foldl_applyEvent_of_none m h]

end Fold

section Select
variable {shape : Shape Id} {id : Id} {before after es : List (EventMessage P)}

/-- Of the buffered events, the ones that match and are folded. -/
def Shape.selected (shape : Shape Id) (id : Id) (es : List (EventMessage P)) :
    List (EventMessage P) :=
  shape.evolved (es.filter fun e => matchesQuery e (shape.query id))

theorem selected_append : shape.selected id (before ++ after) =
    shape.selected id before ++ shape.selected id after := by
  simp [Shape.selected, Shape.evolved]

theorem selected_eq_nil_iff : shape.selected id es = [] ↔ shape.unread id es = true := by
  unfold Shape.selected Shape.evolved Shape.unread
  rw [List.filter_filter, List.filter_eq_nil_iff, List.all_eq_true]
  refine forall₂_congr fun e _ => ?_
  by_cases hn : shape.evolves e = none
  · simp [hn]
  · simp [hn]

theorem selected_eq_evolved_iff : shape.selected id es = shape.evolved es ↔
    shape.own id es = true := by
  unfold Shape.own
  rw [List.all_eq_true]
  constructor
  · intro h e he
    by_cases hn : shape.evolves e = none
    · simp [hn]
    · have hmem : e ∈ shape.evolved es := List.mem_filter.mpr ⟨he, by simp [hn]⟩
      rw [← h] at hmem
      have := (List.mem_filter.mp (List.mem_filter.mp hmem).1).2
      simp [this]
  · intro h
    unfold Shape.selected Shape.evolved
    rw [List.filter_filter]
    apply List.filter_congr
    intro e he
    have := h e he
    by_cases hn : shape.evolves e = none
    · simp [hn]
    · simpa [hn] using this

/-- The cache has folded exactly the selected events when nothing selected came
before the first load and everything evolved since is selected. -/
theorem evolved_eq_selected_iff : shape.evolved after = shape.selected id (before ++ after) ↔
    shape.unread id before = true ∧ shape.own id after = true := by
  rw [selected_append, ← selected_eq_nil_iff, ← selected_eq_evolved_iff]
  constructor
  · intro h
    have hall : ∀ e ∈ shape.evolved after, matchesQuery e (shape.query id) = true := by
      intro e he
      rw [h, List.mem_append] at he
      rcases he with he | he
      · exact (List.mem_filter.mp (List.mem_filter.mp he).1).2
      · exact (List.mem_filter.mp (List.mem_filter.mp he).1).2
    have hsel : shape.selected id after = shape.evolved after := by
      rw [selected_eq_evolved_iff, Shape.own, List.all_eq_true]
      intro e he
      by_cases hn : shape.evolves e = none
      · simp [hn]
      · simp [hall e (List.mem_filter.mpr ⟨he, by simp [hn]⟩)]
    refine ⟨?_, hsel⟩
    rw [hsel] at h
    exact List.self_eq_append_left.mp h
  · rintro ⟨hb, ha⟩
    rw [hb, ha, List.nil_append]

end Select

/-- The definition of a shape that only records: the state and id it was loaded
for and the events folded, until an evolver is handed a promise. -/
def recording (shape : Shape Id) (n : ℕ) :
    Module Id (Option (ℕ × Id × List (EventMessage P))) P where
  query := shape.query
  initial := fun id => some (n, id, [])
  evolvers := shape.evolvers.map fun ev =>
    ⟨ev.1, ev.2, fun s e => s.map fun x => (x.1, x.2.1, x.2.2 ++ [e]), fun _ _ => .plain none⟩

section Recording
variable (shape : Shape Id) (n : ℕ)

theorem recording_shape : (recording (P := P) shape n).shape = shape := by
  have hid : ((fun ev : Evolver (Option (ℕ × Id × List (EventMessage P))) P =>
      (ev.name, ev.promises)) ∘ fun ev : QualifiedName × Bool =>
        ⟨ev.1, ev.2, fun s e => s.map fun x => (x.1, x.2.1, x.2.2 ++ [e]),
          fun _ _ => .plain none⟩) = id := rfl
  unfold Module.shape recording
  simp only [List.map_map, hid, List.map_id]

theorem recording_evolver {e : EventMessage P} {ev : Evolver _ P}
    (h : (recording shape n).evolverFor e = some ev) :
    (∀ s e, ev.run s e = s.map fun x => (x.1, x.2.1, x.2.2 ++ [e])) ∧
      ∀ s e, ev.onPromise s e = .plain none := by
  have hmem := List.mem_of_find?_eq_some h
  obtain ⟨x, -, rfl⟩ := List.mem_map.mp hmem
  exact ⟨fun _ _ => rfl, fun _ _ => rfl⟩

theorem recording_foldl (es : List (EventMessage P)) (k : ℕ) (i : Id) (l : List (EventMessage P)) :
    es.foldl (recording shape n).applyEvent (some (k, i, l)) =
      some (k, i, l ++ shape.evolved es) := by
  induction es generalizing l with
  | nil => simp [Shape.evolved]
  | cons e es ih =>
      rw [List.foldl_cons]
      have hshape := shape_evolves (recording (P := P) shape n) e
      rw [recording_shape] at hshape
      cases hev : (recording shape n).evolverFor e with
      | none =>
          rw [hev, Option.map_none] at hshape
          simp only [Module.applyEvent, hev]
          rw [ih]
          simp [Shape.evolved, hshape]
      | some ev =>
          rw [hev, Option.map_some] at hshape
          have happly : (recording shape n).applyEvent (some (k, i, l)) e =
              some (k, i, l ++ [e]) := by
            simp only [Module.applyEvent, hev, Evolver.evolve]
            split_ifs <;> simp [Value.settled, (recording_evolver shape n hev).1]
          rw [happly, ih]
          simp [Shape.evolved, hshape]

/-- Once spoiled, the record stays spoiled. -/
theorem recording_spoiled (es : List (EventMessage P)) {v : Value _} (hv : v.settled = none) :
    (es.foldl (recording shape n).evolveCached v).settled = none := by
  induction es generalizing v with
  | nil => exact hv
  | cons e es ih =>
      rw [List.foldl_cons]
      apply ih
      unfold Module.evolveCached
      cases hev : (recording shape n).evolverFor e with
      | none => exact hv
      | some ev =>
          obtain ⟨hrun, hpromise⟩ := recording_evolver shape n hev
          cases v with
          | plain s =>
              cases hv
              simp only [Evolver.evolve]
              split_ifs <;> simp [Value.settled, hrun]
          | promise s => simp [Evolver.evolve, hpromise, Value.settled]

/-- An evolver that is handed a promise spoils the record. -/
theorem recording_not_awaited {es : List (EventMessage P)} (h : shape.awaited es = false)
    (s : Option (ℕ × Id × List (EventMessage P))) :
    (es.foldl (recording shape n).evolveCached (.plain s)).settled = none := by
  induction es generalizing s with
  | nil => cases h
  | cons e es ih =>
      rw [List.foldl_cons]
      have hshape := shape_evolves (recording (P := P) shape n) e
      rw [recording_shape] at hshape
      unfold Shape.awaited at h
      cases hev : (recording shape n).evolverFor e with
      | none =>
          rw [hev, Option.map_none] at hshape
          simp only [hshape, reduceCtorEq, if_false] at h
          simp only [Module.evolveCached, hev]
          exact ih h s
      | some ev =>
          rw [hev, Option.map_some] at hshape
          simp only [Module.evolveCached, hev, Evolver.evolve]
          cases hp : ev.promises with
          | false =>
              simp only [hshape, hp, Option.some.injEq, Bool.false_eq_true, if_false] at h ⊢
              exact ih h _
          | true =>
              simp only [hshape, hp, if_true] at h ⊢
              clear ih hshape
              generalize ev.run s e = r
              -- The promise waits for the next evolver, which spoils it.
              induction es with
              | nil => cases h
              | cons e' es ih' =>
                  rw [List.foldl_cons]
                  have hshape' := shape_evolves (recording (P := P) shape n) e'
                  rw [recording_shape] at hshape'
                  cases hev' : (recording shape n).evolverFor e' with
                  | none =>
                      rw [hev', Option.map_none] at hshape'
                      simp only [List.all_cons, hshape', decide_true, Bool.true_and] at h
                      simp only [Module.evolveCached, hev']
                      exact ih' h
                  | some ev' =>
                      apply recording_spoiled
                      simp only [Module.evolveCached, hev', Evolver.evolve,
                        (recording_evolver shape n hev').2, Value.settled]

end Recording

section Main
variable [DecidableEq Id] {stableIdKey : Id → String}

/-- The reference, with the events that fold nothing left out. -/
theorem expected_eq (m : Module Id σ P) {ops : List (Op Id P)} {n : ℕ} {id : Id}
    {sourced : List (EventMessage P)} (read : List (EventMessage P))
    (hread : (match firstLoad (fun k i => decide (k = n ∧ i = id)) ops with
      | some f => f.sourced
      | none => sourced) = read) :
    expected m ops n id sourced =
      (m.shape.selected id (events ops)).foldl m.applyEvent
        (read.foldl m.applyEvent (m.initial id)) := by
  unfold expected
  simp only [hread, List.foldl_append]
  exact (foldl_evolved m _ _).symm

/-- Answered by a load of the same state and id, the reference reads what that
load sourced. -/
theorem firstLoad_pair {ops : List (Op Id P)} {n : ℕ} {id : Id} {f : First Id P}
    (hf : firstLoad (fun k i => decide (cacheKey stableIdKey k i = cacheKey stableIdKey n id)) ops =
      some f) (hsame : f.module = n ∧ f.id = id) :
    firstLoad (fun k i => decide (k = n ∧ i = id)) ops = some f := by
  refine firstLoad_congr ?_ hf (decide_eq_true hsame)
  intro k i h
  obtain ⟨rfl, rfl⟩ := of_decide_eq_true h
  exact decide_eq_true rfl

theorem firstLoad_pair_none {ops : List (Op Id P)} {n : ℕ} {id : Id}
    (hf : firstLoad (fun k i => decide (cacheKey stableIdKey k i = cacheKey stableIdKey n id)) ops =
      none) : firstLoad (fun k i => decide (k = n ∧ i = id)) ops = none := by
  refine firstLoad_eq_none ?_ hf
  intro k i h
  obtain ⟨rfl, rfl⟩ := of_decide_eq_true h
  exact decide_eq_true rfl

theorem loaded_eq_expected {modules : ℕ → Module Id σ P} {ops : List (Op Id P)} {n : ℕ} {id : Id}
    {sourced : List (EventMessage P)} (hok : (compileQuery ((modules n).query id)).isOk = true)
    (h : (modules n).shape.fits stableIdKey ops n id = true) :
    loaded stableIdKey modules ops n id sourced = .ok (expected (modules n) ops n id sourced) := by
  rw [loaded_eq]
  unfold Shape.fits at h
  cases hf : firstLoad
      (fun k i => decide (cacheKey stableIdKey k i = cacheKey stableIdKey n id)) ops with
  | none =>
      rw [hf] at h
      rw [expected_eq (modules n) sourced (by rw [firstLoad_pair_none hf]),
        selected_eq_nil_iff.mpr h, doLoad_ok _ hok]
      rfl
  | some f =>
      rw [hf] at h
      simp only [Bool.and_eq_true, decide_eq_true_eq] at h
      obtain ⟨⟨⟨hsame, hunread⟩, hown⟩, hawait⟩ := h
      have hevents := (firstLoad_events hf).1
      have hpair := firstLoad_pair hf hsame
      obtain ⟨hn, hid⟩ := hsame
      rw [expected_eq (modules n) f.sourced (by rw [hpair]), hevents,
        ← evolved_eq_selected_iff.mpr ⟨hunread, hown⟩, foldl_evolved]
      simp only
      rw [cachedResult_ok modules (by rw [hn, hid]; exact hok), hn, hid]
      exact congrArg Except.ok (settled_foldl (modules n) hawait _)

/-- What a recording definition should have recorded. -/
theorem recording_expected (shape : Shape Id) (n : ℕ) (ops : List (Op Id P)) (id : Id)
    (sourced : List (EventMessage P)) :
    expected (recording shape n) ops n id sourced =
      some (n, id, shape.evolved
        (match firstLoad (fun k i => decide (k = n ∧ i = id)) ops with
          | some f => f.sourced
          | none => sourced) ++ shape.selected id (events ops)) := by
  have hidem : shape.evolved (shape.selected id (events ops)) = shape.selected id (events ops) := by
    simp [Shape.selected, Shape.evolved]
  rw [expected_eq (recording shape n) _ rfl, recording_shape]
  change List.foldl _ (List.foldl _ (some (n, id, [])) _) _ = _
  rw [recording_foldl, recording_foldl, hidem, List.nil_append]

/-- Where the recording definitions read their own writes, the cache fits. -/
theorem fits_of_recording {shapes : ℕ → Shape Id} {ops : List (Op Id P)} {n : ℕ} {id : Id}
    {sourced : List (EventMessage P)} (hok : (compileQuery ((shapes n).query id)).isOk = true)
    (h : loaded stableIdKey (fun k => recording (shapes k) k) ops n id sourced =
      .ok (expected (recording (shapes n) n) ops n id sourced)) :
    (shapes n).fits stableIdKey ops n id = true := by
  rw [loaded_eq] at h
  unfold Shape.fits
  cases hf : firstLoad
      (fun k i => decide (cacheKey stableIdKey k i = cacheKey stableIdKey n id)) ops with
  | none =>
      have hload := doLoad_ok (recording (P := P) (shapes n) n) hok sourced
      rw [hf, recording_expected, firstLoad_pair_none hf] at h
      simp only [hload, Except.map, Value.settled, Except.ok.injEq] at h
      change sourced.foldl _ (some (n, id, [])) = _ at h
      rw [recording_foldl] at h
      simp only [Option.some.injEq, Prod.mk.injEq, true_and, List.nil_append,
        List.self_eq_append_right] at h
      exact selected_eq_nil_iff.mp h
  | some f =>
      rw [hf] at h
      simp only at h
      cases hokf : (compileQuery ((shapes f.module).query f.id)).isOk with
      | false =>
          obtain ⟨message, herror⟩ :=
            cachedResult_error (fun k => recording (P := P) (shapes k) k) hokf
          rw [herror] at h
          cases h
      | true =>
          rw [cachedResult_ok (fun k => recording (P := P) (shapes k) k) hokf] at h
          simp only [Except.map, Except.ok.injEq] at h
          cases hawait : (shapes f.module).awaited f.after with
          | false =>
              rw [recording_not_awaited _ _ hawait, recording_expected] at h
              cases h
          | true =>
              have hawait' : (recording (P := P) (shapes f.module) f.module).shape.awaited f.after =
                  true := by
                rw [recording_shape]
                exact hawait
              rw [settled_foldl _ hawait', recording_expected] at h
              change f.after.foldl _ (f.sourced.foldl _ (some (f.module, f.id, []))) = _ at h
              rw [recording_foldl, recording_foldl] at h
              simp only [Option.some.injEq, Prod.mk.injEq, List.nil_append] at h
              obtain ⟨hn, hid, hlist⟩ := h
              rw [firstLoad_pair hf ⟨hn, hid⟩, (firstLoad_events hf).1, hn] at hlist
              obtain ⟨hunread, hown⟩ := evolved_eq_selected_iff.mp (List.append_cancel_left hlist)
              simp only [hn, hid, hunread, hown, and_self, decide_true, Bool.and_self]
              rw [← hn]
              exact hawait

/-- A handler reads its own writes, whatever its states fold them to, exactly when
the cache fits. -/
theorem reads_own_writes_iff (stableIdKey : Id → String) (shapes : ℕ → Shape Id)
    (ops : List (Op Id P)) :
    (∀ (σ : Type) (modules : ℕ → Module Id σ P), (∀ n, (modules n).shape = shapes n) →
      ReadsOwnWrites stableIdKey modules ops) ↔ CacheFits stableIdKey shapes ops := by
  constructor
  · intro h before n id sourced after hops hok
    have hrec := h _ (fun k => recording (shapes k) k) fun k => recording_shape (shapes k) k
    exact fits_of_recording hok (hrec before n id sourced after hops hok)
  · intro h σ modules hshape before n id sourced after hops hok
    have hquery : (modules n).query = (shapes n).query := congrArg Shape.query (hshape n)
    have hfits := h before n id sourced after hops (by rw [← hquery]; exact hok)
    rw [← hshape n] at hfits
    exact loaded_eq_expected hok hfits

end Main

/-- Counts the enrolments of a course. -/
def enrolments : Module String ℕ Unit where
  query := fun id => .item ⟨some [("course", id)], none⟩
  initial := fun _ => 0
  evolvers := [⟨⟨"course", "Enrolled"⟩, false, fun s _ => s + 1, fun s _ => .plain s⟩]

def enrolledIn (course : String) : EventMessage Unit :=
  ⟨⟨"course", "Enrolled"⟩, [⟨"course", course⟩], ()⟩

/-- An append that precedes the first load is not seen, and one that belongs to
another id is. -/
theorem own_writes_missed :
    ¬ReadsOwnWrites (fun id => id) (fun _ => enrolments)
        [.append (enrolledIn "c1"), .load 0 "c1" []] ∧
    ¬ReadsOwnWrites (fun id => id) (fun _ => enrolments)
        [.load 0 "c1" [], .append (enrolledIn "c2"), .load 0 "c1" []] := by
  constructor
  · intro h
    have hload := h [.append (enrolledIn "c1")] 0 "c1" [] [] rfl (by decide +kernel)
    exact absurd hload (by decide +kernel)
  · intro h
    have hload := h [.load 0 "c1" [], .append (enrolledIn "c2")] 0 "c1" [] [] rfl
      (by decide +kernel)
    exact absurd hload (by decide +kernel)

end Kronos.EventSourcing.OwnWrites
