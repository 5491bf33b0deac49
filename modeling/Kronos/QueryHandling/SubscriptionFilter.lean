import Kronos.Lib.EcmaScript

/-!
# Structured subscription filters

A filter `payloadEquals` reaches a subscriber when every key of its partial
payload is deep-equal to the same key of the subscriber's payload. `deepEqual`
counts the keys of two records and then walks the keys of the first, reading
them in the second without asking whether they are there.

A key that is not there reads as what the record inherits: `undefined` for most
keys, a method for a few, and an object without keys of its own for `__proto__`.
So records with different keys are found equal when the second lacks some keys of
the first that hold `undefined` and has as many others. `alike` says which
values cannot be told apart in this way.
-/
namespace Kronos.QueryHandling.SubscriptionFilter
open Lib.Utf8 (Str)
open Lib.NumberText (numeral)
open Lib.JsonText (ascii)
open Lib.EcmaScript
open Lib.OrderedMap (get mem_of_get get_of_mem get_eq_none_of_not_mem)

/-! ## Values -/

/-- Which object it is. -/
inductive Ref where
  | prototype (p : Prototype)
  | created (id : ℕ)
  deriving DecidableEq

inductive Value where
  | primitive (p : Primitive)
  | method (owner : Prototype) (name : Str)
  | array (ref : Ref) (items : List Value)
  | record (ref : Ref) (entries : List (Str × Value))

namespace Value

mutual
/-- No record has two entries of one key. -/
def Distinct : Value → Prop
  | .array _ items => DistinctItems items
  | .record _ entries => (entries.map Prod.fst).Nodup ∧ DistinctEntries entries
  | _ => True

def DistinctItems : List Value → Prop
  | [] => True
  | item :: items => item.Distinct ∧ DistinctItems items

def DistinctEntries : List (Str × Value) → Prop
  | [] => True
  | (_, v) :: entries => v.Distinct ∧ DistinctEntries entries
end

mutual
def hasNaN : Value → Bool
  | .primitive p => p.isNaN
  | .method _ _ => false
  | .array _ items => hasNaNItems items
  | .record _ entries => hasNaNEntries entries

def hasNaNItems : List Value → Bool
  | [] => false
  | item :: items => item.hasNaN || hasNaNItems items

def hasNaNEntries : List (Str × Value) → Bool
  | [] => false
  | (_, v) :: entries => v.hasNaN || hasNaNEntries entries
end

mutual
/-- The same value in other objects. -/
def copied (move : Ref → Ref) : Value → Value
  | .primitive p => .primitive p
  | .method owner name => .method owner name
  | .array ref items => .array (move ref) (copiedItems move items)
  | .record ref entries => .record (move ref) (copiedEntries move entries)

def copiedItems (move : Ref → Ref) : List Value → List Value
  | [] => []
  | item :: items => item.copied move :: copiedItems move items

def copiedEntries (move : Ref → Ref) : List (Str × Value) → List (Str × Value)
  | [] => []
  | (key, v) :: entries => (key, v.copied move) :: copiedEntries move entries
end

/-- A property of all values, by the values inside. -/
@[induction_eliminator]
theorem induct {P : Value → Prop} (primitive : ∀ p, P (.primitive p))
    (method : ∀ owner name, P (.method owner name))
    (array : ∀ ref items, (∀ item ∈ items, P item) → P (.array ref items))
    (record : ∀ ref entries, (∀ e ∈ entries, P e.2) → P (.record ref entries)) (v : Value) : P v :=
  @Value.rec P (fun items => ∀ item ∈ items, P item) (fun entries => ∀ e ∈ entries, P e.2)
    (fun e => P e.2)
    primitive method array record (by simp)
    (fun _ _ hitem hitems => List.forall_mem_cons.mpr ⟨hitem, hitems⟩) (by simp)
    (fun _ _ he hentries => List.forall_mem_cons.mpr ⟨he, hentries⟩) (fun _ _ hv => hv) v

/-- `===`: an object is equal to itself alone. -/
def strictEquals : Value → Value → Bool
  | .primitive p, .primitive q => p.strictEquals q
  | .method o name, .method o' name' => o = o' && name = name'
  | .array ref _, .array ref' _ => ref = ref'
  | .record ref _, .record ref' _ => ref = ref'
  | _, _ => false

/-- The properties of an object itself, the `length` of an array last. -/
def properties : Value → List (Str × Value)
  | .array _ items =>
      items.mapIdx (fun i item => (numeral i, item)) ++
        [(length, .primitive (.number (.finite items.length)))]
  | .record _ entries => entries
  | _ => []

/-- What arrays and records answer under a key that is not their own. -/
def inherited (p : Prototype) (key : Str) : Value :=
  if key = proto then if p = .array then .array (.prototype .array) []
  else .record (.prototype .object) []
  else (p.owner key).elim (.primitive .undefined) fun owner => .method owner key

def prototype : Value → Prototype
  | .array _ _ => .array
  | _ => .object

def read (v : Value) (key : Str) : Value := (get key v.properties).getD (inherited v.prototype key)

def isObject : Value → Bool
  | .array _ _ => true
  | .record _ _ => true
  | _ => false

end Value

/-- A value as it is in memory: its records have each key once. -/
def Payload : Type := {v : Value // v.Distinct}

/-- The keys of a partial payload, an array or a record, with their values. -/
def Expected : Type := {entries : List (Str × Value) // ∀ e ∈ entries, e.2.Distinct}

/-! ## The comparison -/

mutual
def deepEqual (a b : Value) : Bool :=
  if a.strictEquals b then true
  else
    -- `null`, another primitive and an array beside a record are equal to nothing else
    match a, b with
    | .array _ xs, .array _ ys => xs.length = ys.length && deepEqualItems xs ys
    | .record _ es, .record ref fs => es.length = fs.length && deepEqualKeys es (.record ref fs)
    | _, _ => false

def deepEqualItems : List Value → List Value → Bool
  | x :: xs, y :: ys => deepEqual x y && deepEqualItems xs ys
  | _, _ => true

def deepEqualKeys : List (Str × Value) → Value → Bool
  | [], _ => true
  | (key, v) :: es, b => deepEqual v (b.read key) && deepEqualKeys es b
end

def matchesPayloadEquals (payload : Value) (expected : List (Str × Value)) : Bool :=
  match payload with
  | .primitive _ => expected.length = 0
  | .method _ _ => expected.length = 0
  | payload => expected.all fun e => deepEqual (payload.read e.1) e.2

/-! ## Equality -/

mutual
/-- The same structure with equal leaves: the same own keys in records, whatever their order. -/
def same (a b : Value) : Bool :=
  a.strictEquals b ||
    match a, b with
    | .array _ xs, .array _ ys => sameItems xs ys
    | .record _ es, .record _ fs => sameEntries es fs && fs.all fun f => f.1 ∈ es.map Prod.fst
    | _, _ => false

def sameItems : List Value → List Value → Bool
  | [], [] => true
  | x :: xs, y :: ys => same x y && sameItems xs ys
  | _, _ => false

def sameEntries : List (Str × Value) → List (Str × Value) → Bool
  | [], _ => true
  | (key, v) :: es, fs => (get key fs).any (same v) && sameEntries es fs
end

/-- A value that a record without the key seems to have. -/
def missing (key : Str) (v : Value) : Bool :=
  match v with
  | .primitive p => p = .undefined && key ≠ proto && (Prototype.object.owner key).isNone
  | .method owner name => key ≠ proto && name = key && Prototype.object.owner key = some owner
  | .array _ _ => false
  | .record ref entries => key = proto && (ref = .prototype .object || entries.isEmpty)

mutual
/-- The same but for keys of the first that the second lacks and seems to have, with as many
keys in both. -/
def alike (a b : Value) : Bool :=
  a.strictEquals b ||
    match a, b with
    | .array _ xs, .array _ ys => alikeItems xs ys
    | .record _ es, .record _ fs => es.length = fs.length && alikeEntries es fs
    | _, _ => false

def alikeItems : List Value → List Value → Bool
  | [], [] => true
  | x :: xs, y :: ys => alike x y && alikeItems xs ys
  | _, _ => false

def alikeEntries : List (Str × Value) → List (Str × Value) → Bool
  | [], _ => true
  | (key, v) :: es, fs => (get key fs).elim (missing key v) (alike v) && alikeEntries es fs
end

/-! ## What the recursions say -/

theorem distinctItems_iff {items : List Value} :
    Value.DistinctItems items ↔ ∀ item ∈ items, item.Distinct := by
  induction items with
  | nil => simp [Value.DistinctItems]
  | cons item items ih => simp [Value.DistinctItems, ih]

theorem distinctEntries_iff {entries : List (Str × Value)} :
    Value.DistinctEntries entries ↔ ∀ e ∈ entries, e.2.Distinct := by
  induction entries with
  | nil => simp [Value.DistinctEntries]
  | cons e entries ih => simp [Value.DistinctEntries, ih]

theorem hasNaNItems_iff {items : List Value} :
    Value.hasNaNItems items = false ↔ ∀ item ∈ items, item.hasNaN = false := by
  induction items with
  | nil => simp [Value.hasNaNItems]
  | cons item items ih => simp [Value.hasNaNItems, ih]

theorem hasNaNEntries_iff {entries : List (Str × Value)} :
    Value.hasNaNEntries entries = false ↔ ∀ e ∈ entries, e.2.hasNaN = false := by
  induction entries with
  | nil => simp [Value.hasNaNEntries]
  | cons e entries ih => simp [Value.hasNaNEntries, ih]

theorem copiedItems_eq (move : Ref → Ref) (items : List Value) :
    Value.copiedItems move items = items.map (Value.copied move) := by
  induction items with
  | nil => rfl
  | cons item items ih => rw [Value.copiedItems, ih, List.map_cons]

theorem copiedEntries_eq (move : Ref → Ref) (entries : List (Str × Value)) :
    Value.copiedEntries move entries = entries.map fun e => (e.1, e.2.copied move) := by
  induction entries with
  | nil => rfl
  | cons e entries ih => rw [Value.copiedEntries, ih, List.map_cons]

theorem deepEqualItems_iff {xs ys : List Value} :
    (xs.length = ys.length ∧ deepEqualItems xs ys = true) ↔
      List.Forall₂ (fun x y => deepEqual x y = true) xs ys := by
  induction xs generalizing ys with
  | nil => cases ys <;> simp [deepEqualItems]
  | cons x xs ih =>
      cases ys with
      | nil => simp
      | cons y ys =>
          simp only [List.length_cons, Nat.add_right_cancel_iff, deepEqualItems, Bool.and_eq_true,
            List.forall₂_cons, ← ih]
          exact and_left_comm

theorem deepEqualKeys_iff {es : List (Str × Value)} {b : Value} :
    deepEqualKeys es b = true ↔ ∀ e ∈ es, deepEqual e.2 (b.read e.1) = true := by
  induction es with
  | nil => simp [deepEqualKeys]
  | cons e es ih => simp [deepEqualKeys, ih]

theorem sameItems_iff {xs ys : List Value} :
    sameItems xs ys = true ↔ List.Forall₂ (fun x y => same x y = true) xs ys := by
  induction xs generalizing ys with
  | nil => cases ys <;> simp [sameItems]
  | cons x xs ih => cases ys <;> simp [sameItems, ih]

theorem sameEntries_iff {es fs : List (Str × Value)} :
    sameEntries es fs = true ↔ ∀ e ∈ es, ∃ w, get e.1 fs = some w ∧ same e.2 w = true := by
  induction es with
  | nil => simp [sameEntries]
  | cons e es ih => simp [sameEntries, ih, Option.any_eq_true]

theorem alikeItems_iff {xs ys : List Value} :
    alikeItems xs ys = true ↔ List.Forall₂ (fun x y => alike x y = true) xs ys := by
  induction xs generalizing ys with
  | nil => cases ys <;> simp [alikeItems]
  | cons x xs ih => cases ys <;> simp [alikeItems, ih]

theorem alikeEntries_iff {es fs : List (Str × Value)} :
    alikeEntries es fs = true ↔
      ∀ e ∈ es, (get e.1 fs).elim (missing e.1 e.2) (alike e.2) = true := by
  induction es with
  | nil => simp [alikeEntries]
  | cons e es ih => simp [alikeEntries, ih]

/-! ## The comparison finds the values equal that are alike -/

theorem deepEqual_inherited (key : Str) (v : Value) :
    deepEqual v (Value.inherited .object key) = missing key v := by
  by_cases hkey : key = proto
  · have hread : Value.inherited .object key = .record (.prototype .object) [] := by
      simp [Value.inherited, hkey]
    rw [hread]
    cases v with
    | primitive p => simp [deepEqual, Value.strictEquals, missing, hkey]
    | method owner name => simp [deepEqual, Value.strictEquals, missing, hkey]
    | array ref items => simp [deepEqual, Value.strictEquals, missing]
    | record ref entries =>
        cases entries with
        | nil => simp [deepEqual, Value.strictEquals, missing, deepEqualKeys, hkey]
        | cons e entries => simp [deepEqual, Value.strictEquals, missing, hkey]
  · cases howner : Prototype.object.owner key with
    | none =>
        have hread : Value.inherited .object key = .primitive .undefined := by
          simp [Value.inherited, hkey, howner]
        rw [hread]
        cases v with
        | primitive p =>
            cases p <;> simp [deepEqual, Value.strictEquals, Primitive.strictEquals, missing,
              hkey, howner]
        | method owner name => simp [deepEqual, Value.strictEquals, missing, howner]
        | array ref items => simp [deepEqual, Value.strictEquals, missing]
        | record ref entries => simp [deepEqual, Value.strictEquals, missing, hkey]
    | some o =>
        have hread : Value.inherited .object key = .method o key := by
          simp [Value.inherited, hkey, howner]
        rw [hread]
        cases v with
        | primitive p => simp [deepEqual, Value.strictEquals, missing, howner]
        | method owner name =>
            simp only [deepEqual, Value.strictEquals, missing, howner]
            by_cases howners : owner = o
            · simp [howners, hkey]
            · simp [howners, Ne.symm howners]
        | array ref items => simp [deepEqual, Value.strictEquals, missing]
        | record ref entries => simp [deepEqual, Value.strictEquals, missing, hkey]

theorem deepEqual_iff_alike (a b : Value) : deepEqual a b = true ↔ alike a b = true := by
  induction a generalizing b with
  | primitive p => simp [deepEqual, alike]
  | method owner name => simp [deepEqual, alike]
  | array ref xs ih =>
      cases b with
      | primitive p => simp [deepEqual, alike]
      | method owner name => simp [deepEqual, alike]
      | record ref' fs => simp [deepEqual, alike]
      | array ref' ys =>
          rw [deepEqual, alike]
          by_cases href : Value.strictEquals (.array ref xs) (.array ref' ys) = true
          · simp [href]
          · rw [if_neg href, Bool.eq_false_of_not_eq_true href, Bool.false_or, Bool.and_eq_true,
              decide_eq_true_eq,
              deepEqualItems_iff, alikeItems_iff]
            constructor
            · exact fun h => forall₂_imp_of_mem h fun x hx y _ => (ih x hx y).mp
            · exact fun h => forall₂_imp_of_mem h fun x hx y _ => (ih x hx y).mpr
  | record ref es ih =>
      cases b with
      | primitive p => simp [deepEqual, alike]
      | method owner name => simp [deepEqual, alike]
      | array ref' ys => simp [deepEqual, alike]
      | record ref' fs =>
          rw [deepEqual, alike]
          by_cases href : Value.strictEquals (.record ref es) (.record ref' fs) = true
          · simp [href]
          · rw [if_neg href, Bool.eq_false_of_not_eq_true href, Bool.false_or, Bool.and_eq_true,
              Bool.and_eq_true,
              deepEqualKeys_iff, alikeEntries_iff]
            refine and_congr_right fun _ => forall₂_congr fun e he => ?_
            rw [Value.read]
            cases hget : get e.1 (Value.properties (.record ref' fs)) with
            | none =>
                rw [show get e.1 fs = none from hget]
                exact iff_of_eq (congrArg (· = true) (deepEqual_inherited e.1 e.2))
            | some w =>
                rw [show get e.1 fs = some w from hget]
                exact ih e he w

/-! ## Equality is symmetric and reflexive, and equal values are alike -/

theorem strictEquals_comm (a b : Value) : a.strictEquals b = b.strictEquals a := by
  cases a <;> cases b <;> simp [Value.strictEquals, Primitive.strictEquals_comm, eq_comm]

theorem same_array {ref ref' : Ref} {xs ys : List Value} :
    same (.array ref xs) (.array ref' ys) = true ↔
      ref = ref' ∨ List.Forall₂ (fun x y => same x y = true) xs ys := by
  rw [same, Bool.or_eq_true, sameItems_iff]
  simp [Value.strictEquals]

theorem same_record {ref ref' : Ref} {es fs : List (Str × Value)} :
    same (.record ref es) (.record ref' fs) = true ↔
      ref = ref' ∨ (∀ e ∈ es, ∃ w, get e.1 fs = some w ∧ same e.2 w = true) ∧
        fs.map Prod.fst ⊆ es.map Prod.fst := by
  rw [same, Bool.or_eq_true, Bool.and_eq_true, sameEntries_iff]
  simp [Value.strictEquals, List.subset_def]

/-- The keys of a record are keys of one that has an equal value under each. -/
theorem keys_subset_of_same {es fs : List (Str × Value)}
    (h : ∀ e ∈ es, ∃ w, get e.1 fs = some w ∧ same e.2 w = true) :
    es.map Prod.fst ⊆ fs.map Prod.fst := by
  intro k hk
  obtain ⟨e, he, rfl⟩ := List.mem_map.mp hk
  obtain ⟨w, hw, -⟩ := h e he
  exact List.mem_map.mpr ⟨_, mem_of_get hw, rfl⟩

theorem same_symm {a b : Value} (ha : a.Distinct) (hb : b.Distinct) (h : same a b = true) :
    same b a = true := by
  induction a generalizing b with
  | primitive p =>
      cases b with
      | primitive q =>
          simp only [same, Bool.or_false] at h ⊢
          rwa [strictEquals_comm]
      | method owner name => simp [same, Value.strictEquals] at h
      | array ref items => simp [same, Value.strictEquals] at h
      | record ref entries => simp [same, Value.strictEquals] at h
  | method owner name =>
      cases b with
      | primitive q => simp [same, Value.strictEquals] at h
      | method owner' name' =>
          simp only [same, Bool.or_false] at h ⊢
          rwa [strictEquals_comm]
      | array ref items => simp [same, Value.strictEquals] at h
      | record ref entries => simp [same, Value.strictEquals] at h
  | array ref xs ih =>
      cases b with
      | primitive q => simp [same, Value.strictEquals] at h
      | method owner name => simp [same, Value.strictEquals] at h
      | record ref' fs => simp [same, Value.strictEquals] at h
      | array ref' ys =>
          rw [same_array] at h ⊢
          refine h.imp Eq.symm fun hitems => ?_
          rw [Value.Distinct, distinctItems_iff] at ha hb
          refine forall₂_imp_of_mem hitems.flip fun y hy x hx hsame => ?_
          exact ih x hx (ha x hx) (hb y hy) hsame
  | record ref es ih =>
      cases b with
      | primitive q => simp [same, Value.strictEquals] at h
      | method owner name => simp [same, Value.strictEquals] at h
      | array ref' ys => simp [same, Value.strictEquals] at h
      | record ref' fs =>
          rw [same_record] at h ⊢
          rw [Value.Distinct, distinctEntries_iff] at ha hb
          refine h.imp Eq.symm ?_
          rintro ⟨hvalues, hkeys⟩
          refine ⟨fun f hf => ?_, keys_subset_of_same hvalues⟩
          obtain ⟨e, he, hkey⟩ := List.mem_map.mp (hkeys (List.mem_map_of_mem hf))
          obtain ⟨w, hw, hsame⟩ := hvalues e he
          have hwf : w = f.2 := Option.some.inj (hw.symm.trans (hkey ▸ get_of_mem hb.1 hf))
          refine ⟨e.2, hkey ▸ get_of_mem ha.1 he, ?_⟩
          exact hwf ▸ ih e he (ha.2 e he) (hwf ▸ hb.2 f hf) hsame

theorem alike_of_same {a b : Value} (ha : a.Distinct) (hb : b.Distinct) (h : same a b = true) :
    alike a b = true := by
  induction a generalizing b with
  | primitive p => simpa [same, alike] using h
  | method owner name => simpa [same, alike] using h
  | array ref xs ih =>
      cases b with
      | primitive q => simp [same, Value.strictEquals] at h
      | method owner name => simp [same, Value.strictEquals] at h
      | record ref' fs => simp [same, Value.strictEquals] at h
      | array ref' ys =>
          rw [alike, Bool.or_eq_true, alikeItems_iff]
          rw [Value.Distinct, distinctItems_iff] at ha hb
          refine (same_array.mp h).imp (by simp [Value.strictEquals]) fun hitems => ?_
          exact forall₂_imp_of_mem hitems fun x hx y hy => ih x hx (ha x hx) (hb y hy)
  | record ref es ih =>
      cases b with
      | primitive q => simp [same, Value.strictEquals] at h
      | method owner name => simp [same, Value.strictEquals] at h
      | array ref' ys => simp [same, Value.strictEquals] at h
      | record ref' fs =>
          rw [alike, Bool.or_eq_true, Bool.and_eq_true, alikeEntries_iff, decide_eq_true_eq]
          rw [Value.Distinct, distinctEntries_iff] at ha hb
          refine (same_record.mp h).imp (by simp [Value.strictEquals]) ?_
          rintro ⟨hvalues, hkeys⟩
          refine ⟨?_, fun e he => ?_⟩
          · exact Nat.le_antisymm (length_le_of_keys_subset ha.1 (keys_subset_of_same hvalues))
              (length_le_of_keys_subset hb.1 hkeys)
          · obtain ⟨w, hw, hsame⟩ := hvalues e he
            rw [hw]
            exact ih e he (ha.2 e he) (hb.2 _ (mem_of_get hw)) hsame

theorem distinct_copied (move : Ref → Ref) {a : Value} (ha : a.Distinct) :
    (a.copied move).Distinct := by
  induction a with
  | primitive p => trivial
  | method owner name => trivial
  | array ref items ih =>
      rw [Value.Distinct, distinctItems_iff] at ha
      rw [Value.copied, Value.Distinct, distinctItems_iff, copiedItems_eq]
      exact List.forall_mem_map.mpr fun item hitem => ih item hitem (ha item hitem)
  | record ref entries ih =>
      rw [Value.Distinct, distinctEntries_iff] at ha
      rw [Value.copied, Value.Distinct, distinctEntries_iff, copiedEntries_eq]
      refine ⟨by simpa [List.map_map, Function.comp_def] using ha.1, ?_⟩
      exact List.forall_mem_map.mpr fun e he => ih e he (ha.2 e he)

theorem same_copied (move : Ref → Ref) {a : Value} (ha : a.Distinct) (hnan : a.hasNaN = false) :
    same a (a.copied move) = true := by
  induction a with
  | primitive p =>
      simpa [same, Value.copied, Value.strictEquals] using Primitive.strictEquals_self hnan
  | method owner name => simp [same, Value.copied, Value.strictEquals]
  | array ref items ih =>
      rw [Value.Distinct, distinctItems_iff] at ha
      rw [Value.hasNaN, hasNaNItems_iff] at hnan
      rw [Value.copied, same_array, copiedItems_eq, List.forall₂_map_right_iff]
      exact .inr (List.forall₂_same.mpr fun item hitem =>
        ih item hitem (ha item hitem) (hnan item hitem))
  | record ref entries ih =>
      rw [Value.Distinct, distinctEntries_iff] at ha
      rw [Value.hasNaN, hasNaNEntries_iff] at hnan
      rw [Value.copied, same_record, copiedEntries_eq]
      refine .inr ⟨fun e he => ?_, by simp [List.map_map, Function.comp_def]⟩
      refine ⟨e.2.copied move, ?_, ih e he (ha.2 e he) (hnan e he)⟩
      rw [Lib.OrderedMap.get_map, get_of_mem ha.1 he]
      rfl

theorem distinct_inherited (p : Prototype) (key : Str) : (Value.inherited p key).Distinct := by
  rw [Value.inherited]
  by_cases hkey : key = proto
  · rw [if_pos hkey]
    by_cases harray : p = .array
    · rw [if_pos harray]
      trivial
    · rw [if_neg harray]
      exact ⟨List.nodup_nil, trivial⟩
  · rw [if_neg hkey]
    cases p.owner key <;> trivial

/-- What is read from a payload has each key once, too. -/
theorem distinct_read {v : Value} (h : v.Distinct) (key : Str) : (v.read key).Distinct := by
  rw [Value.read]
  cases hget : get key v.properties with
  | none => exact distinct_inherited _ _
  | some w =>
      have hmem := mem_of_get hget
      cases v with
      | primitive p => cases hmem
      | method owner name => cases hmem
      | array ref items =>
          rw [Value.Distinct, distinctItems_iff] at h
          rcases List.mem_append.mp hmem with hmem | hmem
          · obtain ⟨i, hi, heq⟩ := List.mem_mapIdx.mp hmem
            exact (Prod.mk.inj heq).2 ▸ h _ (List.getElem_mem hi)
          · exact (Prod.mk.inj (List.mem_singleton.mp hmem)).2 ▸ trivial
      | record ref entries =>
          rw [Value.Distinct, distinctEntries_iff] at h
          exact h.2 _ hmem

/-! ## Real equality -/

/-- What the comparison should be for two values. -/
structure Exact (a b : Value) : Prop where
  reflexive : ∀ move : Ref → Ref, a.hasNaN = false → deepEqual a (a.copied move) = true
  symmetric : deepEqual a b = deepEqual b a
  equal : deepEqual a b = true ↔ same a b = true

/-- Values that are alike are equal, whichever comes first. -/
def Told (a b : Value) : Prop :=
  (alike a b = true → same a b = true) ∧ (alike b a = true → same b a = true)

/-- Every key of the partial payload has an equal value in the payload. -/
def EqualAtKeys (payload : Value) (expected : List (Str × Value)) : Prop :=
  ∀ e ∈ expected, payload.isObject = true ∧ same (payload.read e.1) e.2 = true

/-- A payload that is alike at every key is equal at every key. -/
def ToldAtKeys (payload : Value) (expected : List (Str × Value)) : Prop :=
  payload.isObject = true → (∀ e ∈ expected, alike (payload.read e.1) e.2 = true) →
    ∀ e ∈ expected, same (payload.read e.1) e.2 = true

theorem exact_iff {a b : Value} (ha : a.Distinct) (hb : b.Distinct) : Exact a b ↔ Told a b := by
  constructor
  · intro h
    have hab : alike a b = true → same a b = true := fun halike =>
      h.equal.mp ((deepEqual_iff_alike a b).mpr halike)
    refine ⟨hab, fun halike => ?_⟩
    have hba : deepEqual b a = true := (deepEqual_iff_alike b a).mpr halike
    exact same_symm ha hb (h.equal.mp (h.symmetric.trans hba))
  · rintro ⟨hab, hba⟩
    have hequal : deepEqual a b = true ↔ same a b = true :=
      (deepEqual_iff_alike a b).trans ⟨hab, alike_of_same ha hb⟩
    have hequal' : deepEqual b a = true ↔ same b a = true :=
      (deepEqual_iff_alike b a).trans ⟨hba, alike_of_same hb ha⟩
    refine ⟨fun move hnan => ?_, ?_, hequal⟩
    · exact (deepEqual_iff_alike _ _).mpr
        (alike_of_same ha (distinct_copied move ha) (same_copied move ha hnan))
    · rw [Bool.eq_iff_iff, hequal, hequal']
      exact ⟨same_symm ha hb, same_symm hb ha⟩

theorem matchesPayloadEquals_iff (payload : Value) (expected : List (Str × Value)) :
    matchesPayloadEquals payload expected = true ↔
      ∀ e ∈ expected, payload.isObject = true ∧ alike (payload.read e.1) e.2 = true := by
  cases payload with
  | primitive p => simp [matchesPayloadEquals, Value.isObject, List.eq_nil_iff_forall_not_mem]
  | method owner name => simp [matchesPayloadEquals, Value.isObject, List.eq_nil_iff_forall_not_mem]
  | array ref items => simp [matchesPayloadEquals, Value.isObject, deepEqual_iff_alike]
  | record ref entries => simp [matchesPayloadEquals, Value.isObject, deepEqual_iff_alike]

theorem matches_exact_iff {payload : Value} (hp : payload.Distinct) {expected : List (Str × Value)}
    (he : ∀ e ∈ expected, e.2.Distinct) :
    (matchesPayloadEquals payload expected = true ↔ EqualAtKeys payload expected) ↔
      ToldAtKeys payload expected := by
  rw [matchesPayloadEquals_iff]
  constructor
  · intro h hobject halike e hmem
    exact (h.mp (fun f hf => ⟨hobject, halike f hf⟩) e hmem).2
  · intro h
    constructor
    · intro halike e hmem
      have hobject := (halike e hmem).1
      exact ⟨hobject, h hobject (fun f hf => (halike f hf).2) e hmem⟩
    · intro hequal e hmem
      obtain ⟨hobject, hsame⟩ := hequal e hmem
      exact ⟨hobject, alike_of_same (distinct_read hp e.1) (he e hmem) hsame⟩

/-- Two values are compared by real equality exactly when values that are alike are equal, and a
payload is matched by real equality at the keys of a partial payload exactly when being alike at all
of them is being equal. -/
theorem filters_use_equality_iff (a b payload : Payload) (expected : Expected) :
    (Exact a.1 b.1 ↔ Told a.1 b.1) ∧
      ((matchesPayloadEquals payload.1 expected.1 = true ↔ EqualAtKeys payload.1 expected.1) ↔
        ToldAtKeys payload.1 expected.1) :=
  ⟨exact_iff a.2 b.2, matches_exact_iff payload.2 expected.2⟩

/-- A record whose only key holds `undefined` is found equal to one that has another key, in one
direction. -/
theorem other_keys_found_equal :
    let a : Value := .record (.created 0) [(ascii "a", .primitive .undefined)]
    let b : Value := .record (.created 1) [(ascii "b", .primitive (.number (.finite 1)))]
    (a.Distinct ∧ b.Distinct) ∧ (deepEqual a b = true ∧ deepEqual b a = false) ∧ ¬Exact a b := by
  refine ⟨⟨⟨by simp, trivial, trivial⟩, ⟨by simp, trivial, trivial⟩⟩, ⟨by decide, by decide⟩,
    fun h => ?_⟩
  exact absurd h.symmetric (by decide)

/-! ## Values with nothing to miss -/

mutual
/-- No entry holds a value that a record without its key seems to have. -/
def Whole : Value → Prop
  | .array _ items => WholeItems items
  | .record _ entries => WholeEntries entries
  | _ => True

def WholeItems : List Value → Prop
  | [] => True
  | item :: items => Whole item ∧ WholeItems items

def WholeEntries : List (Str × Value) → Prop
  | [] => True
  | (key, v) :: entries => (missing key v = false ∧ Whole v) ∧ WholeEntries entries
end

theorem wholeItems_iff {items : List Value} : WholeItems items ↔ ∀ item ∈ items, Whole item := by
  induction items with
  | nil => simp [WholeItems]
  | cons item items ih => simp [WholeItems, ih]

theorem wholeEntries_iff {entries : List (Str × Value)} :
    WholeEntries entries ↔ ∀ e ∈ entries, missing e.1 e.2 = false ∧ Whole e.2 := by
  induction entries with
  | nil => simp [WholeEntries]
  | cons e entries ih => simp [WholeEntries, ih]

theorem same_of_alike {a b : Value} (ha : a.Distinct) (hwhole : Whole a) (h : alike a b = true) :
    same a b = true := by
  induction a generalizing b with
  | primitive p => simpa [same, alike] using h
  | method owner name => simpa [same, alike] using h
  | array ref xs ih =>
      cases b with
      | primitive q => simp [alike, Value.strictEquals] at h
      | method owner name => simp [alike, Value.strictEquals] at h
      | record ref' fs => simp [alike, Value.strictEquals] at h
      | array ref' ys =>
          rw [alike, Bool.or_eq_true, alikeItems_iff] at h
          rw [Value.Distinct, distinctItems_iff] at ha
          rw [Whole, wholeItems_iff] at hwhole
          refine same_array.mpr (h.imp (by simp [Value.strictEquals]) fun hitems => ?_)
          exact forall₂_imp_of_mem hitems fun x hx y _ => ih x hx (ha x hx) (hwhole x hx)
  | record ref es ih =>
      cases b with
      | primitive q => simp [alike, Value.strictEquals] at h
      | method owner name => simp [alike, Value.strictEquals] at h
      | array ref' ys => simp [alike, Value.strictEquals] at h
      | record ref' fs =>
          rw [alike, Bool.or_eq_true, Bool.and_eq_true, alikeEntries_iff, decide_eq_true_eq] at h
          rw [Value.Distinct, distinctEntries_iff] at ha
          rw [Whole, wholeEntries_iff] at hwhole
          refine same_record.mpr (h.imp (by simp [Value.strictEquals]) ?_)
          rintro ⟨hlength, hvalues⟩
          have hsame : ∀ e ∈ es, ∃ w, get e.1 fs = some w ∧ same e.2 w = true := by
            intro e he
            have hvalue := hvalues e he
            cases hget : get e.1 fs with
            | none =>
                rw [hget] at hvalue
                exact absurd ((hwhole e he).1.symm.trans hvalue) (by decide)
            | some w =>
                rw [hget] at hvalue
                exact ⟨w, rfl, ih e he (ha.2 e he) (hwhole e he).2 hvalue⟩
          exact ⟨hsame, keys_subset_of_length ha.1 hlength (keys_subset_of_same hsame)⟩

/-- Values whose records hold no `undefined`, and nothing under `__proto__`, are told apart. -/
theorem told_of_whole {a b : Value} (ha : a.Distinct) (hb : b.Distinct) (hwa : Whole a)
    (hwb : Whole b) :
    Told a b :=
  ⟨same_of_alike ha hwa, same_of_alike hb hwb⟩

end Kronos.QueryHandling.SubscriptionFilter
