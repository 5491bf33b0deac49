import Kronos.Test.Compare

/-!
# When the comparison is deep-strict

A value that fits has no difference. The other way round it is enough, and
necessary, that values the comparison sees as alike do fit. They do when no
`Date`, `Map` or `Set` is in them and no key is one that every object answers.

A hole at one place of a value without holes leaves everything else to be deeply
equal: what was observed, with the value that was expected put at this place, is
deeply equal to what was expected.
-/
namespace Kronos.Test.Compare
open Lib.Utf8 (Str)
open Lib.EcmaScript
open Lib.OrderedMap (get mem_of_get get_of_mem get_eq_none_of_not_mem get_set_self get_set_of_ne
  get_set_cases nodup_keys_set keys_set_of_get)

/-! ## Values without holes -/

namespace Value

mutual
def HoleFree : Value → Prop
  | .array items => HoleFreeItems items
  | .set items => HoleFreeItems items
  | .map entries => HoleFreePairs entries
  | .record entries => isAny (.record entries) = false ∧ HoleFreeEntries entries
  | _ => True

def HoleFreeItems : List Value → Prop
  | [] => True
  | item :: items => item.HoleFree ∧ HoleFreeItems items

def HoleFreePairs : List (Value × Value) → Prop
  | [] => True
  | (k, v) :: entries => (k.HoleFree ∧ v.HoleFree) ∧ HoleFreePairs entries

def HoleFreeEntries : List (Str × Value) → Prop
  | [] => True
  | (_, v) :: entries => v.HoleFree ∧ HoleFreeEntries entries
end

end Value

/-- What a message carries. -/
def Payload : Type := {v : Value // v.Plain}

/-- What a scenario expects where it leaves nothing open. -/
def Pinned : Type := {v : Value // v.Plain ∧ v.HoleFree}

theorem plainItems_iff {items : List Value} : Value.PlainItems items ↔
    ∀ item ∈ items, item.Plain := by
  induction items with
  | nil => simp [Value.PlainItems]
  | cons item items ih => simp [Value.PlainItems, ih]

theorem plainPairs_iff {entries : List (Value × Value)} :
    Value.PlainPairs entries ↔ ∀ e ∈ entries, e.1.Plain ∧ e.2.Plain := by
  induction entries with
  | nil => simp [Value.PlainPairs]
  | cons e entries ih => simp [Value.PlainPairs, ih]

theorem plainEntries_iff {entries : List (Str × Value)} :
    Value.PlainEntries entries ↔ ∀ e ∈ entries, e.2.Plain := by
  induction entries with
  | nil => simp [Value.PlainEntries]
  | cons e entries ih => simp [Value.PlainEntries, ih]

theorem holeFreeItems_iff {items : List Value} : Value.HoleFreeItems items ↔
    ∀ item ∈ items, item.HoleFree := by
  induction items with
  | nil => simp [Value.HoleFreeItems]
  | cons item items ih => simp [Value.HoleFreeItems, ih]

theorem holeFreePairs_iff {entries : List (Value × Value)} :
    Value.HoleFreePairs entries ↔ ∀ e ∈ entries, e.1.HoleFree ∧ e.2.HoleFree := by
  induction entries with
  | nil => simp [Value.HoleFreePairs]
  | cons e entries ih => simp [Value.HoleFreePairs, ih]

theorem holeFreeEntries_iff {entries : List (Str × Value)} :
    Value.HoleFreeEntries entries ↔ ∀ e ∈ entries, e.2.HoleFree := by
  induction entries with
  | nil => simp [Value.HoleFreeEntries]
  | cons e entries ih => simp [Value.HoleFreeEntries, ih]

theorem distinct_of_plain {v : Value} (h : v.Plain) : v.Distinct := by
  induction v with
  | array items ih =>
      rw [Value.Plain, plainItems_iff] at h
      rw [Value.Distinct, distinctItems_iff]
      exact fun item hitem => ih item hitem (h item hitem)
  | record entries ih =>
      rw [Value.Plain, plainEntries_iff] at h
      rw [Value.Distinct, distinctEntries_iff]
      exact ⟨h.1, fun e he => ih e he (h.2 e he)⟩
  | _ => trivial

/-! ## Fitting, place by place -/

section Fits

variable {validate : ℕ → Value → Validation}

theorem fitsItems_iff {xs ys : List Value} :
    fitsItems validate xs ys = true ↔ List.Forall₂ (fun x y => fits validate x y = true) xs ys := by
  induction xs generalizing ys with
  | nil => cases ys <;> simp [fitsItems]
  | cons x xs ih => cases ys <;> simp [fitsItems, ih]

theorem fitsPairs_iff {es fs : List (Value × Value)} :
    fitsPairs validate es fs = true ↔
      List.Forall₂ (fun e f => fits validate e.1 f.1 = true ∧ fits validate e.2 f.2 = true)
        es fs := by
  induction es generalizing fs with
  | nil => cases fs <;> simp [fitsPairs]
  | cons e es ih => cases fs <;> simp [fitsPairs, ih]

theorem fitsEntries_iff {es fs : List (Str × Value)} :
    fitsEntries validate es fs = true ↔ ∀ e ∈ es, ∃ w, get e.1 fs = some w ∧
      fits validate e.2 w = true := by
  induction es with
  | nil => simp [fitsEntries]
  | cons e es ih => simp [fitsEntries, ih, Option.any_eq_true]

theorem fits_any {hole actual : Value} (h : isAny hole = true) :
    fits validate hole actual = true ↔ satisfies validate hole actual = true := by
  cases hole with
  | record es => simp [fits, h]
  | _ => cases h

theorem fits_record {es : List (Str × Value)} (hany : isAny (.record es) = false) {actual : Value} :
    fits validate (.record es) actual = true ↔
      ∃ fs, actual = .record fs ∧
        (∀ e ∈ es, ∃ w, get e.1 fs = some w ∧ fits validate e.2 w = true) ∧
        fs.map Prod.fst ⊆ es.map Prod.fst := by
  cases actual with
  | record fs => simp [fits, hany, fitsEntries_iff, List.subset_def]
  | _ => simp [fits, hany]

theorem fits_self {v : Value} (hplain : v.Plain) (hfree : v.HoleFree) :
    fits validate v v = true := by
  induction v with
  | primitive p => simp [fits, Value.is]
  | method owner name => cases hplain
  | prototype p => cases hplain
  | schema id => cases hplain
  | date time => simp [fits]
  | array items ih =>
      rw [Value.Plain, plainItems_iff] at hplain
      rw [Value.HoleFree, holeFreeItems_iff] at hfree
      rw [fits, fitsItems_iff]
      exact List.forall₂_same.mpr fun item hitem =>
        ih item hitem (hplain item hitem) (hfree item hitem)
  | set items ih =>
      rw [Value.Plain, plainItems_iff] at hplain
      rw [Value.HoleFree, holeFreeItems_iff] at hfree
      rw [fits, List.any_eq_true]
      refine ⟨items, List.mem_permutations.mpr (List.Perm.refl _), fitsItems_iff.mpr ?_⟩
      exact List.forall₂_same.mpr fun item hitem =>
        ih item hitem (hplain item hitem) (hfree item hitem)
  | map entries ih =>
      rw [Value.Plain, plainPairs_iff] at hplain
      rw [Value.HoleFree, holeFreePairs_iff] at hfree
      rw [fits, List.any_eq_true]
      refine ⟨entries, List.mem_permutations.mpr (List.Perm.refl _), fitsPairs_iff.mpr ?_⟩
      refine List.forall₂_same.mpr fun e he => ?_
      exact ⟨(ih e he).1 (hplain e he).1 (hfree e he).1, (ih e he).2 (hplain e he).2 (hfree e he).2⟩
  | record entries ih =>
      rw [Value.Plain, plainEntries_iff] at hplain
      rw [Value.HoleFree, holeFreeEntries_iff] at hfree
      refine (fits_record hfree.1).mpr ⟨entries, rfl, fun e he => ?_, List.Subset.refl _⟩
      exact ⟨e.2, get_of_mem hplain.1 he, ih e he (hplain.2 e he) (hfree.2 e he)⟩

theorem alike_of_fits {expected actual : Value} (hed : expected.Distinct) (had : actual.Distinct)
    (h : fits validate expected actual = true) : alike validate expected actual = true := by
  induction expected generalizing actual with
  | record es ih =>
      by_cases hany : isAny (.record es) = true
      · rw [fits_any hany] at h
        simpa [alike, hany] using h
      · have hany' := Bool.eq_false_of_not_eq_true hany
        obtain ⟨fs, rfl, hvalues, hkeys⟩ := (fits_record hany').mp h
        rw [Value.Distinct, distinctEntries_iff] at hed had
        refine (alike_record hany').mpr ⟨rfl, fun e he => ?_,
          fun f hf => .inl (hkeys (List.mem_map_of_mem hf))⟩
        obtain ⟨w, hw, hfits⟩ := hvalues e he
        exact ⟨w, read_of_mem had.1 (mem_of_get hw),
          ih e he (hed.2 e he) (had.2 _ (mem_of_get hw)) hfits⟩
  | array xs ih =>
      cases actual with
      | array ys =>
          rw [Value.Distinct, distinctItems_iff] at hed had
          rw [fits, fitsItems_iff] at h
          rw [alike, alikeItems_iff]
          exact forall₂_imp_of_mem h fun x hx y hy => ih x hx (hed x hx) (had y hy)
      | _ => simp [fits, Value.is] at h
  | date time => cases actual <;> simp_all [fits, alike, Value.is, Value.isObject, Value.fields]
  | map entries => cases actual <;> simp_all [fits, alike, Value.is, Value.isObject, Value.fields]
  | set items => cases actual <;> simp_all [fits, alike, Value.is, Value.isObject, Value.fields]
  | primitive p => simp_all [fits, alike]
  | method owner name => simp_all [fits, alike]
  | prototype p => simp_all [fits, alike]
  | schema id => simp_all [fits, alike]

end Fits

/-! ## Places -/

inductive Step where
  | item (i : ℕ)
  | field (key : Str)
  deriving DecidableEq

namespace Value

def child : Value → Step → Option Value
  | .array items, .item i => items[i]?
  | .record entries, .field key => get key entries
  | _, _ => none

def setChild : Value → Step → Value → Value
  | .array items, .item i, w => .array (items.set i w)
  | .record entries, .field key, w => .record (Lib.OrderedMap.set key w entries)
  | v, _, _ => v

def atPlace : Value → List Step → Option Value
  | v, [] => some v
  | v, step :: place => (v.child step).bind fun w => w.atPlace place

/-- Another value at a place that is there. -/
def putAt : Value → List Step → Value → Value
  | _, [], new => new
  | v, step :: place, new => (v.child step).elim v fun w => v.setChild step (w.putAt place new)

def isRecord : Value → Bool
  | .record _ => true
  | _ => false

theorem child_setChild {v w x : Value} {step : Step} (h : v.child step = some x) (other : Step) :
    (v.setChild step w).child other = if other = step then some w else v.child other := by
  cases v with
  | array items =>
      cases step with
      | field key => cases h
      | item i =>
          obtain ⟨hi, -⟩ := List.getElem?_eq_some_iff.mp h
          cases other with
          | field key => simp [setChild, child]
          | item j =>
              simp only [setChild, child, List.getElem?_set, Step.item.injEq]
              by_cases hij : j = i
              · simp [hij, hi]
              · simp [hij, Ne.symm hij]
  | record entries =>
      cases step with
      | item i => cases h
      | field key =>
          cases other with
          | item j => simp [setChild, child]
          | field key' =>
              simp only [setChild, child, Step.field.injEq]
              by_cases hkey : key' = key
              · rw [if_pos hkey, hkey, get_set_self]
              · rw [if_neg hkey, get_set_of_ne hkey]
  | _ => cases h

theorem isArray_setChild (v w : Value) (step : Step) : (v.setChild step w).isArray = v.isArray := by
  cases v <;> cases step <;> rfl

theorem isRecord_setChild (v w : Value) (step : Step) :
    (v.setChild step w).isRecord = v.isRecord := by
  cases v <;> cases step <;> rfl

theorem array_or_record_of_child {v x : Value} {step : Step} (h : v.child step = some x) :
    v.isArray = true ∨ v.isRecord = true := by
  cases v with
  | array items => exact .inl rfl
  | record entries => exact .inr rfl
  | _ => cases h

theorem not_any_of_holeFree {v : Value} (h : v.HoleFree) : isAny v = false := by
  cases v with
  | record entries => exact h.1
  | _ => rfl

theorem plain_child {v x : Value} {step : Step} (hv : v.Plain) (h : v.child step = some x) :
    x.Plain := by
  cases v with
  | array items =>
      cases step with
      | item i => exact plainItems_iff.mp hv x (List.mem_of_getElem? h)
      | field key => cases h
  | record entries =>
      cases step with
      | item i => cases h
      | field key => exact plainEntries_iff.mp hv.2 _ (mem_of_get h)
  | _ => cases h

theorem holeFree_child {v x : Value} {step : Step} (hv : v.HoleFree) (h : v.child step = some x) :
    x.HoleFree := by
  cases v with
  | array items =>
      cases step with
      | item i => exact holeFreeItems_iff.mp hv x (List.mem_of_getElem? h)
      | field key => cases h
  | record entries =>
      cases step with
      | item i => cases h
      | field key => exact holeFreeEntries_iff.mp hv.2 _ (mem_of_get h)
  | _ => cases h

theorem distinct_child {v x : Value} {step : Step} (hv : v.Distinct) (h : v.child step = some x) :
    x.Distinct := by
  cases v with
  | array items =>
      cases step with
      | item i => exact distinctItems_iff.mp hv x (List.mem_of_getElem? h)
      | field key => cases h
  | record entries =>
      cases step with
      | item i => cases h
      | field key => exact distinctEntries_iff.mp hv.2 _ (mem_of_get h)
  | _ => cases h

theorem distinct_setChild {v w : Value} (hv : v.Distinct) (hw : w.Distinct) (step : Step) :
    (v.setChild step w).Distinct := by
  cases v with
  | array items =>
      cases step with
      | field key => exact hv
      | item i =>
          refine distinctItems_iff.mpr fun item hitem => ?_
          rcases List.mem_or_eq_of_mem_set hitem with hmem | rfl
          · exact distinctItems_iff.mp hv item hmem
          · exact hw
  | record entries =>
      cases step with
      | item i => exact hv
      | field key =>
          refine ⟨nodup_keys_set hv.1, distinctEntries_iff.mpr fun e he => ?_⟩
          rcases get_set_cases (get_of_mem (nodup_keys_set hv.1) he) with ⟨-, heq⟩ | ⟨-, hget⟩
          · exact heq ▸ hw
          · exact distinctEntries_iff.mp hv.2 _ (mem_of_get hget)
  | _ => cases step <;> exact hv

theorem distinct_putAt {v new : Value} (hv : v.Distinct) (hnew : new.Distinct) (place : List Step) :
    (v.putAt place new).Distinct := by
  induction place generalizing v with
  | nil => exact hnew
  | cons step place ih =>
      rw [putAt]
      cases hchild : v.child step with
      | none => exact hv
      | some x => exact distinct_setChild hv (ih (distinct_child hv hchild)) step

/-- What a hole was put into is no string. -/
theorem putAt_not_string {hole v w : Value} {place : List Step} (hhole : isAny hole = true)
    (h : v.atPlace place = some w) : Value.is (string "any") (v.putAt place hole) = false := by
  cases place with
  | nil =>
      cases hole with
      | record entries => rfl
      | _ => cases hhole
  | cons step place =>
      obtain ⟨x, hx, -⟩ := Option.bind_eq_some_iff.mp h
      rw [putAt, hx]
      cases v with
      | array items => cases step <;> rfl
      | record entries => cases step <;> rfl
      | _ => cases hx

end Value

/-- A record is no hole for what stands under one of its keys, unless this is the text `any`. -/
theorem isAny_setChild {v w x : Value} {step : Step} (hany : isAny v = false)
    (hchild : v.child step = some x) (hw : Value.is (string "any") w = false) :
    isAny (v.setChild step w) = false := by
  cases v with
  | record entries =>
      cases step with
      | item i => cases hchild
      | field key =>
          have hkeys : ∀ es : List (Str × Value), (es.all fun e => e.1 = kind || e.1 = schema) =
              (es.map Prod.fst).all fun k => k = kind || k = schema :=
                fun es => by simp [List.all_map, Function.comp_def]
          rw [isAny, hkeys] at hany
          rw [Value.setChild, isAny, hkeys, keys_set_of_get hchild]
          by_cases hkind : kind = key
          · rw [hkind, get_set_self]
            simp [hw]
          · rwa [get_set_of_ne hkind]
  | _ => cases step <;> rfl

section Fits

variable {validate : ℕ → Value → Validation}

/-- An array, or a record that is no hole, fits by what stands at each step. -/
theorem fits_children {expected actual : Value} (hany : isAny expected = false)
    (he : expected.isArray = true ∨ expected.isRecord = true) (hed : expected.Distinct) :
    fits validate expected actual = true ↔
      (expected.isArray = actual.isArray ∧ expected.isRecord = actual.isRecord) ∧
        ∀ step, Option.Rel (fun v w => fits validate v w = true) (expected.child step)
          (actual.child step) := by
  cases expected with
  | array xs =>
      cases actual with
      | array ys =>
          rw [fits, fitsItems_iff, forall₂_iff_rel]
          refine ⟨fun h => ⟨⟨rfl, rfl⟩, fun step => ?_⟩, fun h i => h.2 (.item i)⟩
          cases step with
          | item i => exact h i
          | field key => exact .none
      | _ => simp [fits, Value.is, Value.isArray]
  | record es =>
      rw [fits_record hany]
      cases actual with
      | record fs =>
          simp only [Value.record.injEq, exists_eq_left']
          rw [@entries_iff_rel _ (fun v w => fits validate v w = true) es fs hed.1]
          refine ⟨fun h => ⟨⟨rfl, rfl⟩, fun step => ?_⟩, fun h key => h.2 (.field key)⟩
          cases step with
          | item i => exact .none
          | field key => exact h key
      | _ => simp [Value.isRecord]
  | _ => simp [Value.isArray, Value.isRecord] at he

/-- One child of the expected value replaced: this one fits what stands there, and the
others fit as before. -/
theorem rel_update {P : Value → Value → Prop} {f g : Step → Option Value} {step : Step}
    {x : Value} :
    (∀ other, Option.Rel P (if other = step then some x else f other) (g other)) ↔
      (∃ y, g step = some y ∧ P x y) ∧ ∀ other, other ≠ step →
        Option.Rel P (f other) (g other) := by
  constructor
  · intro h
    refine ⟨?_, fun other hne => by simpa [hne] using h other⟩
    have hstep := h step
    rw [if_pos rfl] at hstep
    cases hg : g step with
    | none => simp [hg] at hstep
    | some y => exact ⟨y, rfl, by simpa [hg] using hstep⟩
  · rintro ⟨⟨y, hy, hP⟩, hothers⟩ other
    by_cases hne : other = step
    · rw [if_pos hne, hne, hy]
      exact .some hP
    · rw [if_neg hne]
      exact hothers other hne

/-- The same with a child of the observed value replaced. -/
theorem rel_update_right {P : Value → Value → Prop} {f g : Step → Option Value} {step : Step}
    {x y : Value} (hx : f step = some x) :
    (∀ other, Option.Rel P (f other) (if other = step then some y else g other)) ↔
      P x y ∧ ∀ other, other ≠ step → Option.Rel P (f other) (g other) := by
  constructor
  · intro h
    refine ⟨by simpa [hx] using h step, fun other hne => by simpa [hne] using h other⟩
  · rintro ⟨hP, hothers⟩ other
    by_cases hne : other = step
    · rw [if_pos hne, hne, hx]
      exact .some hP
    · rw [if_neg hne]
      exact hothers other hne

theorem fits_putAt {hole : Value} (hhole : isAny hole = true) (hdistinct : hole.Distinct)
    {place : List Step} {expected actual v : Value} (hplain : expected.Plain)
    (hfree : expected.HoleFree) (hplace : expected.atPlace place = some v) :
    fits validate (expected.putAt place hole) actual = true ↔
      ∃ w, actual.atPlace place = some w ∧ satisfies validate hole w = true ∧
        fits validate expected (actual.putAt place v) = true := by
  induction place generalizing expected actual with
  | nil =>
      cases hplace
      rw [Value.putAt, fits_any hhole]
      refine ⟨fun h => ⟨actual, rfl, h, fits_self hplain hfree⟩, ?_⟩
      rintro ⟨w, hw, hsatisfies, -⟩
      cases hw
      exact hsatisfies
  | cons step place ih =>
      obtain ⟨x, hx, hxv⟩ := Option.bind_eq_some_iff.mp hplace
      have hnode := Value.array_or_record_of_child hx
      have hany := Value.not_any_of_holeFree hfree
      have hput :
          expected.putAt (step :: place) hole = expected.setChild step (x.putAt place hole) := by
        rw [Value.putAt, hx]
        rfl
      have hany' : isAny (expected.setChild step (x.putAt place hole)) = false :=
        isAny_setChild hany hx (Value.putAt_not_string hhole hxv)
      have hdistinct' : (expected.setChild step (x.putAt place hole)).Distinct :=
        hput ▸ Value.distinct_putAt (distinct_of_plain hplain) hdistinct (step :: place)
      have hnode' : (expected.setChild step (x.putAt place hole)).isArray = true ∨
          (expected.setChild step (x.putAt place hole)).isRecord = true := by
        rwa [Value.isArray_setChild, Value.isRecord_setChild]
      rw [hput, fits_children hany' hnode' hdistinct', Value.isArray_setChild,
        Value.isRecord_setChild]
      simp only [Value.child_setChild hx]
      rw [rel_update]
      constructor
      · rintro ⟨hkind, ⟨y, hy, hfits⟩, hothers⟩
        obtain ⟨w, hw, hsatisfies, hrest⟩ :=
          (ih (Value.plain_child hplain hx) (Value.holeFree_child hfree hx) hxv).mp hfits
        have hput' : actual.putAt (step :: place) v = actual.setChild step (y.putAt place v) := by
          rw [Value.putAt, hy]
          rfl
        refine ⟨w, by rw [Value.atPlace, hy]; exact hw, hsatisfies, ?_⟩
        rw [hput', fits_children hany hnode (distinct_of_plain hplain), Value.isArray_setChild,
          Value.isRecord_setChild]
        simp only [Value.child_setChild hy]
        exact ⟨hkind, (rel_update_right hx).mpr ⟨hrest, hothers⟩⟩
      · rintro ⟨w, hw, hsatisfies, hrest⟩
        obtain ⟨y, hy, hyw⟩ := Option.bind_eq_some_iff.mp hw
        have hput' : actual.putAt (step :: place) v = actual.setChild step (y.putAt place v) := by
          rw [Value.putAt, hy]
          rfl
        rw [hput', fits_children hany hnode (distinct_of_plain hplain), Value.isArray_setChild,
          Value.isRecord_setChild] at hrest
        simp only [Value.child_setChild hy] at hrest
        obtain ⟨hkind, hrel⟩ := hrest
        obtain ⟨hfits, hothers⟩ := (rel_update_right hx).mp hrel
        refine ⟨hkind, ⟨y, hy, ?_⟩, hothers⟩
        exact (ih (Value.plain_child hplain hx) (Value.holeFree_child hfree hx) hxv).mpr ⟨w, hyw,
          hsatisfies, hfits⟩

theorem exact_iff {expected actual : Value} (hed : expected.Distinct) (had : actual.Distinct)
    (path : Str) {asked : Prop} (hasked : fits validate expected actual = true ↔ asked) :
    (compare validate expected actual path = some [] ↔ asked) ↔
      (alike validate expected actual = true → fits validate expected actual = true) := by
  rw [compare_iff_alike hed had, ← hasked]
  exact ⟨fun h => h.mp, fun h => ⟨h, alike_of_fits hed had⟩⟩

end Fits

theorem isAny_any (schema : Option ℕ) : isAny (any schema) = true := by
  cases schema with
  | none => decide
  | some id => simp [isAny, any, Lib.OrderedMap.get, string, Value.is]

theorem distinct_any (schema : Option ℕ) : (any schema).Distinct := by
  cases schema with
  | none => exact ⟨by decide, trivial, trivial⟩
  | some id =>
      have hnodup : [kind, schema].Nodup := by decide
      exact ⟨hnodup, trivial, trivial, trivial⟩

/-! ## Deep-strict -/

/-- For a value without holes the comparison finds no difference exactly in what is deeply equal,
and with a hole at one place exactly in what satisfies the hole there and is deeply equal elsewhere,
if and only if what it sees as alike fits. -/
theorem deep_strict_iff (validate : ℕ → Value → Validation) (expected : Pinned) (actual : Payload)
    (path : Str) :
    ((compare validate expected.1 actual.1 path = some [] ↔
      fits validate expected.1 actual.1 = true) ↔
      (alike validate expected.1 actual.1 = true → fits validate expected.1 actual.1 = true)) ∧
    ∀ (place : List Step) (schema : Option ℕ) (v : Value), expected.1.atPlace place = some v →
      ((compare validate (expected.1.putAt place (any schema)) actual.1 path = some [] ↔
          ∃ w, actual.1.atPlace place = some w ∧ satisfies validate (any schema) w = true ∧
            fits validate expected.1 (actual.1.putAt place v) = true) ↔
        (alike validate (expected.1.putAt place (any schema)) actual.1 = true →
          fits validate (expected.1.putAt place (any schema)) actual.1 = true)) := by
  have hed := distinct_of_plain expected.2.1
  have had := distinct_of_plain actual.2
  refine ⟨exact_iff hed had path Iff.rfl, fun place schema v hplace => ?_⟩
  refine exact_iff (Value.distinct_putAt hed (distinct_any schema) place) had path ?_
  exact fits_putAt (isAny_any schema) (distinct_any schema) expected.2.1 expected.2.2 hplace

/-- Two dates at different times have no difference. -/
theorem dates_not_compared :
    ((Value.date (some 0)).Plain ∧ (Value.date (some 0)).HoleFree ∧
      (Value.date (some 86400000)).Plain) ∧
      compare (fun _ _ => .valid) (.date (some 0)) (.date (some 86400000)) [] = some [] ∧
        fits (fun _ _ => .valid) (.date (some 0)) (.date (some 86400000)) = false :=
  ⟨⟨trivial, trivial, trivial⟩, compare_bare rfl rfl rfl rfl rfl [], by decide⟩

/-- A hole whose schema refuses everything, at a field of a record that is observed as expected. -/
theorem deep_strict_at_field :
    let expected : Value := .record [(kind, .primitive .null)]
    let validate : ℕ → Value → Validation := fun _ _ => .issues
    expected.atPlace [.field kind] = some (.primitive .null) ∧
      ((compare validate (expected.putAt [.field kind] (any (some 0))) expected [] = some [] ↔
          ∃ w, expected.atPlace [.field kind] = some w ∧
            satisfies validate (any (some 0)) w = true ∧
            fits validate expected (expected.putAt [.field kind] (.primitive .null)) = true) ↔
        (alike validate (expected.putAt [.field kind] (any (some 0))) expected = true →
          fits validate (expected.putAt [.field kind] (any (some 0))) expected = true)) := by
  intro expected validate
  have hplain : expected.Plain := ⟨by simp, trivial, trivial⟩
  have hfree : expected.HoleFree := ⟨by decide, trivial, trivial⟩
  refine ⟨rfl, ?_⟩
  exact (deep_strict_iff validate ⟨expected, hplain, hfree⟩ ⟨expected, hplain⟩ []).2 [.field kind]
    (some 0) _ rfl

/-! ## Values in which nothing is hidden -/

mutual
/-- No `Date`, `Map` or `Set` outside holes, and no key that every object answers. -/
def Open (holes : Bool) : Value → Prop
  | .primitive _ => True
  | .array items => OpenItems holes items
  | .record entries => (holes && isAny (.record entries)) = true ∨ OpenEntries holes entries
  | _ => False

def OpenItems (holes : Bool) : List Value → Prop
  | [] => True
  | item :: items => Open holes item ∧ OpenItems holes items

def OpenEntries (holes : Bool) : List (Str × Value) → Prop
  | [] => True
  | (key, v) :: entries =>
      (Value.inherited .object key = .absent ∧ Open holes v) ∧ OpenEntries holes entries
end

theorem openItems_iff {holes : Bool} {items : List Value} :
    OpenItems holes items ↔ ∀ item ∈ items, Open holes item := by
  induction items with
  | nil => simp [OpenItems]
  | cons item items ih => simp [OpenItems, ih]

theorem openEntries_iff {holes : Bool} {entries : List (Str × Value)} :
    OpenEntries holes entries ↔ ∀ e ∈ entries, Value.inherited .object e.1 = .absent ∧
      Open holes e.2 := by
  induction entries with
  | nil => simp [OpenEntries]
  | cons e entries ih => simp [OpenEntries, ih]

/-- What is seen as alike fits where nothing is hidden. -/
theorem fits_of_alike {validate : ℕ → Value → Validation} {expected actual : Value}
    (he : Open true expected) (ha : Open false actual) (had : actual.Distinct)
    (h : alike validate expected actual = true) :
    fits validate expected actual = true := by
  induction expected generalizing actual with
  | primitive p => simpa [alike, fits, Value.isObject] using h
  | array xs ih =>
      cases actual with
      | array ys =>
          rw [Open, openItems_iff] at he ha
          rw [Value.Distinct, distinctItems_iff] at had
          rw [alike, alikeItems_iff] at h
          rw [fits, fitsItems_iff]
          exact forall₂_imp_of_mem h fun x hx y hy => ih x hx (he x hx) (ha y hy) (had y hy)
      | _ => simp [alike, Value.is, Value.isObject] at h
  | record es ih =>
      by_cases hany : isAny (.record es) = true
      · rw [fits_any hany]
        simpa [alike, hany] using h
      · have hany' := Bool.eq_false_of_not_eq_true hany
        obtain ⟨hobject, hown, hother⟩ := (alike_record hany').mp h
        cases actual with
        | record fs =>
            rw [Open, hany', Bool.and_false, openEntries_iff] at he
            rw [Open, Bool.false_and, openEntries_iff] at ha
            rw [Value.Distinct, distinctEntries_iff] at had
            replace he := he.resolve_left Bool.false_ne_true
            replace ha := ha.resolve_left Bool.false_ne_true
            refine (fits_record hany').mpr ⟨fs, rfl, fun e hmem => ?_, fun key hkey => ?_⟩
            · obtain ⟨w, hw, halike⟩ := hown e hmem
              by_cases hkey : e.1 ∈ (Value.record fs).keys
              · obtain ⟨f, hf, hfe⟩ := List.mem_map.mp hkey
                have hread := read_of_mem had.1 hf
                rw [hfe] at hread
                cases hread.symm.trans hw
                exact ⟨f.2, hfe ▸ get_of_mem had.1 hf,
                  ih e hmem (he e hmem).2 (ha f hf).2 (had.2 f hf) halike⟩
              · rw [Value.read_of_not_own hkey] at hw
                cases (he e hmem).1.symm.trans hw
            · obtain ⟨f, hf, rfl⟩ := List.mem_map.mp hkey
              refine (hother f hf).resolve_right fun hstands => ?_
              rw [show (Value.record es).readInherited f.1 = .absent from (ha f hf).1] at hstands
              simp [standsFor] at hstands
        | primitive p => cases hobject
        | method owner name => cases hobject
        | array ys => cases hobject
        | _ => cases ha
  | _ => cases he

end Kronos.Test.Compare
