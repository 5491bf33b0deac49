import Mathlib.Data.Rat.Defs
import Mathlib.Data.List.Forall2
import Mathlib.Data.List.Perm.Subperm
import Kronos.Lib.JsonText
import Kronos.Lib.OrderedMap

/-!
# Primitive values and built-in prototypes

The primitive values of ECMAScript with the two equalities programs use, `===`
and `Object.is`, and what an object answers under a key that is not its own: a
method of a prototype, the prototype itself under `__proto__`, or nothing.
-/
namespace Kronos.Lib.EcmaScript
open Utf8 (Str)
open JsonText (ascii)

/-! ## Primitives -/

inductive Number where
  | nan
  | infinity (negative : Bool)
  | negativeZero
  | finite (x : ℚ)
  deriving DecidableEq

/-- `===`: the two zeros are equal, `NaN` is equal to nothing. -/
def Number.strictEquals : Number → Number → Bool
  | .nan, _ => false
  | .negativeZero, .finite y => y = 0
  | .finite x, .negativeZero => x = 0
  | x, y => x = y

inductive Primitive where
  | undefined
  | null
  | boolean (b : Bool)
  | number (x : Number)
  | string (s : Str)
  | bigint (v : ℤ)
  | symbol (id : ℕ)
  deriving DecidableEq

namespace Primitive

/-- `===`. `Object.is` is equality: it tells the zeros apart and `NaN` is itself. -/
def strictEquals : Primitive → Primitive → Bool
  | .number x, .number y => x.strictEquals y
  | p, q => p = q

/-- What `===` does not find equal to itself. -/
def isNaN (p : Primitive) : Bool := p = .number .nan

end Primitive

theorem Number.strictEquals_comm (x y : Number) : x.strictEquals y = y.strictEquals x := by
  cases x <;> cases y <;> simp [Number.strictEquals, eq_comm]

theorem Primitive.strictEquals_comm (p q : Primitive) : p.strictEquals q = q.strictEquals p := by
  cases p <;> cases q <;> simp [Primitive.strictEquals, Number.strictEquals_comm, eq_comm]

theorem Number.strictEquals_self {x : Number} (h : x ≠ .nan) : x.strictEquals x = true := by
  cases x with
  | nan => exact absurd rfl h
  | infinity negative => simp [Number.strictEquals]
  | negativeZero => simp [Number.strictEquals]
  | finite x => simp [Number.strictEquals]

theorem Primitive.strictEquals_self {p : Primitive} (h : p.isNaN = false) :
    p.strictEquals p = true := by
  cases p with
  | number x =>
      refine Number.strictEquals_self ?_
      rintro rfl
      simp [Primitive.isNaN] at h
  | undefined => simp [Primitive.strictEquals]
  | null => simp [Primitive.strictEquals]
  | boolean b => simp [Primitive.strictEquals]
  | string s => simp [Primitive.strictEquals]
  | bigint v => simp [Primitive.strictEquals]
  | symbol id => simp [Primitive.strictEquals]

/-! ## Prototypes -/

inductive Prototype where
  | object
  | array
  | date
  | map
  | set
  deriving DecidableEq

def proto : Str := ascii "__proto__"

def length : Str := ascii "length"

def size : Str := ascii "size"

namespace Prototype

/-- The names under which a prototype has a method of its own. -/
def methods : Prototype → List Str
  | .object =>
      ["constructor", "__defineGetter__", "__defineSetter__", "__lookupGetter__",
        "__lookupSetter__",
        "hasOwnProperty", "isPrototypeOf", "propertyIsEnumerable", "toLocaleString", "toString",
          "valueOf"].map ascii
  | .array =>
      ["at", "concat", "constructor", "copyWithin", "entries", "every", "fill", "filter", "find",
        "findIndex",
        "findLast", "findLastIndex", "flat", "flatMap", "forEach", "includes", "indexOf",
          "join", "keys",
        "lastIndexOf", "map", "pop", "push", "reduce", "reduceRight", "reverse", "shift", "slice",
          "some", "sort",
        "splice", "toLocaleString", "toReversed", "toSorted", "toSpliced", "toString",
          "unshift", "values",
        "with"].map ascii
  | .date =>
      ["constructor", "getDate", "getDay", "getFullYear", "getHours", "getMilliseconds",
        "getMinutes", "getMonth",
        "getSeconds", "getTime", "getTimezoneOffset", "getUTCDate", "getUTCDay", "getUTCFullYear",
          "getUTCHours",
        "getUTCMilliseconds", "getUTCMinutes", "getUTCMonth", "getUTCSeconds", "getYear", "setDate",
        "setFullYear", "setHours", "setMilliseconds", "setMinutes", "setMonth",
          "setSeconds", "setTime",
        "setUTCDate", "setUTCFullYear", "setUTCHours", "setUTCMilliseconds", "setUTCMinutes",
          "setUTCMonth",
        "setUTCSeconds", "setYear", "toDateString", "toGMTString", "toISOString", "toJSON",
          "toLocaleDateString",
        "toLocaleString", "toLocaleTimeString", "toString", "toTimeString", "toUTCString",
          "valueOf"].map ascii
  | .map =>
      ["clear", "constructor", "delete", "entries", "forEach", "get", "has", "keys", "set",
        "values"].map ascii
  | .set =>
      ["add", "clear", "constructor", "delete", "difference", "entries", "forEach", "has",
        "intersection",
        "isDisjointFrom", "isSubsetOf", "isSupersetOf", "keys", "symmetricDifference", "union",
          "values"].map ascii

/-- The prototype on the chain from this one whose method stands under a key. -/
def owner (p : Prototype) (key : Str) : Option Prototype :=
  if key ∈ p.methods then some p else if key ∈ object.methods then some object else none

end Prototype

/-! ## Arrays and records -/

/-- What holds item by item may be weakened with what is known of the items. -/
theorem forall₂_imp_of_mem {α β : Type} {P Q : α → β → Prop} {xs : List α} {ys : List β}
    (h : List.Forall₂ P xs ys) (himp : ∀ x ∈ xs, ∀ y ∈ ys, P x y → Q x y) :
    List.Forall₂ Q xs ys := by
  induction h with
  | nil => exact .nil
  | cons hhead _ ih =>
      refine .cons (himp _ (by simp) _ (by simp) hhead) (ih fun x hx y hy => ?_)
      exact himp x (by simp [hx]) y (by simp [hy])

/-- Item by item is index by index, where both have an item or neither. -/
theorem forall₂_iff_rel {α β : Type} {P : α → β → Prop} {xs : List α} {ys : List β} :
    List.Forall₂ P xs ys ↔ ∀ i : ℕ, Option.Rel P xs[i]? ys[i]? := by
  constructor
  · intro h
    induction h with
    | nil => simp
    | cons hhead _ ih =>
        intro i
        cases i with
        | zero => simpa using hhead
        | succ i => simpa using ih i
  · intro h
    induction xs generalizing ys with
    | nil =>
        cases ys with
        | nil => exact .nil
        | cons y ys => exact absurd (h 0) (by simp)
    | cons x xs ih =>
        cases ys with
        | nil => exact absurd (h 0) (by simp)
        | cons y ys => exact .cons (by simpa using h 0) (ih fun i => by simpa using h (i + 1))

section Records

variable {V : Type}

theorem get_of_mem_keys {k : Str} {entries : List (Str × V)} (h : k ∈ entries.map Prod.fst) :
    ∃ v, OrderedMap.get k entries = some v := by
  cases hget : OrderedMap.get k entries with
  | none =>
      induction entries with
      | nil => cases h
      | cons entry entries ih =>
          by_cases heq : entry.1 = k
          · simp [OrderedMap.get, heq] at hget
          · simp only [OrderedMap.get, heq, if_false] at hget
            exact ih (by simpa [Ne.symm heq] using h) hget
  | some v => exact ⟨v, rfl⟩

/-- Of two records with equally many keys, one that has all keys of the other has no more. -/
theorem keys_subset_of_length {es fs : List (Str × V)} (hes : (es.map Prod.fst).Nodup)
    (hlength : es.length = fs.length) (hsub : es.map Prod.fst ⊆ fs.map Prod.fst) :
    fs.map Prod.fst ⊆ es.map Prod.fst := by
  have hperm : (es.map Prod.fst).Perm (fs.map Prod.fst) :=
    (List.subperm_of_subset hes hsub).perm_of_length_le (by simp [hlength])
  exact hperm.symm.subset

theorem length_le_of_keys_subset {es fs : List (Str × V)} (hes : (es.map Prod.fst).Nodup)
    (hsub : es.map Prod.fst ⊆ fs.map Prod.fst) : es.length ≤ fs.length := by
  simpa using (List.subperm_of_subset hes hsub).length_le

/-- Entry by entry is key by key, where both have the key or neither. -/
theorem entries_iff_rel {P : V → V → Prop} {es fs : List (Str × V)}
    (hes : (es.map Prod.fst).Nodup) :
    ((∀ e ∈ es, ∃ w, OrderedMap.get e.1 fs = some w ∧ P e.2 w) ∧
      fs.map Prod.fst ⊆ es.map Prod.fst) ↔
      ∀ key, Option.Rel P (OrderedMap.get key es) (OrderedMap.get key fs) := by
  constructor
  · rintro ⟨hvalues, hkeys⟩ key
    by_cases hkey : key ∈ es.map Prod.fst
    · obtain ⟨e, he, rfl⟩ := List.mem_map.mp hkey
      obtain ⟨w, hw, hP⟩ := hvalues e he
      rw [OrderedMap.get_of_mem hes he, hw]
      exact .some hP
    · rw [OrderedMap.get_eq_none_of_not_mem hkey,
        OrderedMap.get_eq_none_of_not_mem fun h => hkey (hkeys h)]
      exact .none
  · intro h
    refine ⟨fun e he => ?_, fun key hkey => ?_⟩
    · have hrel := h e.1
      rw [OrderedMap.get_of_mem hes he] at hrel
      cases hget : OrderedMap.get e.1 fs with
      | none => simp [hget] at hrel
      | some w => exact ⟨w, rfl, by simpa [hget] using hrel⟩
    · by_contra hnot
      obtain ⟨w, hw⟩ := get_of_mem_keys hkey
      have hrel := h key
      rw [OrderedMap.get_eq_none_of_not_mem hnot, hw] at hrel
      cases hrel

end Records

end Kronos.Lib.EcmaScript
