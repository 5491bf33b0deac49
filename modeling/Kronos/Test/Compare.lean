import Mathlib.Data.List.Permutation
import Kronos.Lib.EcmaScript

/-!
# The fixture's comparison of values

`compare` lists the differences between a value a scenario expects, which may
have holes `any()`, and a value that was observed. Two objects that are no arrays
are compared by the keys `Object.keys` gives of either, read in both.

A `Date`, a `Map` and a `Set` have no such keys, so what they hold is never
looked at. `alike` says what is left of a value for the comparison to see, and
`fits` what a scenario asks for. A hole stands in arrays and records only, as
`containsHole` of the fixture looks for it; what a `Map` or a `Set` holds is none.
-/
namespace Kronos.Test.Compare
open Lib.Utf8 (Str)
open Lib.NumberText (numeral)
open Lib.JsonText (ascii)
open Lib.EcmaScript
open Lib.OrderedMap (get mem_of_get get_of_mem get_eq_none_of_not_mem)

/-! ## Values -/

/-- `date none` is an invalid date. A schema is known by its number. -/
inductive Value where
  | primitive (p : Primitive)
  | method (owner : Prototype) (name : Str)
  | prototype (p : Prototype)
  | schema (id : ℕ)
  | array (items : List Value)
  | record (entries : List (Str × Value))
  | date (time : Option ℤ)
  | map (entries : List (Value × Value))
  | set (items : List Value)

inductive TypeOf where
  | undefined
  | object
  | boolean
  | number
  | string
  | bigint
  | symbol
  | function
  deriving DecidableEq

/-- What reading a key of an object comes to. -/
inductive Read where
  | absent
  | throws
  | value (v : Value)

namespace Value

mutual
/-- A payload: no method, prototype or schema in it, and no record with two entries of one key. -/
def Plain : Value → Prop
  | .primitive _ => True
  | .date _ => True
  | .array items => PlainItems items
  | .set items => PlainItems items
  | .map entries => PlainPairs entries
  | .record entries => (entries.map Prod.fst).Nodup ∧ PlainEntries entries
  | .method _ _ => False
  | .prototype _ => False
  | .schema _ => False

def PlainItems : List Value → Prop
  | [] => True
  | item :: items => item.Plain ∧ PlainItems items

def PlainPairs : List (Value × Value) → Prop
  | [] => True
  | (k, v) :: entries => (k.Plain ∧ v.Plain) ∧ PlainPairs entries

def PlainEntries : List (Str × Value) → Prop
  | [] => True
  | (_, v) :: entries => v.Plain ∧ PlainEntries entries
end

mutual
/-- No record that is compared has two entries of one key. -/
def Distinct : Value → Prop
  | .array items => DistinctItems items
  | .record entries => (entries.map Prod.fst).Nodup ∧ DistinctEntries entries
  | _ => True

def DistinctItems : List Value → Prop
  | [] => True
  | item :: items => item.Distinct ∧ DistinctItems items

def DistinctEntries : List (Str × Value) → Prop
  | [] => True
  | (_, v) :: entries => v.Distinct ∧ DistinctEntries entries
end

/-- A property of all values, by the values inside. -/
@[induction_eliminator]
theorem induct {P : Value → Prop} (primitive : ∀ p, P (.primitive p))
    (method : ∀ owner name, P (.method owner name)) (prototype : ∀ p, P (.prototype p))
    (schema : ∀ id, P (.schema id)) (array : ∀ items, (∀ item ∈ items, P item) → P (.array items))
    (record : ∀ entries, (∀ e ∈ entries, P e.2) → P (.record entries))
    (date : ∀ time, P (.date time))
    (map : ∀ entries, (∀ e ∈ entries, P e.1 ∧ P e.2) → P (.map entries))
    (set : ∀ items, (∀ item ∈ items, P item) → P (.set items)) (v : Value) : P v :=
  @Value.rec P (fun items => ∀ item ∈ items, P item) (fun entries => ∀ e ∈ entries, P e.2)
    (fun entries => ∀ e ∈ entries, P e.1 ∧ P e.2) (fun e => P e.2) (fun e => P e.1 ∧ P e.2)
    primitive method prototype schema array record date map set (by simp)
    (fun _ _ hitem hitems => List.forall_mem_cons.mpr ⟨hitem, hitems⟩) (by simp)
    (fun _ _ he hentries => List.forall_mem_cons.mpr ⟨he, hentries⟩) (by simp)
    (fun _ _ he hentries => List.forall_mem_cons.mpr ⟨he, hentries⟩) (fun _ _ hv => hv)
    (fun _ _ hk hv => ⟨hk, hv⟩) v

def typeOf : Value → TypeOf
  | .primitive .undefined => .undefined
  | .primitive .null => .object
  | .primitive (.boolean _) => .boolean
  | .primitive (.number _) => .number
  | .primitive (.string _) => .string
  | .primitive (.bigint _) => .bigint
  | .primitive (.symbol _) => .symbol
  | .method _ _ => .function
  | _ => .object

def isArray : Value → Bool
  | .array _ => true
  | _ => false

/-- `Object.is`. One object on both sides has no difference from itself and is compared like two. -/
def is : Value → Value → Bool
  | .primitive p, .primitive q => p = q
  | .method owner name, .method owner' name' => owner = owner' && name = name'
  | .prototype p, .prototype q => p = q
  | .schema id, .schema id' => id = id'
  | _, _ => false

def isNullish : Value → Bool
  | .primitive .undefined => true
  | .primitive .null => true
  | _ => false

/-- What `Object.keys` and reading them gives of an object that is no array. -/
def fields : Value → List (Str × Value)
  | .record entries => entries
  | _ => []

def keys (v : Value) : List Str := v.fields.map Prod.fst

def inherited (p : Prototype) (key : Str) : Read :=
  if key = proto then .value (.prototype p)
  else (p.owner key).elim .absent fun owner => .value (.method owner key)

/-- Reading a key that is not the object's own. The size of a `Map` is read through its prototype,
where it throws for an object that is no `Map`. -/
def readInherited (v : Value) (key : Str) : Read :=
  match v with
  | .date _ => inherited .date key
  | .map entries =>
      if key = size then .value (.primitive (.number (.finite entries.length)))
      else inherited .map key
  | .set items =>
      if key = size then .value (.primitive (.number (.finite items.length)))
      else inherited .set key
  | .prototype p =>
      if key = proto then .value (if p = .object then .primitive .null else .prototype .object)
      else if key = size ∧ (p = .map ∨ p = .set) then .throws
      else inherited p key
  | _ => inherited .object key

def read (v : Value) (key : Str) : Read := (get key v.fields).elim (v.readInherited key) .value

mutual
/-- How many arrays and records a value is built of. -/
def weight : Value → ℕ
  | .array items => 1 + weightItems items
  | .record entries => 1 + weightEntries entries
  | _ => 0

def weightItems : List Value → ℕ
  | [] => 0
  | item :: items => item.weight + weightItems items

def weightEntries : List (Str × Value) → ℕ
  | [] => 0
  | (_, v) :: entries => v.weight + weightEntries entries
end

theorem weight_le_weightItems {items : List Value} {item : Value} (h : item ∈ items) :
    item.weight ≤ weightItems items := by
  induction items with
  | nil => cases h
  | cons first items ih =>
      rw [weightItems]
      rcases List.mem_cons.mp h with rfl | h
      · omega
      · exact (ih h).trans (by omega)

theorem weight_le_weightEntries {entries : List (Str × Value)} {e : Str × Value} (h : e ∈ entries) :
    e.2.weight ≤ weightEntries entries := by
  induction entries with
  | nil => cases h
  | cons first entries ih =>
      rw [weightEntries]
      rcases List.mem_cons.mp h with rfl | h
      · omega
      · exact (ih h).trans (by omega)

/-- What an object answers under a key that is not its own is no record and no array. -/
def isBase : Value → Bool
  | .primitive _ => true
  | .method _ _ => true
  | .prototype _ => true
  | _ => false

theorem isBase_inherited {p : Prototype} {key : Str} {v : Value} (h : inherited p key = .value v) :
    v.isBase = true := by
  rw [inherited] at h
  by_cases hkey : key = proto
  · rw [if_pos hkey] at h
    cases h
    rfl
  · rw [if_neg hkey] at h
    cases howner : p.owner key with
    | none =>
        rw [howner] at h
        cases h
    | some owner =>
        rw [howner] at h
        cases h
        rfl

theorem isBase_readInherited {v w : Value} {key : Str} (h : v.readInherited key = .value w) :
    w.isBase = true := by
  cases v with
  | map entries =>
      by_cases hkey : key = size
      · simp only [readInherited, hkey, if_true, Read.value.injEq] at h
        exact h ▸ rfl
      · simp only [readInherited, hkey, if_false] at h
        exact isBase_inherited h
  | set items =>
      by_cases hkey : key = size
      · simp only [readInherited, hkey, if_true, Read.value.injEq] at h
        exact h ▸ rfl
      · simp only [readInherited, hkey, if_false] at h
        exact isBase_inherited h
  | prototype p =>
      rw [readInherited] at h
      by_cases hkey : key = proto
      · rw [if_pos hkey] at h
        by_cases hp : p = .object
        · rw [if_pos hp] at h
          cases h
          rfl
        · rw [if_neg hp] at h
          cases h
          rfl
      · rw [if_neg hkey] at h
        by_cases hsize : key = size ∧ (p = .map ∨ p = .set)
        · rw [if_pos hsize] at h
          cases h
        · rw [if_neg hsize] at h
          exact isBase_inherited h
  | _ => exact isBase_inherited h

theorem weight_of_isBase {v : Value} (h : v.isBase = true) : v.weight = 0 := by
  cases v with
  | array items => cases h
  | record entries => cases h
  | _ => rfl

theorem weight_read_own {v w : Value} {key : Str} (hkey : key ∈ v.keys)
    (h : v.read key = .value w) :
    w.weight < v.weight := by
  cases v with
  | record entries =>
      obtain ⟨w', hw'⟩ := get_of_mem_keys hkey
      have hread : (Value.record entries).read key = .value w' := by
        rw [read, show get key (Value.record entries).fields = some w' from hw']
        rfl
      cases hread.symm.trans h
      have hle : w.weight ≤ weightEntries entries := weight_le_weightEntries (mem_of_get hw')
      rw [weight]
      omega
  | _ => cases hkey

theorem read_of_not_own {v : Value} {key : Str} (h : key ∉ v.keys) :
    v.read key = v.readInherited key := by
  rw [read, get_eq_none_of_not_mem h]
  rfl

theorem not_own_of_absent {v : Value} {key : Str} (h : v.read key = .absent) : key ∉ v.keys := by
  intro hkey
  obtain ⟨w, hw⟩ := get_of_mem_keys hkey
  rw [read, hw] at h
  cases h

theorem weight_read {v w : Value} {key : Str} (h : v.read key = .value w) :
    w.weight ≤ v.weight := by
  by_cases hkey : key ∈ v.keys
  · exact (weight_read_own hkey h).le
  · rw [read_of_not_own hkey] at h
    exact (weight_of_isBase (isBase_readInherited h)).le.trans (Nat.zero_le _)

end Value

/-! ## Holes -/

def kind : Str := ascii "kind"

def schema : Str := ascii "schema"

def string (s : String) : Value := .primitive (.string (ascii s))

/-- `any(schema)`. -/
def any : Option ℕ → Value
  | none => .record [(kind, string "any")]
  | some id => .record [(kind, string "any"), (schema, .schema id)]

def isAny : Value → Bool
  | .record entries =>
      (get kind entries).any (Value.is (string "any")) && entries.all fun e =>
        e.1 = kind || e.1 = schema
  | _ => false

/-- What `validate` of a Standard Schema returns: no issues, issues, or a promise. -/
inductive Validation where
  | valid
  | issues
  | promise
  deriving DecidableEq

/-- The schema of a hole, `none` where there is none. `throws` stands for what has no `validate`. -/
inductive HoleSchema where
  | none
  | schema (id : ℕ)
  | throws

def schemaOf (hole : Value) : HoleSchema :=
  match get schema hole.fields with
  | .none => .none
  | some (.primitive .undefined) => .none
  | some (.schema id) => .schema id
  | some _ => .throws

/-! ## The comparison -/

inductive Difference where
  | asynchronous (here : Str)
  | unsatisfied (here : Str) (actual : Value)
  | differs (here : Str) (expected actual : Value)
  | differsInType (here : Str) (expected actual : Value)
  | unexpected (item : Str) (actual : Value)
  | missing (item : Str) (expected : Value)
  | unexpectedField (field : Str) (actual : Value)
  | missingField (field : Str) (expected : Value)

/-- What the steps of a loop push, in their order; `none` when a step throws. -/
def collect {δ : Type} : List (Option (List δ)) → Option (List δ)
  | [] => some []
  | step :: steps => step.bind fun pushed => (collect steps).map (pushed ++ ·)

def itemPath (path : Str) (i : ℕ) : Str := path ++ ascii "[" ++ numeral i ++ ascii "]"

def fieldPath (path key : Str) : Str := if path = [] then key else path ++ ascii "." ++ key

/-- `new Set` of the keys of both. -/
def keysOf (left right : Value) : List Str := left.keys ++ right.keys.filter fun key =>
    key ∉ left.keys

section Compare

variable (validate : ℕ → Value → Validation)

def compare (expected actual : Value) (path : Str) : Option (List Difference) :=
  let here := if path = [] then ascii "value" else path
  if isAny expected then
    match schemaOf expected with
    | .none => some []
    | .throws => none
    | .schema id =>
        match validate id actual with
        | .promise => some [.asynchronous here]
        | .valid => some []
        | .issues => some [.unsatisfied here actual]
  else if expected.is actual then some []
  else if expected.isNullish || actual.isNullish then some [.differs here expected actual]
  else if expected.typeOf ≠ actual.typeOf then some [.differsInType here expected actual]
  else if expected.typeOf ≠ .object then some [.differs here expected actual]
  else if expected.isArray ≠ actual.isArray then some [.differs here expected actual]
  else
    match expected, actual with
    | .array xs, .array ys =>
        collect <| (List.range (max xs.length ys.length)).map fun i =>
          match _hx : xs[i]?, _hy : ys[i]? with
          | none, none => some []
          | none, some y => some [.unexpected (itemPath path i) y]
          | some x, none => some [.missing (itemPath path i) x]
          | some x, some y => compare x y (itemPath path i)
    | left, right =>
        collect <| (keysOf left right).attach.map fun ⟨key, _hkey⟩ =>
          match _hl : left.read key, _hr : right.read key with
          | .throws, _ => none
          | _, .throws => none
          | .absent, .absent => some []
          | .absent, .value w => some [.unexpectedField (fieldPath path key) w]
          | .value v, .absent => some [.missingField (fieldPath path key) v]
          | .value v, .value w => compare v w (fieldPath path key)
termination_by expected.weight + actual.weight
decreasing_by
  · have hx' := Value.weight_le_weightItems (List.mem_of_getElem? _hx)
    have hy' := Value.weight_le_weightItems (List.mem_of_getElem? _hy)
    simp only [Value.weight]
    omega
  · have hv := Value.weight_read _hl
    have hw := Value.weight_read _hr
    rcases List.mem_append.mp _hkey with hown | hown
    · have := Value.weight_read_own hown _hl
      omega
    · have := Value.weight_read_own (List.mem_of_mem_filter hown) _hr
      omega

end Compare

/-! ## What a scenario asks for -/

section Fits

variable (validate : ℕ → Value → Validation)

/-- A hole takes what its schema accepts, at once. -/
def satisfies (hole actual : Value) : Bool :=
  match schemaOf hole with
  | .none => true
  | .throws => false
  | .schema id => validate id actual = .valid

mutual
/-- Deeply equal up to holes. The entries of a `Map` and the items of a `Set` have no order, their
holes no meaning. -/
def fits (expected actual : Value) : Bool :=
  match expected, actual with
  | .record es, actual =>
      if isAny (.record es) then satisfies validate (.record es) actual
      else
        match actual with
        | .record fs => fitsEntries es fs && fs.all fun f => f.1 ∈ es.map Prod.fst
        | _ => false
  | .array xs, .array ys => fitsItems xs ys
  | .date time, .date time' => time = time'
  | .map es, .map fs => fs.permutations.any fun gs => fitsPairs es gs
  | .set xs, .set ys => ys.permutations.any fun zs => fitsItems xs zs
  | expected, actual => expected.is actual
termination_by structural expected

def fitsItems : List Value → List Value → Bool
  | [], [] => true
  | x :: xs, y :: ys => fits x y && fitsItems xs ys
  | _, _ => false

def fitsPairs : List (Value × Value) → List (Value × Value) → Bool
  | [], [] => true
  | (k, v) :: es, f :: fs => (fits k f.1 && fits v f.2) && fitsPairs es fs
  | _, _ => false

def fitsEntries : List (Str × Value) → List (Str × Value) → Bool
  | [], _ => true
  | (key, v) :: es, fs => (get key fs).any (fits v) && fitsEntries es fs
end

end Fits

/-! ## What the comparison sees -/

namespace Value

/-- An object that is no array. -/
def isObject : Value → Bool
  | .record _ => true
  | .date _ => true
  | .map _ => true
  | .set _ => true
  | .prototype _ => true
  | .schema _ => true
  | _ => false

end Value

theorem Value.typeOf_of_isObject {v : Value} (h : v.isObject = true) :
    v.typeOf = .object ∧ v.isNullish = false ∧ v.isArray = false := by
  cases v with
  | primitive p => cases h
  | method owner name => cases h
  | array items => cases h
  | _ => exact ⟨rfl, rfl, rfl⟩

theorem Value.array_or_object {v : Value} (h : v.typeOf = .object) (hnull : v.isNullish = false) :
    v.isArray = true ∨ v.isObject = true := by
  cases v with
  | primitive p =>
      cases p with
      | null => cases hnull
      | _ => cases h
  | method owner name => cases h
  | array items => exact .inl rfl
  | _ => exact .inr rfl

mutual
/-- What was read without being an own property looks like the value. -/
def standsFor : Read → Value → Bool
  | .value (.prototype p), .record fs => standsForFields p fs
  | .value (.prototype _), v => v.isObject
  | .value v, w => v.is w
  | _, _ => false

def standsForFields (p : Prototype) : List (Str × Value) → Bool
  | [] => true
  | (key, v) :: fs => standsFor ((Value.prototype p).read key) v && standsForFields p fs
end

section Alike

variable (validate : ℕ → Value → Validation)

mutual
/-- Equal up to holes in what is an own property of either, where a `Date`, a `Map` and a
`Set` have none. -/
def alike (expected actual : Value) : Bool :=
  match expected, actual with
  | .record es, actual =>
      if isAny (.record es) then satisfies validate (.record es) actual
      else
        actual.isObject && alikeEntries es actual &&
          actual.fields.all fun f =>
            f.1 ∈ es.map Prod.fst || standsFor ((Value.record es).readInherited f.1) f.2
  | .array xs, .array ys => alikeItems xs ys
  | expected, actual =>
      expected.is actual ||
        expected.isObject && actual.isObject && actual.fields.all fun f =>
          standsFor (expected.readInherited f.1) f.2

def alikeItems : List Value → List Value → Bool
  | [], [] => true
  | x :: xs, y :: ys => alike x y && alikeItems xs ys
  | _, _ => false

def alikeEntries : List (Str × Value) → Value → Bool
  | [], _ => true
  | (key, v) :: es, actual =>
      (match actual.read key with
        | .value w => alike v w
        | _ => false) && alikeEntries es actual
end

end Alike

/-! ## What the recursions say -/

theorem collect_eq_nil {δ : Type} {steps : List (Option (List δ))} :
    collect steps = some [] ↔ ∀ step ∈ steps, step = some [] := by
  induction steps with
  | nil => simp [collect]
  | cons step steps ih =>
      rw [List.forall_mem_cons, ← ih]
      cases step with
      | none => simp [collect]
      | some pushed => cases pushed <;> cases hrest : collect steps <;> simp [collect, hrest]

theorem mem_keysOf {left right : Value} {key : Str} :
    key ∈ keysOf left right ↔ key ∈ left.keys ∨ key ∈ right.keys := by
  rw [keysOf, List.mem_append, List.mem_filter]
  by_cases hkey : key ∈ left.keys
  · simp [hkey]
  · simp [hkey]

section Compare

variable {validate : ℕ → Value → Validation}

theorem compare_any {expected actual : Value} (h : isAny expected = true) (path : Str) :
    compare validate expected actual path = some [] ↔
      satisfies validate expected actual = true := by
  rw [compare.eq_def, satisfies]
  simp only [h, if_true]
  cases schemaOf expected with
  | none => simp
  | throws => simp
  | schema id => cases hvalid : validate id actual <;> simp [hvalid]

theorem compare_array {xs ys : List Value} {P : Value → Value → Prop}
    (h : ∀ x ∈ xs, ∀ y ∈ ys, ∀ path, compare validate x y path = some [] ↔ P x y) (path : Str) :
    compare validate (.array xs) (.array ys) path = some [] ↔ List.Forall₂ P xs ys := by
  rw [compare]
  simp only [isAny, Value.is, Value.isNullish, Value.typeOf, Value.isArray]
  simp only [Bool.false_eq_true, if_false, ne_eq, not_true_eq_false, Bool.or_self]
  have hstep : ∀ i : ℕ, Option.Rel P xs[i]? ys[i]? ↔ (match _hx : xs[i]?, _hy : ys[i]? with
      | none, none => some []
      | none, some y => some [.unexpected (itemPath path i) y]
      | some x, none => some [.missing (itemPath path i) x]
      | some x, some y => compare validate x y (itemPath path i)) = some [] := by
    intro i
    split
    case h_1 hx hy => simp [hx, hy]
    case h_2 y hx hy => simp [hx, hy]
    case h_3 x hx hy => simp [hx, hy]
    case h_4 x y hx hy =>
      rw [h x (List.mem_of_getElem? hx) y (List.mem_of_getElem? hy)]
      simp [hx, hy]
  rw [collect_eq_nil, List.forall_mem_map, forall₂_iff_rel]
  refine ⟨fun hsteps i => ?_, fun hrel i _ => (hstep i).mp (hrel i)⟩
  by_cases hi : i < max xs.length ys.length
  · exact (hstep i).mpr (hsteps i (List.mem_range.mpr hi))
  · rw [List.getElem?_eq_none (by omega), List.getElem?_eq_none (by omega)]
    exact .none

/-- Two objects that are no arrays have no difference when each key of either reads the same
in both. -/
theorem compare_objects {expected actual : Value} (hany : isAny expected = false)
    (he : expected.isObject = true) (ha : actual.isObject = true) (path : Str) :
    compare validate expected actual path = some [] ↔
      expected.is actual = true ∨ ∀ key, (key ∈ expected.keys ∨ key ∈ actual.keys) →
        ∃ v w, expected.read key = .value v ∧ actual.read key = .value w ∧
          compare validate v w (fieldPath path key) = some [] := by
  rw [compare.eq_def]
  by_cases his : expected.is actual = true
  · simp [hany, his]
  · obtain ⟨hetype, henull, hearray⟩ := Value.typeOf_of_isObject he
    obtain ⟨hatype, hanull, haarray⟩ := Value.typeOf_of_isObject ha
    simp only [hany, his, henull, hanull, hetype, hatype, hearray, haarray, Bool.false_eq_true,
      if_false, ne_eq,
      not_true_eq_false, Bool.or_self, false_or]
    split
    · cases he
    · rw [collect_eq_nil, List.forall_mem_map]
      constructor
      · intro hsteps key hkey
        have hstep := hsteps ⟨key, mem_keysOf.mpr hkey⟩ (List.mem_attach _ _)
        split at hstep
        case h_1 hl => cases hstep
        case h_2 hr => cases hstep
        case h_3 hl hr =>
          exact absurd hkey (not_or.mpr ⟨Value.not_own_of_absent hl, Value.not_own_of_absent hr⟩)
        case h_4 => cases hstep
        case h_5 => cases hstep
        case h_6 v w hl hr => exact ⟨v, w, hl, hr, hstep⟩
      · rintro h ⟨key, hkey⟩ -
        obtain ⟨v, w, hl, hr, hvw⟩ := h key (mem_keysOf.mp hkey)
        split
        case h_1 hl' => cases hl.symm.trans hl'
        case h_2 hr' _ => cases hr.symm.trans hr'
        case h_3 hl' _ => cases hl.symm.trans hl'
        case h_4 hl' _ => cases hl.symm.trans hl'
        case h_5 hr' => cases hr.symm.trans hr'
        case h_6 hl' hr' =>
          cases hl.symm.trans hl'
          cases hr.symm.trans hr'
          exact hvw

theorem compare_leaf {expected actual : Value} (hany : isAny expected = false)
    (harray : expected.isArray = true → actual.isArray = false)
    (hobject : expected.isObject = true → actual.isObject = false) (path : Str) :
    compare validate expected actual path = some [] ↔ expected.is actual = true := by
  rw [compare.eq_def]
  by_cases his : expected.is actual = true
  · simp [hany, his]
  by_cases hnull : (expected.isNullish || actual.isNullish) = true
  · simp [hany, his, hnull]
  by_cases htype : expected.typeOf = actual.typeOf
  swap
  · simp [hany, his, hnull, htype]
  by_cases hobjects : expected.typeOf = .object
  swap
  · simp [hany, his, hnull, htype, htype ▸ hobjects]
  by_cases harrays : expected.isArray = actual.isArray
  swap
  · simp [hany, his, hnull, htype, htype ▸ hobjects, harrays]
  -- two arrays or two other objects
  obtain ⟨henull, hanull⟩ := Bool.or_eq_false_iff.mp (Bool.eq_false_of_not_eq_true hnull)
  rcases Value.array_or_object hobjects henull with h | h
  · exact absurd (harray h) (by rw [← harrays, h]; decide)
  · rcases Value.array_or_object (htype ▸ hobjects) hanull with h' | h'
    · exact absurd (harrays.trans h') (by rw [(Value.typeOf_of_isObject h).2.2]; decide)
    · exact absurd (hobject h) (by rw [h']; decide)

theorem distinctItems_iff {items : List Value} : Value.DistinctItems items ↔
    ∀ item ∈ items, item.Distinct := by
  induction items with
  | nil => simp [Value.DistinctItems]
  | cons item items ih => simp [Value.DistinctItems, ih]

theorem distinctEntries_iff {entries : List (Str × Value)} :
    Value.DistinctEntries entries ↔ ∀ e ∈ entries, e.2.Distinct := by
  induction entries with
  | nil => simp [Value.DistinctEntries]
  | cons e entries ih => simp [Value.DistinctEntries, ih]

theorem standsForFields_iff {p : Prototype} {fs : List (Str × Value)} :
    standsForFields p fs = true ↔
      ∀ f ∈ fs, standsFor ((Value.prototype p).read f.1) f.2 = true := by
  induction fs with
  | nil => simp [standsForFields]
  | cons f fs ih => simp [standsForFields, ih]

theorem read_of_mem {fs : List (Str × Value)} (h : (fs.map Prod.fst).Nodup) {f : Str × Value}
    (hf : f ∈ fs) :
    (Value.record fs).read f.1 = .value f.2 := by
  rw [Value.read, show get f.1 (Value.record fs).fields = some f.2 from get_of_mem h hf]
  rfl

/-- Objects without keys have no difference. -/
theorem compare_bare {expected actual : Value} (hany : isAny expected = false)
    (he : expected.isObject = true) (ha : actual.isObject = true) (hekeys : expected.keys = [])
    (hakeys : actual.keys = []) (path : Str) :
    compare validate expected actual path = some [] := by
  rw [compare_objects hany he ha]
  refine .inr fun key hkey => ?_
  rw [hekeys, hakeys] at hkey
  simp at hkey

theorem compare_primitive (p : Primitive) (w : Value) (path : Str) :
    compare validate (.primitive p) w path = some [] ↔ Value.is (.primitive p) w = true :=
  compare_leaf rfl (fun h => Bool.noConfusion h) (fun h => Bool.noConfusion h) path

theorem compare_method (owner : Prototype) (name : Str) (w : Value) (path : Str) :
    compare validate (.method owner name) w path = some [] ↔
      Value.is (.method owner name) w = true :=
  compare_leaf rfl (fun h => Bool.noConfusion h) (fun h => Bool.noConfusion h) path

theorem standsFor_primitive (p : Primitive) (w : Value) :
    standsFor (.value (.primitive p)) w = Value.is (.primitive p) w := by
  cases w <;> simp [standsFor]

theorem standsFor_method (owner : Prototype) (name : Str) (w : Value) :
    standsFor (.value (.method owner name)) w = Value.is (.method owner name) w := by
  cases w <;> simp [standsFor]

/-- What is read without being an own property, when this is known of the prototypes. -/
theorem compare_read_of_prototype {w : Value}
    (hproto : ∀ p path, compare validate (.prototype p) w path = some [] ↔
      standsFor (.value (.prototype p)) w = true) {r : Read}
    (hr : ∀ v, r = .value v → v.isBase = true) (path : Str) :
    (∃ v, r = .value v ∧ compare validate v w path = some []) ↔ standsFor r w = true := by
  cases r with
  | absent => simp [standsFor]
  | throws => simp [standsFor]
  | value v =>
      simp only [Read.value.injEq, exists_eq_left']
      have hbase := hr v rfl
      cases v with
      | primitive q => rw [compare_primitive, standsFor_primitive]
      | method owner name => rw [compare_method, standsFor_method]
      | prototype p => exact hproto p path
      | _ => cases hbase

theorem compare_prototype (p : Prototype) {w : Value} (hw : w.Distinct) (path : Str) :
    compare validate (.prototype p) w path = some [] ↔
      standsFor (.value (.prototype p)) w = true := by
  induction w generalizing p path with
  | primitive q => exact compare_leaf rfl (fun h => Bool.noConfusion h) (fun _ => rfl) path
  | method owner name => exact compare_leaf rfl (fun h => Bool.noConfusion h) (fun _ => rfl) path
  | array items => exact compare_leaf rfl (fun h => Bool.noConfusion h) (fun _ => rfl) path
  | record fs ih =>
      rw [Value.Distinct, distinctEntries_iff] at hw
      rw [compare_objects rfl rfl rfl, standsFor, standsForFields_iff]
      have hfield : ∀ f ∈ fs, (∃ v, (Value.prototype p).read f.1 = .value v ∧
          compare validate v f.2 (fieldPath path f.1) = some []) ↔
          standsFor ((Value.prototype p).read f.1) f.2 = true := by
        intro f hf
        refine compare_read_of_prototype ?_ (fun v hv => ?_) _
        · exact fun q path => ih f hf q (hw.2 f hf) path
        · rw [Value.read_of_not_own (by simp [Value.keys, Value.fields])] at hv
          exact Value.isBase_readInherited hv
      constructor
      · rintro (his | h) f hf
        · cases his
        · obtain ⟨v, x, hv, hx, hvx⟩ := h f.1 (.inr (List.mem_map_of_mem hf))
          cases (read_of_mem hw.1 hf).symm.trans hx
          exact (hfield f hf).mp ⟨v, hv, hvx⟩
      · intro h
        refine .inr fun key hkey => ?_
        obtain ⟨f, hf, rfl⟩ :=
          List.mem_map.mp (hkey.resolve_left (by simp [Value.keys, Value.fields]))
        obtain ⟨v, hv, hvx⟩ := (hfield f hf).mpr (h f hf)
        exact ⟨v, f.2, hv, read_of_mem hw.1 hf, hvx⟩
  | _ => exact iff_of_true (compare_bare rfl rfl rfl rfl rfl path) rfl

theorem compare_standsFor {r : Read} (hr : ∀ v, r = .value v → v.isBase = true) {w : Value}
    (hw : w.Distinct) (path : Str) :
    (∃ v, r = .value v ∧ compare validate v w path = some []) ↔ standsFor r w = true :=
  compare_read_of_prototype (fun p path => compare_prototype p hw path) hr path

theorem distinct_of_isBase {v : Value} (h : v.isBase = true) : v.Distinct := by
  cases v with
  | array items => cases h
  | record entries => cases h
  | _ => trivial

theorem distinct_read {v w : Value} {key : Str} (hv : v.Distinct) (h : v.read key = .value w) :
    w.Distinct := by
  by_cases hkey : key ∈ v.keys
  · cases v with
    | record entries =>
        rw [Value.Distinct, distinctEntries_iff] at hv
        obtain ⟨e, he, rfl⟩ := List.mem_map.mp hkey
        cases (read_of_mem hv.1 he).symm.trans h
        exact hv.2 e he
    | _ => cases hkey
  · rw [Value.read_of_not_own hkey] at h
    exact distinct_of_isBase (Value.isBase_readInherited h)

/-- The fields of an object are its keys with what is read under them. -/
theorem read_of_mem_fields {v : Value} (hv : v.Distinct) {f : Str × Value} (hf : f ∈ v.fields) :
    v.read f.1 = .value f.2 := by
  cases v with
  | record fs => exact read_of_mem hv.1 hf
  | _ => cases hf

theorem distinct_of_mem_fields {v : Value} (hv : v.Distinct) {f : Str × Value} (hf : f ∈ v.fields) :
    f.2.Distinct :=
  distinct_read hv (read_of_mem_fields hv hf)

/-- Objects have no difference when the first reads the same in the second, and what only the second
has of its own is what the first answers under its key. -/
theorem compare_fields {expected actual : Value} (hany : isAny expected = false)
    (he : expected.isObject = true) (ha : actual.isObject = true) (hed : expected.Distinct)
    (had : actual.Distinct) (path : Str) :
    compare validate expected actual path = some [] ↔
      expected.is actual = true ∨
        (∀ e ∈ expected.fields, ∃ w, actual.read e.1 = .value w ∧
          compare validate e.2 w (fieldPath path e.1) = some []) ∧
        ∀ f ∈ actual.fields, f.1 ∈ expected.keys ∨
          standsFor (expected.readInherited f.1) f.2 = true := by
  rw [compare_objects hany he ha]
  refine or_congr_right ⟨fun h => ⟨fun e hmem => ?_, fun f hf => ?_⟩, ?_⟩
  · obtain ⟨v, w, hv, hw, hvw⟩ := h e.1 (.inl (List.mem_map_of_mem hmem))
    cases (read_of_mem_fields hed hmem).symm.trans hv
    exact ⟨w, hw, hvw⟩
  · refine or_iff_not_imp_left.mpr fun hkey => ?_
    obtain ⟨v, w, hv, hw, hvw⟩ := h f.1 (.inr (List.mem_map_of_mem hf))
    cases (read_of_mem_fields had hf).symm.trans hw
    rw [Value.read_of_not_own hkey] at hv
    exact (compare_standsFor (fun v => Value.isBase_readInherited)
      (distinct_of_mem_fields had hf) _).mp ⟨v, hv, hvw⟩
  · rintro ⟨hown, hother⟩ key hkey
    by_cases hmem : key ∈ expected.keys
    · obtain ⟨e, he', rfl⟩ := List.mem_map.mp hmem
      obtain ⟨w, hw, hvw⟩ := hown e he'
      exact ⟨e.2, w, read_of_mem_fields hed he', hw, hvw⟩
    · obtain ⟨f, hf, rfl⟩ := List.mem_map.mp (hkey.resolve_left hmem)
      have hstands := (hother f hf).resolve_left hmem
      obtain ⟨v, hv, hvw⟩ := (@compare_standsFor validate _ (fun v => Value.isBase_readInherited) _
        (distinct_of_mem_fields had hf) (fieldPath path f.1)).mpr hstands
      exact ⟨v, f.2, (Value.read_of_not_own hmem).trans hv, read_of_mem_fields had hf, hvw⟩

theorem alikeItems_iff {xs ys : List Value} :
    alikeItems validate xs ys = true ↔
      List.Forall₂ (fun x y => alike validate x y = true) xs ys := by
  induction xs generalizing ys with
  | nil => cases ys <;> simp [alikeItems]
  | cons x xs ih => cases ys <;> simp [alikeItems, ih]

theorem alikeEntries_iff {es : List (Str × Value)} {actual : Value} :
    alikeEntries validate es actual = true ↔
      ∀ e ∈ es, ∃ w, actual.read e.1 = .value w ∧ alike validate e.2 w = true := by
  induction es with
  | nil => simp [alikeEntries]
  | cons e es ih =>
      rw [alikeEntries, Bool.and_eq_true, ih, List.forall_mem_cons]
      refine and_congr_left fun _ => ?_
      cases actual.read e.1 <;> simp

theorem alike_record {es : List (Str × Value)} (hany : isAny (.record es) = false)
    {actual : Value} :
    alike validate (.record es) actual = true ↔
      actual.isObject = true ∧
        (∀ e ∈ es, ∃ w, actual.read e.1 = .value w ∧ alike validate e.2 w = true) ∧
        ∀ f ∈ actual.fields, f.1 ∈ es.map Prod.fst ∨
          standsFor ((Value.record es).readInherited f.1) f.2 = true := by
  simp only [alike, hany, Bool.false_eq_true, if_false, Bool.and_eq_true, alikeEntries_iff,
    List.all_eq_true,
    Bool.or_eq_true, decide_eq_true_eq, and_assoc]

/-- An object without keys of its own. -/
theorem compare_fieldless {expected actual : Value} (hany : isAny expected = false)
    (he : expected.isObject = true) (hfields : expected.fields = []) (hed : expected.Distinct)
    (had : actual.Distinct) (path : Str) :
    compare validate expected actual path = some [] ↔
      expected.is actual = true ∨
        actual.isObject = true ∧ ∀ f ∈ actual.fields,
          standsFor (expected.readInherited f.1) f.2 = true := by
  cases ha : actual.isObject with
  | false =>
      have harray : expected.isArray = true → actual.isArray = false := by
        simp [(Value.typeOf_of_isObject he).2.2]
      rw [compare_leaf hany harray (fun _ => ha)]
      simp
  | true =>
      rw [compare_fields hany he ha hed had]
      simp [hfields, Value.keys]

theorem compare_iff_alike {expected actual : Value} (hed : expected.Distinct)
    (had : actual.Distinct) (path : Str) :
    compare validate expected actual path = some [] ↔ alike validate expected actual = true := by
  induction expected generalizing actual path with
  | primitive p =>
      rw [compare_primitive]
      simp [alike, Value.isObject]
  | method owner name =>
      rw [compare_method]
      simp [alike, Value.isObject]
  | array xs ih =>
      rw [Value.Distinct, distinctItems_iff] at hed
      cases actual with
      | array ys =>
          rw [Value.Distinct, distinctItems_iff] at had
          rw [alike, alikeItems_iff]
          exact compare_array (fun x hx y hy path => ih x hx (hed x hx) (had y hy) path) path
      | _ =>
          rw [compare_leaf rfl (fun _ => rfl) (fun h => Bool.noConfusion h)]
          simp [alike, Value.isObject]
  | record es ih =>
      by_cases hany : isAny (.record es) = true
      · rw [compare_any hany]
        simp [alike, hany]
      · have hany' := Bool.eq_false_of_not_eq_true hany
        rw [alike_record hany']
        cases ha : actual.isObject with
        | false =>
            rw [compare_leaf hany' (fun h => Bool.noConfusion h) (fun _ => ha)]
            cases actual <;> simp [Value.is] at ha ⊢
        | true =>
            rw [compare_fields hany' rfl ha hed had]
            rw [Value.Distinct, distinctEntries_iff] at hed
            have hown : ∀ e ∈ es, (∃ w, actual.read e.1 = .value w ∧
                compare validate e.2 w (fieldPath path e.1) = some []) ↔
                ∃ w, actual.read e.1 = .value w ∧ alike validate e.2 w = true := by
              intro e he
              refine exists_congr fun w => and_congr_right fun hw => ?_
              exact ih e he (hed.2 e he) (distinct_read had hw) _
            have his : Value.is (.record es) actual = false := by cases actual <;> rfl
            simp only [his, Bool.false_eq_true, false_or, true_and]
            exact and_congr_left fun _ => forall₂_congr hown
  | prototype p =>
      rw [compare_fieldless rfl rfl rfl hed had]
      simp [alike, Value.isObject]
  | schema id =>
      rw [compare_fieldless rfl rfl rfl hed had]
      simp [alike, Value.isObject]
  | date time =>
      rw [compare_fieldless rfl rfl rfl hed had]
      simp [alike, Value.isObject]
  | map entries =>
      rw [compare_fieldless rfl rfl rfl hed had]
      simp [alike, Value.isObject]
  | set items =>
      rw [compare_fieldless rfl rfl rfl hed had]
      simp [alike, Value.isObject]

end Compare

end Kronos.Test.Compare
