import Mathlib.Data.List.Sort
import Kronos.Lib.JsonText

/-!
# The keys of state ids

A cached state is filed under `stableIdKey` of its id, a snapshot under the key of
the state and `snapshotIdentifier` of the id. Both are the text of
`JSON.stringify` with a replacer that writes a bigint as a string with an `n`
behind it and copies a record into a new one, key by key in sorted order.
`snapshotIdentifier` leaves an id that is a string as it is.

Two ids share a key without being the same when JSON does not tell them apart: a
bigint and the string it is written as, a number that is not finite and `null`,
records that differ in a property `__proto__`, which an assignment does not
create, and, for a snapshot, a string and an id with this text. `Apart` says that
none of this is the case.
-/
namespace Kronos.EventSourcing.StateIds
open Lib.Utf8 (Str)
open Lib.NumberText (Finite numeral value)
open Lib.JsonText (Tree ascii text)

/-! ## Ids -/

inductive Number where
  | nan
  | infinity (negative : Bool)
  | negativeZero
  | finite (x : Finite)
  deriving DecidableEq

inductive Value where
  | string (s : Str)
  | number (x : Number)
  | boolean (b : Bool)
  | null
  | bigint (v : ℤ)
  | array (items : List Value)
  | record (entries : List (Str × Value))

mutual
/-- No record has two entries of one key. -/
def Value.Distinct : Value → Prop
  | .array items => DistinctItems items
  | .record entries => (entries.map Prod.fst).Nodup ∧ DistinctEntries entries
  | _ => True

def DistinctItems : List Value → Prop
  | [] => True
  | item :: items => item.Distinct ∧ DistinctItems items

def DistinctEntries : List (Str × Value) → Prop
  | [] => True
  | (_, v) :: entries => v.Distinct ∧ DistinctEntries entries
end

/-- A property of all values, by the values inside. -/
@[induction_eliminator]
theorem Value.induct {P : Value → Prop} (string : ∀ s, P (.string s)) (number : ∀ x, P (.number x))
    (boolean : ∀ b, P (.boolean b)) (null : P .null) (bigint : ∀ v, P (.bigint v))
    (array : ∀ items, (∀ item ∈ items, P item) → P (.array items))
    (record : ∀ entries, (∀ e ∈ entries, P e.2) → P (.record entries)) (v : Value) : P v :=
  @Value.rec P (fun items => ∀ item ∈ items, P item) (fun entries => ∀ e ∈ entries, P e.2)
    (fun e => P e.2)
    string number boolean null bigint array record (by simp)
    (fun _ _ hitem hitems => List.forall_mem_cons.mpr ⟨hitem, hitems⟩) (by simp)
    (fun _ _ he hentries => List.forall_mem_cons.mpr ⟨he, hentries⟩) (fun _ _ hv => hv) v

def StateId : Type := {id : Value // id.Distinct}

def zero : Finite := ⟨0, by simp⟩

/-- The two zeros are the same, and `NaN` is the same as itself. -/
def Number.same : Number → Number → Bool
  | .negativeZero, .finite y => y = zero
  | .finite x, .negativeZero => x = zero
  | x, y => x = y

mutual
/-- Equal up to the order of the keys of records. -/
def same : Value → Value → Bool
  | .string s, .string t => s = t
  | .number x, .number y => x.same y
  | .boolean b, .boolean c => b = c
  | .null, .null => true
  | .bigint v, .bigint w => v = w
  | .array xs, .array ys => sameItems xs ys
  | .record es, .record fs => es.length = fs.length && sameEntries es fs
  | _, _ => false

def sameItems : List Value → List Value → Bool
  | [], [] => true
  | x :: xs, y :: ys => same x y && sameItems xs ys
  | _, _ => false

def sameEntries : List (Str × Value) → List (Str × Value) → Bool
  | [], _ => true
  | (k, v) :: es, fs => (fs.lookup k).any (same v) && sameEntries es fs
end

/-! ## Keys -/

def proto : Str := ascii "__proto__"

/-- The number of a key that is an array index. -/
def arrayIndex (k : Str) : Option ℕ :=
  if k = numeral (value k) ∧ value k < 4294967295 then some (value k) else none

section Records

variable {α : Type}

/-- Array indices stand before the other keys, in their order. -/
def put (record : List (Str × α)) (e : Str × α) : List (Str × α) :=
  match arrayIndex e.1 with
  | none => record ++ [e]
  | some i =>
      let below (f : Str × α) : Bool := (arrayIndex f.1).any (· < i)
      record.takeWhile below ++ e :: record.dropWhile below

/-- `sorted[k] = v`, for a key that `sorted` does not have. For `__proto__` it sets the
prototype. -/
def assign (record : List (Str × α)) (e : Str × α) : List (Str × α) :=
  if e.1 = proto then record else put record e

def Before (e f : Str × α) : Prop := e.1 ≤ f.1

instance : DecidableRel (@Before α) := fun e f => inferInstanceAs (Decidable (e.1 ≤ f.1))

/-- The replacer's copy of a record. -/
def sorted (entries : List (Str × α)) : List (Str × α) :=
  (entries.insertionSort Before).foldl assign []

end Records

/-- The digits of a bigint, behind a minus (45) when it is negative. -/
def bigintText (v : ℤ) : Str := if v < 0 then 45 :: numeral v.natAbs else numeral v.natAbs

/-- What the replacer makes of a bigint. -/
def bigintString (v : ℤ) : Str := bigintText v ++ ascii "n"

def Number.replaced : Number → Tree
  | .finite x => .number x
  | .negativeZero => .number zero
  | _ => .null

mutual
/-- What `JSON.stringify` writes down, with the replacer at every level. -/
def replaced : Value → Tree
  | .string s => .string s
  | .number x => x.replaced
  | .boolean b => .boolean b
  | .null => .null
  | .bigint v => .string (bigintString v)
  | .array items => .array (replacedItems items)
  | .record entries => .object (sorted (replacedEntries entries))

def replacedItems : List Value → List Tree
  | [] => []
  | item :: items => replaced item :: replacedItems items

def replacedEntries : List (Str × Value) → List (Str × Tree)
  | [] => []
  | (k, v) :: entries => (k, replaced v) :: replacedEntries entries
end

def stableIdKey (id : StateId) : Str := text (replaced id.1)

def snapshotIdentifier (id : StateId) : Str :=
  match id.1 with
  | .string s => s
  | v => text (replaced v)

def keyFor (key : Str) (id : StateId) : Str := key ++ ascii ":" ++ snapshotIdentifier id

/-! ## What JSON keeps of an id -/

mutual
/-- Strings for bigints, `null` for numbers that are not finite, and no property `__proto__`. -/
def plain : Value → Value
  | .bigint v => .string (bigintString v)
  | .number .nan => .null
  | .number (.infinity _) => .null
  | .array items => .array (plainItems items)
  | .record entries => .record (plainEntries entries)
  | v => v

def plainItems : List Value → List Value
  | [] => []
  | item :: items => plain item :: plainItems items

def plainEntries : List (Str × Value) → List (Str × Value)
  | [] => []
  | (k, v) :: entries =>
      if k = proto then plainEntries entries else (k, plain v) :: plainEntries entries
end

def isString : Value → Bool
  | .string _ => true
  | _ => false

/-- A string that is the JSON text of an id that is no string. -/
def Spells (a b : Value) : Prop := isString b = false ∧ a = .string (text (replaced b))

/-- JSON keeps apart what is not the same, and neither id is the other one's text. -/
structure Apart (a b : Value) : Prop where
  plain : same (plain a) (plain b) = true → same a b = true
  left : ¬ Spells a b
  right : ¬ Spells b a

/-! ## Copies of records -/

section Records

variable {α : Type}

instance : Std.Total (@Before α) := ⟨fun e f => List.le_total e.1 f.1⟩

instance : IsTrans (Str × α) Before := ⟨fun _ _ _ hef hfg => List.le_trans hef hfg⟩

/-- The entries that an assignment creates. -/
def created (entries : List (Str × α)) : List (Str × α) := entries.filter fun e => e.1 ≠ proto

theorem put_perm (record : List (Str × α)) (e : Str × α) : (put record e).Perm (e :: record) := by
  rw [put]
  split
  · exact List.perm_append_singleton e record
  · refine List.perm_middle.trans ?_
    rw [List.takeWhile_append_dropWhile]

theorem foldl_assign_perm (entries record : List (Str × α)) :
    (entries.foldl assign record).Perm (created entries ++ record) := by
  induction entries generalizing record with
  | nil => exact .refl _
  | cons e entries ih =>
      rw [List.foldl_cons]
      refine (ih _).trans ?_
      by_cases h : e.1 = proto
      · simp [assign, created, h]
      · have hcons : created (e :: entries) = e :: created entries := by simp [created, h]
        rw [assign, if_neg h, hcons]
        exact ((put_perm record e).append_left _).trans List.perm_middle

theorem sorted_perm (entries : List (Str × α)) : (sorted entries).Perm (created entries) := by
  have hfold := foldl_assign_perm (entries.insertionSort Before) []
  rw [List.append_nil] at hfold
  exact hfold.trans ((List.perm_insertionSort Before entries).filter _)

theorem foldl_assign_created (entries record : List (Str × α)) :
    (created entries).foldl assign record = entries.foldl assign record := by
  induction entries generalizing record with
  | nil => rfl
  | cons e entries ih =>
      by_cases h : e.1 = proto
      · have hcons : created (e :: entries) = created entries := by simp [created, h]
        rw [hcons, ih, List.foldl_cons, assign, if_pos h]
      · have hcons : created (e :: entries) = e :: created entries := by simp [created, h]
        rw [hcons, List.foldl_cons, List.foldl_cons, ih]

theorem eq_of_keys {entries : List (Str × α)} (h : (entries.map Prod.fst).Nodup) {e f : Str × α}
    (he : e ∈ entries) (hf : f ∈ entries) (hef : e.1 = f.1) : e = f :=
  List.inj_on_of_nodup_map h he hf hef

theorem insertionSort_unique {entries fs gs : List (Str × α)} (h : (entries.map Prod.fst).Nodup)
    (hf : fs.Pairwise Before) (hg : gs.Pairwise Before) (hfs : fs.Perm entries)
    (hgs : gs.Perm entries) :
    fs = gs := by
  refine List.Perm.eq_of_pairwise ?_ hf hg (hfs.trans hgs.symm)
  intro e f he hf hef hfe
  exact eq_of_keys h (hfs.subset he) (hgs.subset hf) (List.le_antisymm hef hfe)

theorem sorted_congr {es fs : List (Str × α)} (h : (es.map Prod.fst).Nodup) (hperm : es.Perm fs) :
    sorted es = sorted fs := by
  have hsort := insertionSort_unique h (List.pairwise_insertionSort Before es)
    (List.pairwise_insertionSort Before fs) (List.perm_insertionSort Before es)
    ((List.perm_insertionSort Before fs).trans hperm.symm)
  rw [sorted, sorted, hsort]

theorem nodup_created {es : List (Str × α)} (h : (es.map Prod.fst).Nodup) :
    ((created es).map Prod.fst).Nodup :=
  h.sublist (List.filter_sublist.map Prod.fst)

theorem sorted_created {es : List (Str × α)} (h : (es.map Prod.fst).Nodup) :
    sorted (created es) = sorted es := by
  have hsort : (created es).insertionSort Before = created (es.insertionSort Before) :=
    insertionSort_unique (nodup_created h) (List.pairwise_insertionSort Before _)
      ((List.pairwise_insertionSort Before es).filter _) (List.perm_insertionSort Before _)
      ((List.perm_insertionSort Before es).filter _)
  rw [sorted, hsort, foldl_assign_created, sorted]

/-- Lists of entries with the same entries under the same keys. -/
theorem perm_of_subset {es fs : List (Str × α)} (h : (es.map Prod.fst).Nodup)
    (hlength : es.length = fs.length) (hsub : es ⊆ fs) : es.Perm fs :=
  (List.subperm_of_subset (List.Nodup.of_map _ h) hsub).perm_of_length_le hlength.ge

end Records

/-! ## The lists in a value -/

theorem distinct_array {items : List Value} : (Value.array items).Distinct ↔
    ∀ item ∈ items, item.Distinct := by
  have hitems : DistinctItems items ↔ ∀ item ∈ items, item.Distinct := by
    induction items with
    | nil => simp [DistinctItems]
    | cons item items ih => simp [DistinctItems, ih]
  rw [Value.Distinct, hitems]

theorem distinct_record {es : List (Str × Value)} :
    (Value.record es).Distinct ↔ (es.map Prod.fst).Nodup ∧ ∀ e ∈ es, e.2.Distinct := by
  have hentries : DistinctEntries es ↔ ∀ e ∈ es, e.2.Distinct := by
    induction es with
    | nil => simp [DistinctEntries]
    | cons e es ih => simp [DistinctEntries, ih]
  rw [Value.Distinct, hentries]

theorem replacedItems_eq (items : List Value) : replacedItems items = items.map replaced := by
  induction items with
  | nil => rfl
  | cons item items ih => rw [replacedItems, ih, List.map_cons]

def replacedEntry (e : Str × Value) : Str × Tree := (e.1, replaced e.2)

theorem replacedEntries_eq (es : List (Str × Value)) :
    replacedEntries es = es.map replacedEntry := by
  induction es with
  | nil => rfl
  | cons e es ih => rw [replacedEntries, ih, List.map_cons, replacedEntry]

theorem plainItems_eq (items : List Value) : plainItems items = items.map plain := by
  induction items with
  | nil => rfl
  | cons item items ih => rw [plainItems, ih, List.map_cons]

def plainEntry (e : Str × Value) : Str × Value := (e.1, plain e.2)

theorem plainEntries_eq (es : List (Str × Value)) :
    plainEntries es = (created es).map plainEntry := by
  induction es with
  | nil => rfl
  | cons e es ih =>
      by_cases h : e.1 = proto
      · simp [plainEntries, created, h, ih]
      · simp [plainEntries, created, h, ih, plainEntry]

theorem map_fst_replacedEntry (es : List (Str × Value)) :
    (es.map replacedEntry).map Prod.fst = es.map Prod.fst := by
  rw [List.map_map]
  rfl

theorem map_fst_plainEntry (es : List (Str × Value)) :
    (es.map plainEntry).map Prod.fst = es.map Prod.fst := by
  rw [List.map_map]
  rfl

theorem created_replacedEntry (es : List (Str × Value)) :
    created (es.map replacedEntry) = (created es).map replacedEntry := by
  simp only [created, List.filter_map]
  rfl

theorem mem_created {α : Type} {es : List (Str × α)} {e : Str × α} : e ∈ created es ↔
    e ∈ es ∧ e.1 ≠ proto := by
  simp [created]

theorem mem_of_lookup {fs : List (Str × Value)} {k : Str} {w : Value} (h : fs.lookup k = some w) :
    (k, w) ∈ fs := by
  obtain ⟨l, r, rfl, -⟩ := List.lookup_eq_some_iff.mp h
  simp

theorem lookup_of_mem {fs : List (Str × Value)} (h : (fs.map Prod.fst).Nodup) {e : Str × Value}
    (he : e ∈ fs) :
    fs.lookup e.1 = some e.2 := by
  cases hlookup : fs.lookup e.1 with
  | none => exact absurd (List.lookup_eq_none_iff.mp hlookup e he) (by simp)
  | some w => rw [← eq_of_keys h (mem_of_lookup hlookup) he rfl]

theorem sameEntries_iff {es fs : List (Str × Value)} :
    sameEntries es fs = true ↔ ∀ e ∈ es, ∃ w, fs.lookup e.1 = some w ∧ same e.2 w = true := by
  induction es with
  | nil => simp [sameEntries]
  | cons e es ih => simp [sameEntries, ih, Option.any_eq_true]

/-! ## What the keys tell apart -/

theorem plain_distinct {a : Value} (ha : a.Distinct) : (plain a).Distinct := by
  induction a with
  | string s => trivial
  | number x => cases x <;> trivial
  | boolean b => trivial
  | null => trivial
  | bigint v => trivial
  | array items ih =>
      rw [distinct_array] at ha
      rw [plain, plainItems_eq, distinct_array]
      intro item hitem
      obtain ⟨v, hv, rfl⟩ := List.mem_map.mp hitem
      exact ih v hv (ha v hv)
  | record es ih =>
      rw [distinct_record] at ha
      rw [plain, plainEntries_eq, distinct_record, map_fst_plainEntry]
      refine ⟨nodup_created ha.1, ?_⟩
      intro e he
      obtain ⟨f, hf, rfl⟩ := List.mem_map.mp he
      have hmem := (mem_created.mp hf).1
      exact ih f hmem (ha.2 f hmem)

theorem replaced_plain {a : Value} (ha : a.Distinct) : replaced (plain a) = replaced a := by
  induction a with
  | string s => rfl
  | number x => cases x <;> rfl
  | boolean b => rfl
  | null => rfl
  | bigint v => rfl
  | array items ih =>
      rw [distinct_array] at ha
      simp only [plain, replaced, plainItems_eq, replacedItems_eq, List.map_map]
      exact congrArg _ (List.map_congr_left fun item hitem => ih item hitem (ha item hitem))
  | record es ih =>
      rw [distinct_record] at ha
      have hentries :
          ((created es).map plainEntry).map replacedEntry = created (es.map replacedEntry) := by
        rw [created_replacedEntry, List.map_map]
        apply List.map_congr_left
        intro e he
        have hmem := (mem_created.mp he).1
        exact congrArg (Prod.mk e.1) (ih e hmem (ha.2 e hmem))
      have hnodup : ((es.map replacedEntry).map Prod.fst).Nodup := by
        rw [map_fst_replacedEntry]; exact ha.1
      rw [plain, replaced, replaced, plainEntries_eq, replacedEntries_eq,
        replacedEntries_eq, hentries,
        sorted_created hnodup]

theorem Number.replaced_of_same {x y : Number} (h : x.same y = true) : x.replaced = y.replaced := by
  cases x <;> cases y <;> simp_all [Number.same, Number.replaced]

theorem Number.same_plain {x y : Number} (h : x.replaced = y.replaced) :
    StateIds.same (plain (.number x)) (plain (.number y)) = true := by
  cases x <;> cases y <;> simp_all [Number.same, Number.replaced, plain, StateIds.same]

theorem map_replaced_of_sameItems {xs ys : List Value}
    (hitems : ∀ x ∈ xs, ∀ y ∈ ys, same x y = true → replaced x = replaced y)
    (h : sameItems xs ys = true) :
    xs.map replaced = ys.map replaced := by
  induction xs generalizing ys with
  | nil =>
      cases ys with
      | nil => rfl
      | cons y ys => simp [sameItems] at h
  | cons x xs ih =>
      cases ys with
      | nil => simp [sameItems] at h
      | cons y ys =>
          rw [sameItems, Bool.and_eq_true] at h
          rw [List.map_cons, List.map_cons, hitems x (.head _) y (.head _) h.1,
            ih (fun x hx y hy => hitems x (.tail _ hx) y (.tail _ hy)) h.2]

theorem sameItems_plain {xs ys : List Value}
    (hitems : ∀ x ∈ xs, ∀ y ∈ ys, replaced x = replaced y → same (plain x) (plain y) = true)
    (h : xs.map replaced = ys.map replaced) : sameItems (xs.map plain) (ys.map plain) = true := by
  induction xs generalizing ys with
  | nil =>
      cases ys with
      | nil => rfl
      | cons y ys => simp at h
  | cons x xs ih =>
      cases ys with
      | nil => simp at h
      | cons y ys =>
          rw [List.map_cons, List.map_cons, List.cons.injEq] at h
          rw [List.map_cons, List.map_cons, sameItems, Bool.and_eq_true]
          exact ⟨hitems x (.head _) y (.head _) h.1,
            ih (fun x hx y hy => hitems x (.tail _ hx) y (.tail _ hy)) h.2⟩

theorem nodup_replacedEntry {es : List (Str × Value)} (h : (es.map Prod.fst).Nodup) :
    ((es.map replacedEntry).map Prod.fst).Nodup := by
  rwa [map_fst_replacedEntry]

theorem replaced_of_same {a b : Value} (ha : a.Distinct) (hb : b.Distinct) (h : same a b = true) :
    replaced a = replaced b := by
  induction a generalizing b with
  | string s => cases b <;> simp_all [same, replaced]
  | number x =>
      cases b with
      | number y =>
          rw [same] at h
          exact Number.replaced_of_same h
      | _ => simp [same] at h
  | boolean c => cases b <;> simp_all [same, replaced]
  | null => cases b <;> simp_all [same, replaced]
  | bigint v => cases b <;> simp_all [same, replaced]
  | array xs ih =>
      cases b with
      | array ys =>
          rw [distinct_array] at ha hb
          rw [same] at h
          rw [replaced, replaced, replacedItems_eq, replacedItems_eq]
          exact congrArg _
            (map_replaced_of_sameItems (fun x hx y hy => ih x hx (ha x hx) (hb y hy)) h)
      | _ => simp [same] at h
  | record es ih =>
      cases b with
      | record fs =>
          rw [distinct_record] at ha hb
          simp only [same, Bool.and_eq_true, decide_eq_true_eq, sameEntries_iff] at h
          have hnodup := nodup_replacedEntry ha.1
          have hsub : es.map replacedEntry ⊆ fs.map replacedEntry := by
            intro e' he'
            obtain ⟨e, he, rfl⟩ := List.mem_map.mp he'
            obtain ⟨w, hw, hsame⟩ := h.2 e he
            have hmem := mem_of_lookup hw
            have hvalue := ih e he (ha.2 e he) (hb.2 _ hmem) hsame
            exact List.mem_map.mpr ⟨(e.1, w), hmem, congrArg (Prod.mk e.1) hvalue.symm⟩
          rw [replaced, replaced, replacedEntries_eq, replacedEntries_eq]
          exact congrArg _ (sorted_congr hnodup (perm_of_subset hnodup (by simpa using h.1) hsub))
      | _ => simp [same] at h

theorem same_plain_of_replaced {a b : Value} (ha : a.Distinct) (hb : b.Distinct)
    (h : replaced a = replaced b) :
    same (plain a) (plain b) = true := by
  induction a generalizing b with
  | string s =>
      cases b with
      | number y => cases y <;> simp [replaced, Number.replaced] at h
      | _ => simp_all [replaced, plain, same]
  | number x =>
      cases b with
      | number y => exact Number.same_plain h
      | _ => cases x <;> simp_all [replaced, Number.replaced, plain, same]
  | boolean c =>
      cases b with
      | number y => cases y <;> simp [replaced, Number.replaced] at h
      | _ => simp_all [replaced, plain, same]
  | null =>
      cases b with
      | number y => cases y <;> simp_all [replaced, Number.replaced, plain, same]
      | _ => simp_all [replaced, plain, same]
  | bigint v =>
      cases b with
      | number y => cases y <;> simp [replaced, Number.replaced] at h
      | _ => simp_all [replaced, plain, same]
  | array xs ih =>
      cases b with
      | array ys =>
          rw [distinct_array] at ha hb
          rw [replaced, replaced, replacedItems_eq, replacedItems_eq, Tree.array.injEq] at h
          rw [plain, plain, same, plainItems_eq, plainItems_eq]
          exact sameItems_plain (fun x hx y hy => ih x hx (ha x hx) (hb y hy)) h
      | number y => cases y <;> simp [replaced, Number.replaced] at h
      | _ => simp [replaced] at h
  | record es ih =>
      cases b with
      | record fs =>
          rw [distinct_record] at ha hb
          rw [replaced, replaced, replacedEntries_eq, replacedEntries_eq, Tree.object.injEq] at h
          have hperm : ((created es).map replacedEntry).Perm ((created fs).map replacedEntry) := by
            rw [← created_replacedEntry, ← created_replacedEntry]
            exact (sorted_perm _).symm.trans (h ▸ sorted_perm _)
          have hnodup : (((created fs).map plainEntry).map Prod.fst).Nodup := by
            rw [map_fst_plainEntry]
            exact nodup_created hb.1
          simp only [plain, same, plainEntries_eq, Bool.and_eq_true, decide_eq_true_eq,
            sameEntries_iff]
          refine ⟨by simpa using hperm.length_eq, ?_⟩
          intro e' he'
          obtain ⟨e, he, rfl⟩ := List.mem_map.mp he'
          obtain ⟨f, hf, hfe⟩ := List.mem_map.mp (hperm.subset (List.mem_map_of_mem he))
          obtain ⟨hkey, hvalue⟩ := Prod.ext_iff.mp hfe
          have hlookup := lookup_of_mem hnodup (List.mem_map_of_mem hf)
          have hmem := (mem_created.mp he).1
          rw [show (plainEntry f).1 = (plainEntry e).1 from hkey] at hlookup
          exact ⟨plain f.2, hlookup,
            ih e hmem (ha.2 e hmem) (hb.2 f (mem_created.mp hf).1) hvalue.symm⟩
      | number y => cases y <;> simp [replaced, Number.replaced] at h
      | _ => simp [replaced] at h

/-! ## Keys of ids -/

theorem replaced_eq_iff {a b : Value} (ha : a.Distinct) (hb : b.Distinct) :
    replaced a = replaced b ↔ same (plain a) (plain b) = true := by
  constructor
  · exact same_plain_of_replaced ha hb
  · intro h
    rw [← replaced_plain ha, ← replaced_plain hb]
    exact replaced_of_same (plain_distinct ha) (plain_distinct hb) h

theorem same_plain {a b : Value} (ha : a.Distinct) (hb : b.Distinct) (h : same a b = true) :
    same (plain a) (plain b) = true :=
  same_plain_of_replaced ha hb (replaced_of_same ha hb h)

theorem stableIdKey_eq_iff (a b : StateId) :
    stableIdKey a = stableIdKey b ↔ same (plain a.1) (plain b.1) = true :=
  Lib.JsonText.text_injective.eq_iff.trans (replaced_eq_iff a.2 b.2)

theorem isString_of_same {a b : Value} (h : same a b = true) : isString a = isString b := by
  cases a <;> cases b <;> simp_all [same, isString]

theorem eq_string_of_isString {a : Value} (h : isString a = true) : ∃ s, a = .string s := by
  cases a <;> simp_all [isString]

theorem snapshotIdentifier_of_not_string {id : StateId} (h : isString id.1 = false) :
    snapshotIdentifier id = stableIdKey id := by
  obtain ⟨v, hv⟩ := id
  cases v with
  | string s => simp [isString] at h
  | _ => rfl

theorem Spells.kinds {a b : Value} (h : Spells a b) : isString a = true ∧ isString b = false := by
  refine ⟨?_, h.1⟩
  rw [h.2]
  rfl

theorem snapshotIdentifier_eq_iff_spells {a b : StateId} (ha : isString a.1 = true)
    (hb : isString b.1 = false) :
    snapshotIdentifier a = snapshotIdentifier b ↔ Spells a.1 b.1 := by
  obtain ⟨a, _⟩ := a
  obtain ⟨s, rfl⟩ := eq_string_of_isString ha
  rw [snapshotIdentifier_of_not_string hb, Spells]
  simp [snapshotIdentifier, stableIdKey, hb]

theorem snapshotIdentifier_eq_iff_of_kind {a b : StateId} (h : isString a.1 = isString b.1) :
    snapshotIdentifier a = snapshotIdentifier b ↔ stableIdKey a = stableIdKey b := by
  cases hb : isString b.1 with
  | true =>
      obtain ⟨a, _⟩ := a
      obtain ⟨b, _⟩ := b
      obtain ⟨s, rfl⟩ := eq_string_of_isString (h.trans hb)
      obtain ⟨t, rfl⟩ := eq_string_of_isString hb
      simp [snapshotIdentifier, stableIdKey, replaced, Lib.JsonText.text_injective.eq_iff]
  | false => rw [snapshotIdentifier_of_not_string (h.trans hb), snapshotIdentifier_of_not_string hb]

theorem snapshotIdentifier_eq_iff (a b : StateId) :
    snapshotIdentifier a = snapshotIdentifier b ↔
      (stableIdKey a = stableIdKey b ∧ isString a.1 = isString b.1) ∨ Spells a.1 b.1 ∨
        Spells b.1 a.1 := by
  cases ha : isString a.1 <;> cases hb : isString b.1
  case false.false =>
    rw [snapshotIdentifier_eq_iff_of_kind (ha.trans hb.symm)]
    grind [Spells.kinds]
  case false.true =>
    rw [eq_comm, snapshotIdentifier_eq_iff_spells hb ha]
    grind [Spells.kinds]
  case true.false =>
    rw [snapshotIdentifier_eq_iff_spells ha hb]
    grind [Spells.kinds]
  case true.true =>
    rw [snapshotIdentifier_eq_iff_of_kind (ha.trans hb.symm)]
    grind [Spells.kinds]

/-- The keys of two ids are equal exactly when the ids are the same, for the ids that JSON
keeps apart. -/
theorem keys_tell_ids_apart_iff (key : Str) (a b : StateId) :
    ((stableIdKey a = stableIdKey b ↔ same a.1 b.1 = true) ∧
      (keyFor key a = keyFor key b ↔ same a.1 b.1 = true)) ↔ Apart a.1 b.1 := by
  have hkeys := stableIdKey_eq_iff a b
  have hfiled := snapshotIdentifier_eq_iff a b
  have hplain := same_plain a.2 b.2
  have hkinds := isString_of_same (a := a.1) (b := b.1)
  have hspells {v w : Value} (h : Spells v w) : isString v ≠ isString w := by
    rw [h.kinds.1, h.kinds.2]
    decide
  have hfile : keyFor key a = keyFor key b ↔ snapshotIdentifier a = snapshotIdentifier b := by
    rw [keyFor, keyFor, List.append_cancel_left_eq]
  rw [hfile]
  constructor
  · intro ⟨hcache, hsnapshot⟩
    exact
      { plain := fun h => hcache.mp (hkeys.mpr h)
        left := fun h => hspells h (hkinds (hsnapshot.mp (hfiled.mpr (.inr (.inl h)))))
        right := fun h => hspells h (hkinds (hsnapshot.mp (hfiled.mpr (.inr (.inr h))))).symm }
  · intro hapart
    refine ⟨⟨fun h => hapart.plain (hkeys.mp h), fun h => hkeys.mpr (hplain h)⟩, ?_, ?_⟩
    · intro h
      rcases hfiled.mp h with hsame | hleft | hright
      · exact hapart.plain (hkeys.mp hsame.1)
      · exact absurd hleft hapart.left
      · exact absurd hright hapart.right
    · intro h
      exact hfiled.mpr (.inl ⟨hkeys.mpr (hplain h), hkinds h⟩)

/-- The bigint `1n` and the string `"1n"`; `null` and the string `"null"`. -/
theorem different_ids_share_keys :
    let bigint : StateId := ⟨.bigint 1, trivial⟩
    let digits : StateId := ⟨.string (ascii "1n"), trivial⟩
    let absent : StateId := ⟨.null, trivial⟩
    let word : StateId := ⟨.string (ascii "null"), trivial⟩
    (same bigint.1 digits.1 = false ∧ stableIdKey bigint = stableIdKey digits) ∧
      same absent.1 word.1 = false ∧
        keyFor (ascii "course-v1") absent = keyFor (ascii "course-v1") word := by
  decide +kernel

end Kronos.EventSourcing.StateIds
