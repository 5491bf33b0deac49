import Kronos.Test.Align
import Kronos.Test.CompareExact

/-!
# The fixture's message diff

`judgeMessages` aligns the names of the messages a scenario expects with those
that were observed, compares the payloads of the pairs, and the metadata under the
keys the scenario named. It accepts when nothing is left to report.
-/
namespace Kronos.Test.JudgeMessages
open Lib.Utf8 (Str)
open Lib.JsonText (ascii)
open Lib.EcmaScript (forall₂_iff_rel forall₂_imp_of_mem)
open Compare Align

/-! ## Messages -/

/-- Metadata of an expectation is optional; what it names is looked at. -/
structure ExpectedMessage where
  name : Str
  payload : Value
  metadata : Option (List (Str × Value))
  distinct : payload.Distinct
  distinctMetadata : ∀ entries, metadata = some entries → (Value.record entries).Distinct

structure ActualMessage where
  name : Str
  payload : Value
  metadata : Option (List (Str × Value))
  plain : payload.Plain
  plainMetadata : ∀ entries, metadata = some entries → (Value.record entries).Plain

/-- The text that is returned, by its parts. -/
inductive Line where
  | missing (i : ℕ) (name : Str) (payload : Value)
  | unexpected (j : ℕ) (name : Str) (payload : Value)
  | differing (i : ℕ) (name : Str) (differences : List Difference)

structure Report where
  expected : List Str
  actual : List Str
  missing : List Line
  unexpected : List Line
  differing : List Line

def Line.isMissing : Line → Bool
  | .missing _ _ _ => true
  | _ => false

def Line.isUnexpected : Line → Bool
  | .unexpected _ _ _ => true
  | _ => false

def Line.isDiffering : Line → Bool
  | .differing _ _ _ => true
  | _ => false

section Judge

variable (validate : ℕ → Value → Validation)

/-- `right[key]`: `undefined` for a key that is not there. -/
def valueAt (right : List (Str × Value)) (key : Str) : Value :=
  match (Value.record right).read key with
  | .value v => v
  | _ => .primitive .undefined

/-- Metadata is a subset claim: only the keys the scenario named are looked at. -/
def compareMetadata (expected : List (Str × Value)) (actual : Option (List (Str × Value))) :
    Option (List Difference) :=
  collect <| expected.map fun e =>
    compare validate e.2 (valueAt (actual.getD []) e.1) (ascii "metadata." ++ e.1)

def differences (want : ExpectedMessage) (got : ActualMessage) : Option (List Difference) :=
  (compare validate want.payload got.payload []).bind fun found =>
    want.metadata.elim (some found) fun metadata =>
      (compareMetadata validate metadata got.metadata).map (found ++ ·)

/-- What one slot adds to the report. An index without a message would throw. -/
def judgeSlot (expected : List ExpectedMessage) (actual : List ActualMessage)
    (slot : Align.Alignment) :
    Option (List Line) :=
  match slot.expectedIndex, slot.actualIndex with
  | some i, some j =>
      expected[i]?.bind fun want => actual[j]?.bind fun got =>
        (differences validate want got).map fun found =>
          if found.length = 0 then [] else [.differing i want.name found]
  | some i, none => expected[i]?.map fun want => [.missing i want.name want.payload]
  | none, some j => actual[j]?.map fun got => [.unexpected j got.name got.payload]
  | none, none => none

/-- `some none` accepts; `none` throws. -/
def judgeMessages (expected : List ExpectedMessage) (actual : List ActualMessage) :
    Option (Option Report) :=
  (collect ((align (expected.map (·.name)) (actual.map (·.name))).map
    (judgeSlot validate expected actual))).map fun lines =>
      let missing := lines.filter Line.isMissing
      let unexpected := lines.filter Line.isUnexpected
      let differing := lines.filter Line.isDiffering
      if missing.length = 0 ∧ unexpected.length = 0 ∧ differing.length = 0 then none
      else some ⟨expected.map (·.name), actual.map (·.name), missing, unexpected, differing⟩

/-! ## What a scenario claims of a message -/

/-- The name, the payload up to holes, and the metadata under the keys that are named. -/
def Agrees (equal : Value → Value → Bool) (want : ExpectedMessage) (got : ActualMessage) : Prop :=
  want.name = got.name ∧ equal want.payload got.payload = true ∧
    ∀ entries, want.metadata = some entries →
      ∀ e ∈ entries, equal e.2 (valueAt (got.metadata.getD []) e.1) = true

end Judge

/-! ## What is accepted -/

section Accept

variable {validate : ℕ → Value → Validation}

theorem distinct_valueAt {got : ActualMessage} (key : Str) :
    (valueAt (got.metadata.getD []) key).Distinct := by
  have hright : (Value.record (got.metadata.getD [])).Distinct := by
    cases hmetadata : got.metadata with
    | none => exact ⟨List.nodup_nil, trivial⟩
    | some entries => exact distinct_of_plain (got.plainMetadata entries hmetadata)
  rw [valueAt]
  cases hread : (Value.record (got.metadata.getD [])).read key with
  | value v => exact distinct_read hright hread
  | absent => trivial
  | throws => trivial

theorem distinct_entry {want : ExpectedMessage} {entries : List (Str × Value)}
    (h : want.metadata = some entries) {e : Str × Value} (he : e ∈ entries) : e.2.Distinct :=
  distinctEntries_iff.mp (want.distinctMetadata entries h).2 e he

theorem compareMetadata_eq_nil {want : ExpectedMessage} {got : ActualMessage}
    {entries : List (Str × Value)} (h : want.metadata = some entries) :
    compareMetadata validate entries got.metadata = some [] ↔
      ∀ e ∈ entries, alike validate e.2 (valueAt (got.metadata.getD []) e.1) = true := by
  rw [compareMetadata, collect_eq_nil, List.forall_mem_map]
  refine forall₂_congr fun e he => ?_
  exact compare_iff_alike (distinct_entry h he) (distinct_valueAt e.1) _

theorem differences_eq_nil {want : ExpectedMessage} {got : ActualMessage} :
    differences validate want got = some [] ↔
      alike validate want.payload got.payload = true ∧
        ∀ entries, want.metadata = some entries →
          ∀ e ∈ entries, alike validate e.2 (valueAt (got.metadata.getD []) e.1) = true := by
  rw [differences, ← compare_iff_alike want.distinct (distinct_of_plain got.plain) []]
  cases hmetadata : want.metadata with
  | none => cases compare validate want.payload got.payload [] <;> simp
  | some entries =>
      simp only [Option.elim_some, Option.some.injEq, forall_eq']
      rw [← @compareMetadata_eq_nil validate want got entries hmetadata]
      cases compare validate want.payload got.payload [] with
      | none => simp
      | some found => cases compareMetadata validate entries got.metadata <;> simp

theorem lines_eq_nil (lines : List Line) :
    (lines.filter Line.isMissing).length = 0 ∧ (lines.filter Line.isUnexpected).length = 0 ∧
      (lines.filter Line.isDiffering).length = 0 ↔ lines = [] := by
  cases lines with
  | nil => simp
  | cons line lines => cases line <;> simp [Line.isMissing, Line.isUnexpected, Line.isDiffering]

theorem accepts_iff_slots {expected : List ExpectedMessage} {actual : List ActualMessage} :
    judgeMessages validate expected actual = some none ↔
      ∀ slot ∈ align (expected.map (·.name)) (actual.map (·.name)),
        judgeSlot validate expected actual slot = some [] := by
  rw [judgeMessages, ← @List.forall_mem_map _ _ _ _ fun step => step = some [], ← collect_eq_nil]
  cases collect
    ((align (expected.map (·.name)) (actual.map (·.name))).map
    (judgeSlot validate expected actual)) with
  | none => simp
  | some lines => simp [← lines_eq_nil lines]

theorem isPair_of_judgeSlot {expected : List ExpectedMessage} {actual : List ActualMessage}
    {slot : Align.Alignment} (h : judgeSlot validate expected actual slot = some []) :
    isPair slot = true := by
  obtain ⟨i, j⟩ := slot
  cases i with
  | none =>
      cases j with
      | none => simp [judgeSlot] at h
      | some j => simp [judgeSlot] at h
  | some i =>
      cases j with
      | none => simp [judgeSlot] at h
      | some j => rfl

theorem judgeSlot_diagonal {expected : List ExpectedMessage} {actual : List ActualMessage} {k : ℕ}
    {want : ExpectedMessage} {got : ActualMessage} (hwant : expected[k]? = some want)
    (hgot : actual[k]? = some got) :
    judgeSlot validate expected actual (diagonal k) = some [] ↔
      differences validate want got = some [] := by
  rw [judgeSlot, diagonal]
  simp only [hwant, hgot, Option.bind_some]
  cases differences validate want got with
  | none => simp
  | some found => cases found <;> simp

theorem accepts_iff {expected : List ExpectedMessage} {actual : List ActualMessage} :
    judgeMessages validate expected actual = some none ↔
      List.Forall₂ (Agrees (alike validate)) expected actual := by
  rw [accepts_iff_slots]
  constructor
  · intro h
    have hnames := all_pairs_iff.mp fun slot hslot => isPair_of_judgeSlot (h slot hslot)
    have hlength : expected.length = actual.length := by simpa using congrArg List.length hnames
    refine List.forall₂_iff_get.mpr ⟨hlength, fun k hk hk' => ?_⟩
    have hslot : diagonal k ∈ align (expected.map (·.name)) (actual.map (·.name)) := by
      rw [← hnames, align_self]
      exact List.mem_map_of_mem (List.mem_range.mpr (by simpa using hk))
    have hnil :=
      (judgeSlot_diagonal (List.getElem?_eq_getElem hk) (List.getElem?_eq_getElem hk')).mp
      (h _ hslot)
    exact ⟨by simpa [hk, hk'] using congrArg (·[k]?) hnames, differences_eq_nil.mp hnil⟩
  · intro h
    have hnames : expected.map (·.name) = actual.map (·.name) := by
      rw [← List.forall₂_eq_eq_eq, List.forall₂_map_left_iff, List.forall₂_map_right_iff]
      exact h.imp fun _ _ hagrees => hagrees.1
    rw [← hnames, align_self]
    refine List.forall_mem_map.mpr fun k hk => ?_
    have hk' : k < expected.length := by simpa using List.mem_range.mp hk
    have hrel := forall₂_iff_rel.mp h k
    rw [List.getElem?_eq_getElem hk', List.getElem?_eq_getElem (h.length_eq ▸ hk')] at hrel
    refine (judgeSlot_diagonal (List.getElem?_eq_getElem hk')
      (List.getElem?_eq_getElem (h.length_eq ▸ hk'))).mpr ?_
    cases hrel with
    | some hagrees => exact differences_eq_nil.mpr hagrees.2

theorem agrees_alike_of_fits {want : ExpectedMessage} {got : ActualMessage}
    (h : Agrees (fits validate) want got) :
    Agrees (alike validate) want got := by
  obtain ⟨hname, hpayload, hmetadata⟩ := h
  refine ⟨hname, alike_of_fits want.distinct (distinct_of_plain got.plain) hpayload,
    fun entries hentries e he => ?_⟩
  exact alike_of_fits (distinct_entry hentries he) (distinct_valueAt e.1)
    (hmetadata entries hentries e he)

end Accept

/-! ## Exact and minimal -/

/-- What an alignment should be. -/
structure Minimal (expected actual : List Str) (slots : List Align.Alignment) : Prop where
  expectedOnce : slots.filterMap Align.Alignment.expectedIndex = List.range expected.length
  actualOnce : slots.filterMap Align.Alignment.actualIndex = List.range actual.length
  named : ∀ slot ∈ slots, slot.expectedIndex.isSome = true ∨ slot.actualIndex.isSome = true
  equalNames : ∀ i j, (⟨some i, some j⟩ : Align.Alignment) ∈ slots →
    ∃ name, expected[i]? = some name ∧ actual[j]? = some name
  longest :
    IsGreatest {k | ∃ l : List Str, l.Sublist expected ∧ l.Sublist actual ∧ l.length = k}
    (slots.countP isPair)

theorem minimal_align (expected actual : List Str) :
    Minimal expected actual (align expected actual) := by
  have h := aligned_align expected actual
  refine ⟨?_, ?_, h.named, fun i j hslot => h.equalNames _ hslot i j rfl, ?_⟩
  · rw [h.expectedOnce, Nat.sub_zero, List.range_eq_range']
  · rw [h.actualOnce, Nat.sub_zero, List.range_eq_range']
  · rw [h.pairs, List.drop_zero, List.drop_zero]
    exact Lib.Subsequence.isGreatest_commonLength expected actual

/-- Every alignment is exact and minimal, and a list of messages is accepted exactly when it agrees
position by position if and only if messages that are seen as alike at every position do agree. -/
theorem messages_judged_exactly_iff (validate : ℕ → Value → Validation) :
    (∀ expected actual : List Str, Minimal expected actual (align expected actual)) ∧
      ∀ (expected : List ExpectedMessage) (actual : List ActualMessage),
        (judgeMessages validate expected actual = some none ↔
            List.Forall₂ (Agrees (fits validate)) expected actual) ↔
          (List.Forall₂ (Agrees (alike validate)) expected actual →
            List.Forall₂ (Agrees (fits validate)) expected actual) := by
  refine ⟨minimal_align, fun expected actual => ?_⟩
  rw [accepts_iff]
  exact ⟨fun h => h.mp, fun h => ⟨h, fun hfits => hfits.imp fun _ _ => agrees_alike_of_fits⟩⟩

theorem plain_dated (time : Option ℤ) : (Value.record [(ascii "at", .date time)]).Plain :=
  ⟨List.nodup_singleton _, trivial, trivial⟩

theorem no_metadata {P : List (Str × Value) → Prop} (entries : List (Str × Value))
    (h : none = some entries) :
    P entries := nomatch h

/-- A message with another date than the expected one is accepted. -/
theorem other_date_accepted :
    let want : ExpectedMessage :=
      ⟨ascii "Opened", .record [(ascii "at", .date (some 0))], none,
        distinct_of_plain (plain_dated _), no_metadata⟩
    let got : ActualMessage :=
      ⟨ascii "Opened", .record [(ascii "at", .date (some 86400000))], none, plain_dated _,
        no_metadata⟩
    judgeMessages (fun _ _ => .valid) [want] [got] = some none ∧
      ¬List.Forall₂ (Agrees (fits fun _ _ => .valid)) [want] [got] := by
  intro want got
  constructor
  · rw [accepts_iff]
    exact .cons ⟨rfl, by decide, nofun⟩ .nil
  · intro h
    cases h with
    | cons hagrees _ => exact absurd hagrees.2.1 (by decide)

end Kronos.Test.JudgeMessages
