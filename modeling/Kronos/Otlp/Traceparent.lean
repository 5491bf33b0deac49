import Kronos.Lib.JsonText
import Kronos.Lib.OrderedMap

/-!
# W3C trace context in message metadata

A message carries its trace as one text, `00-<trace id>-<span id>-<flags>`. The
pattern asks for lowercase hexadecimal digits; version `ff` and ids of zeros only
are refused, and a refused text counts as none. Bit 0 of the flags says whether
the trace is recorded.

Metadata hold texts and values that are none; `metadata["traceparent"]` is looked
up among their own entries.
-/
namespace Kronos.Otlp
open Lib.Utf8 (Str)
open Lib.JsonText (ascii)
open Lib.OrderedMap

/-- `sampled` is absent or `false` for what was read from a text. -/
structure TraceContext where
  traceId : Str
  spanId : Str
  sampled : Option Bool := none
  deriving DecidableEq

inductive MetadataValue where
  | text (s : Str)
  | other
  deriving DecidableEq

abbrev Metadata := List (Str × MetadataValue)

def TRACEPARENT : Str := ascii "traceparent"

def INVALID_TRACE_ID : Str := List.replicate 32 48

def INVALID_SPAN_ID : Str := List.replicate 16 48

def dash : Str := ascii "-"

/-- Is the parent, or the span itself, part of a recorded trace? -/
def TraceContext.recorded (context : TraceContext) : Bool := context.sampled ≠ some false

def formatTraceparent (context : TraceContext) : Str :=
  ascii "00" ++ dash ++ context.traceId ++ dash ++ context.spanId ++ dash ++
    if context.sampled = some false then ascii "00" else ascii "01"

/-! ## The pattern -/

def isHex (u : UInt16) : Bool := 48 ≤ u.toNat && u.toNat ≤ 57 || 97 ≤ u.toNat && u.toNat ≤ 102

def readHex (n : ℕ) (text : Str) : Option (Str × Str) :=
  let digits := text.take n
  if digits.length = n ∧ digits.all isHex then some (digits, text.drop n) else none

def readDash : Str → Option Str
  | u :: rest => if u = 45 then some rest else none
  | [] => none

/-- The groups of a match. -/
structure Groups where
  version : Str
  trace : Str
  span : Str
  flags : Str

def exec (raw : Str) : Option Groups := do
  let (version, rest) ← readHex 2 raw
  let (trace, rest) ← readHex 32 (← readDash rest)
  let (span, rest) ← readHex 16 (← readDash rest)
  let (flags, rest) ← readHex 2 (← readDash rest)
  if rest = [] then some ⟨version, trace, span, flags⟩ else none

def hexValue (u : UInt16) : ℕ := if u.toNat ≤ 57 then u.toNat - 48 else u.toNat - 87

/-- `Number.parseInt(digits, 16)` of hexadecimal digits. -/
def parseHex (digits : Str) : ℕ := digits.foldl (fun value u => 16 * value + hexValue u) 0

def traceparentOf (metadata : Metadata) : Option TraceContext :=
  match get TRACEPARENT metadata with
  | some (.text raw) =>
      match exec raw with
      | none => none
      | some groups =>
          if groups.version = ascii "ff" then none
          else if groups.trace = [] ∨ groups.span = [] then none
          else if groups.trace = INVALID_TRACE_ID ∨ groups.span = INVALID_SPAN_ID then none
          else if parseHex groups.flags % 2 = 1 then some ⟨groups.trace, groups.span, none⟩
          else some ⟨groups.trace, groups.span, some false⟩
  | _ => none

def withTraceparent (metadata : Metadata) (context : TraceContext) : Metadata :=
  set TRACEPARENT (.text (formatTraceparent context)) metadata

/-! ## What is accepted -/

def IsHex (n : ℕ) (digits : Str) : Prop := digits.length = n ∧ digits.all isHex = true

instance (n : ℕ) (digits : Str) : Decidable (IsHex n digits) := inferInstanceAs (Decidable (_ ∧ _))

theorem readHex_append {n : ℕ} {digits : Str} (h : IsHex n digits) (rest : Str) :
    readHex n (digits ++ rest) = some (digits, rest) := by
  obtain ⟨hlength, hhex⟩ := h
  have htake : (digits ++ rest).take n = digits := List.take_left' hlength
  have hdrop : (digits ++ rest).drop n = rest := List.drop_left' hlength
  simp only [readHex, htake, hdrop, hlength, hhex, true_and, if_true]

theorem readHex_eq_some {n : ℕ} {text digits rest : Str} :
    readHex n text = some (digits, rest) ↔ text = digits ++ rest ∧ IsHex n digits := by
  constructor
  · intro h
    simp only [readHex] at h
    split_ifs at h with hdigits
    obtain ⟨rfl, rfl⟩ := Prod.mk.inj (Option.some.inj h)
    exact ⟨(List.take_append_drop n text).symm, hdigits⟩
  · rintro ⟨rfl, hdigits⟩
    exact readHex_append hdigits rest

theorem readDash_eq_some {text rest : Str} : readDash text = some rest ↔ text = dash ++ rest := by
  have hdash : dash = [45] := rfl
  cases text with
  | nil => simp [readDash, hdash]
  | cons u tail =>
      by_cases hu : u = 45
      · simp [readDash, hdash, hu]
      · simp [readDash, hdash, hu]

def Groups.text (groups : Groups) : Str :=
  groups.version ++ (dash ++ (groups.trace ++ (dash ++ (groups.span ++ (dash ++ groups.flags)))))

structure Groups.Hex (groups : Groups) : Prop where
  version : IsHex 2 groups.version
  trace : IsHex 32 groups.trace
  span : IsHex 16 groups.span
  flags : IsHex 2 groups.flags

theorem exec_eq_some {raw : Str} {groups : Groups} :
    exec raw = some groups ↔ raw = groups.text ∧ groups.Hex := by
  constructor
  · intro h
    simp only [exec, Option.bind_eq_bind, Option.bind_eq_some_iff, Prod.exists] at h
    obtain ⟨version, _, hversion, _, hrest, trace, _, htrace, _, hrest', span, _, hspan, _, hrest'',
      flags, last,
      hflags, hlast⟩ := h
    rw [readDash_eq_some] at hrest hrest' hrest''
    rw [readHex_eq_some] at hversion htrace hspan hflags
    split_ifs at hlast with hempty
    cases hlast
    subst hempty
    refine ⟨?_, hversion.2, htrace.2, hspan.2, hflags.2⟩
    rw [hversion.1, hrest, htrace.1, hrest', hspan.1, hrest'', hflags.1, List.append_nil]
    rfl
  · rintro ⟨rfl, hhex⟩
    have hflags := readHex_append hhex.flags []
    rw [List.append_nil] at hflags
    have hdash : ∀ rest, readDash (dash ++ rest) = some rest := fun rest => readDash_eq_some.mpr rfl
    simp [exec, Groups.text, readHex_append hhex.version, readHex_append hhex.trace,
      readHex_append hhex.span,
      hflags, hdash]

structure TraceContext.Valid (context : TraceContext) : Prop where
  trace : IsHex 32 context.traceId
  traceId : context.traceId ≠ INVALID_TRACE_ID
  span : IsHex 16 context.spanId
  spanId : context.spanId ≠ INVALID_SPAN_ID

/-- What a text keeps of a context. -/
def TraceContext.carried (context : TraceContext) : TraceContext :=
  { context with sampled := if context.sampled = some false then some false else none }

theorem ne_nil_of_isHex {n : ℕ} {digits : Str} (h : IsHex (n + 1) digits) : digits ≠ [] := by
  rintro rfl
  exact absurd h.1 (by simp)

/-- Exactly the texts of the format are read, as the ids they show and bit 0 of their flags. -/
theorem traceparentOf_eq_some {metadata : Metadata} {context : TraceContext} :
    traceparentOf metadata = some context ↔ context.Valid ∧ ∃ version flags, IsHex 2 version ∧
      version ≠ ascii "ff" ∧
      IsHex 2 flags ∧ context.sampled = (if parseHex flags % 2 = 1 then none else some false) ∧
      get TRACEPARENT metadata =
        some (.text (Groups.text ⟨version, context.traceId, context.spanId, flags⟩)) := by
  constructor
  · intro h
    unfold traceparentOf at h
    split at h
    case h_2 => cases h
    case h_1 raw hraw =>
      cases hexec : exec raw with
      | none => rw [hexec] at h; cases h
      | some groups =>
          rw [hexec] at h
          simp only at h
          obtain ⟨rfl, hhex⟩ := exec_eq_some.mp hexec
          split_ifs at h with hversion hempty hinvalid hflags
          · cases h
            refine ⟨⟨hhex.trace, fun heq => hinvalid (.inl heq), hhex.span,
              fun heq => hinvalid (.inr heq)⟩,
              groups.version, groups.flags, hhex.version, hversion, hhex.flags, ?_, hraw⟩
            rw [if_pos hflags]
          · cases h
            refine ⟨⟨hhex.trace, fun heq => hinvalid (.inl heq), hhex.span,
              fun heq => hinvalid (.inr heq)⟩,
              groups.version, groups.flags, hhex.version, hversion, hhex.flags, ?_, hraw⟩
            rw [if_neg hflags]
  · rintro ⟨hvalid, version, flags, hversion, hff, hflags, hsampled, hget⟩
    have hexec : exec (Groups.text ⟨version, context.traceId, context.spanId, flags⟩) =
        some ⟨version, context.traceId, context.spanId, flags⟩ :=
      exec_eq_some.mpr ⟨rfl, hversion, hvalid.trace, hvalid.span, hflags⟩
    have hempty : ¬(context.traceId = [] ∨ context.spanId = []) :=
      not_or.mpr ⟨ne_nil_of_isHex hvalid.trace, ne_nil_of_isHex hvalid.span⟩
    have hinvalid : ¬(context.traceId = INVALID_TRACE_ID ∨ context.spanId = INVALID_SPAN_ID) :=
      not_or.mpr ⟨hvalid.traceId, hvalid.spanId⟩
    unfold traceparentOf
    rw [hget]
    simp only [hexec, if_neg hff, if_neg hempty, if_neg hinvalid]
    obtain ⟨traceId, spanId, sampled⟩ := context
    simp only at hsampled
    subst hsampled
    split_ifs <;> rfl

theorem traceparentOf_withTraceparent {context : TraceContext} (h : context.Valid)
    (metadata : Metadata) :
    traceparentOf (withTraceparent metadata context) = some context.carried := by
  have hflags : ∀ bit : Bool, IsHex 2 (if bit then ascii "00" else ascii "01") := by decide
  refine traceparentOf_eq_some.mpr ⟨⟨h.trace, h.traceId, h.span, h.spanId⟩, ascii "00",
    if context.sampled = some false then ascii "00"
    else ascii "01", by decide, by decide, ?_, ?_, ?_⟩
  · split_ifs
    · exact hflags true
    · exact hflags false
  · simp only [TraceContext.carried]
    by_cases hdecided : context.sampled = some false
    · rw [if_pos hdecided, if_pos hdecided]
      rfl
    · rw [if_neg hdecided, if_neg hdecided]
      rfl
  · rw [withTraceparent, get_set_self]
    simp [formatTraceparent, Groups.text, TraceContext.carried]

/-- The digits before a dash end at the first dash of the other text. -/
theorem split_at_dash {digits other rest rest' : Str} (hdigits : digits.all isHex = true)
    (h : digits ++ (dash ++ rest) = other ++ (dash ++ rest')) :
    (digits = other ∧ rest = rest') ∨ ∃ more, other = digits ++ (dash ++ more) ∧
      rest = more ++ (dash ++ rest') := by
  induction digits generalizing other with
  | nil =>
      cases other with
      | nil => exact .inl ⟨rfl, List.append_cancel_left h⟩
      | cons u more =>
          obtain ⟨rfl, hrest⟩ := List.cons.inj h
          exact .inr ⟨more, rfl, hrest⟩
  | cons digit digits ih =>
      rw [List.all_cons, Bool.and_eq_true] at hdigits
      cases other with
      | nil =>
          obtain ⟨rfl, -⟩ := List.cons.inj h
          exact absurd hdigits.1 (by decide)
      | cons u other =>
          obtain ⟨rfl, htail⟩ := List.cons.inj h
          rcases ih hdigits.2 htail with ⟨rfl, hrest⟩ | ⟨more, rfl, hrest⟩
          · exact .inl ⟨rfl, hrest⟩
          · exact .inr ⟨more, rfl, hrest⟩

/-- Ids that are not of the format do not fall into it by where their dashes are. -/
theorem ids_of_text (groups : Groups) (hhex : groups.Hex) {traceId spanId bits : Str}
    (hbits : bits.length = 2)
    (h : groups.trace ++ (dash ++ (groups.span ++ (dash ++ groups.flags))) =
      traceId ++ (dash ++ (spanId ++ (dash ++ bits)))) :
    groups.trace = traceId ∧ groups.span = spanId ∧ groups.flags = bits := by
  have hdash : dash.length = 1 := rfl
  have hflags := hhex.flags.1
  rcases split_at_dash hhex.trace.2 h with ⟨htrace, hrest⟩ | ⟨more, -, hrest⟩
  · rcases split_at_dash hhex.span.2 hrest with ⟨hspan, hlast⟩ | ⟨more, -, hlast⟩
    · exact ⟨htrace, hspan, hlast⟩
    · rw [hlast] at hflags
      simp only [List.length_append, hdash, hbits] at hflags
      omega
  · rcases split_at_dash hhex.span.2 hrest with ⟨-, hlast⟩ | ⟨more', -, hlast⟩
    · rw [hlast] at hflags
      simp only [List.length_append, hdash, hbits] at hflags
      omega
    · rw [hlast] at hflags
      simp only [List.length_append, hdash, hbits] at hflags
      omega

/-- What is written is read exactly when its ids are of the format, as the same context; and what
was read once is read again wherever it is written. -/
theorem traceparent_round_trip (metadata : Metadata) (context read : TraceContext) :
    (traceparentOf (withTraceparent metadata context) = some read ↔ context.Valid ∧
      read = context.carried) ∧
      (traceparentOf metadata = some read → ∀ others,
        traceparentOf (withTraceparent others read) = some read) := by
  refine ⟨⟨fun h => ?_, ?_⟩, fun h others => ?_⟩
  · obtain ⟨hvalid, version, flags, hversion, -, hflags, hsampled, hget⟩ :=
      traceparentOf_eq_some.mp h
    rw [withTraceparent, get_set_self] at hget
    have htext := (MetadataValue.text.inj (Option.some.inj hget)).symm
    simp only [formatTraceparent, Groups.text, List.append_assoc] at htext
    obtain ⟨rfl, htail⟩ := List.append_inj htext (hversion.1.trans rfl)
    have hlength : (if context.sampled = some false then ascii "00" else ascii "01").length =
        2 := by split_ifs <;> rfl
    obtain ⟨htrace, hspan, hbits⟩ := ids_of_text ⟨ascii "00", read.traceId, read.spanId, flags⟩
      ⟨hversion, hvalid.trace, hvalid.span, hflags⟩ hlength (List.append_cancel_left htail)
    simp only at htrace hspan hbits
    have hread : read = context.carried := by
      obtain ⟨traceId, spanId, sampled⟩ := read
      simp only at htrace hspan hsampled
      rw [hsampled, htrace, hspan, hbits, TraceContext.carried]
      congr 1
      by_cases hdecided : context.sampled = some false
      · rw [if_pos hdecided, if_pos hdecided]
        rfl
      · rw [if_neg hdecided, if_neg hdecided]
        rfl
    exact ⟨⟨htrace ▸ hvalid.trace, htrace ▸ hvalid.traceId, hspan ▸ hvalid.span,
      hspan ▸ hvalid.spanId⟩, hread⟩
  · rintro ⟨hvalid, rfl⟩
    exact traceparentOf_withTraceparent hvalid metadata
  · obtain ⟨hvalid, version, flags, -, -, -, hsampled, -⟩ := traceparentOf_eq_some.mp h
    rw [traceparentOf_withTraceparent hvalid]
    obtain ⟨traceId, spanId, sampled⟩ := read
    simp only at hsampled
    subst hsampled
    simp only [TraceContext.carried]
    split_ifs <;> simp_all

/-- The header of a message that was decided not to be recorded. -/
def unsampled : Str := ascii "00-0af7651916cd43dd8448eb211c80319c-b7ad6b7169203331-00"

/-- The context of the header is written into the metadata of another message and read there
again. -/
theorem unsampled_traceparent_round_trip :
    ∃ context : TraceContext, context.sampled = some false ∧
      traceparentOf [(ascii "user", .other), (TRACEPARENT, .text unsampled)] = some context ∧
      traceparentOf (withTraceparent [(TRACEPARENT, .other)] context) = some context ∧
      (context.Valid ∧ context = context.carried) := by
  have hread : traceparentOf [(ascii "user", .other), (TRACEPARENT, .text unsampled)] =
      some ⟨ascii "0af7651916cd43dd8448eb211c80319c", ascii "b7ad6b7169203331", some false⟩ := by
    decide +kernel
  have hagain := (traceparent_round_trip _ ⟨[], [], none⟩ _).2 hread [(TRACEPARENT, .other)]
  exact ⟨_, rfl, hread, hagain, (traceparent_round_trip [(TRACEPARENT, .other)] _ _).1.mp hagain⟩

end Kronos.Otlp
