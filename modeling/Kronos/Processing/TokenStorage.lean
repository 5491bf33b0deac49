import Kronos.Lib.Json
import Kronos.Processing.TrackingToken

/-!
# Tokens in storage

A token is stored as a label and a JSON text and read back from the text alone:
which of the fields are there decides what kind of token it becomes. A position
is written as decimal digits. `none` stands for an exception; the texts of
`BigInt` that no token writes (signs, spaces, other radixes) are left out.
-/
namespace Kronos.Processing
open Kronos.Lib TrackingToken

/-- Tokens as they are stored: the commit-order key is a text. -/
abbrev StoredToken := TrackingToken String

structure TokenBody where
  position : String
  gapKey : Option String
  deriving DecidableEq, Repr

structure SerializedToken where
  type : String
  data : List Char
  deriving DecidableEq, Repr

def bodyOf (token : StoredToken) : TokenBody :=
  match token.unwrapToken with
  | gapAware sequence gapKey => ⟨toString sequence, some gapKey⟩
  | inner => ⟨toString inner.position, none⟩

/-- `...body`: an absent key has no field. -/
def TokenBody.fields (body : TokenBody) : List (String × Json) :=
  ("position", .string body.position) :: (body.gapKey.toList.map fun key => ("gapKey", .string key))

def halfOf (segment : ℕ) (token : StoredToken) : Json :=
  .object (("segment", .number segment) :: (bodyOf token).fields)

def serializeToken (token : StoredToken) : SerializedToken :=
  let body := bodyOf token
  match token with
  | merged mask a ta b tb =>
      ⟨"MergedToken", Json.stringify (.object (body.fields ++ [("merged",
        .object [("mask", .number mask), ("halves", .array [halfOf a ta, halfOf b tb])])]))⟩
  | replay tokenAtReset _ =>
      ⟨"ReplayToken", Json.stringify (.object (body.fields ++
        [("tokenAtReset", .object (bodyOf tokenAtReset).fields)]))⟩
  | _ =>
      ⟨if body.gapKey.isSome then "GapAwareToken" else "GlobalSequenceToken",
        Json.stringify (.object body.fields)⟩

/-- `BigInt(text)`. -/
def bigInt (text : List Char) : Option ℕ :=
  if text.all Char.isDigit then some (Nat.ofDigitChars 10 text 0) else none

def asText : Json → Option String
  | .string text => some text
  | _ => none

def asNumber : Json → Option ℕ
  | .number n => some n
  | _ => none

def tokenOf (body : Json) : Option StoredToken :=
  ((body.field "position").bind asText).bind fun position =>
    (bigInt position.toList).bind fun sequence =>
      match body.field "gapKey" with
      | some key => (asText key).map fun key => gapAware sequence key
      | none => some (globalSequence sequence)

/-- A stored half: its segment and its token. -/
def halfIn (half : Json) : Option (ℕ × StoredToken) :=
  ((half.field "segment").bind asNumber).bind fun segment =>
    (tokenOf half).map fun token => (segment, token)

/-- What `merged` holds: the mask and two halves. -/
def mergedIn (stored : Json) : Option StoredToken :=
  ((stored.field "mask").bind asNumber).bind fun mask =>
    match stored.field "halves" with
    | some (.array [a, b]) =>
        (halfIn a).bind fun a => (halfIn b).map fun b => mergedToken mask a.1 a.2 b.1 b.2
    | _ => none

/-- The token of a text, or no token for no text. The label is not looked at. -/
def deserializeToken (_type : Option String) (data : Option (List Char)) :
    Option (Option StoredToken) :=
  match data with
  | none => some none
  | some data =>
      if data.isEmpty then some none
      else
        (Json.parse data).bind fun parsed =>
          match parsed.field "merged" with
          | some stored => (mergedIn stored).map some
          | none =>
              (tokenOf parsed).bind fun current =>
                match parsed.field "tokenAtReset" with
                | some reset => (tokenOf reset).map fun reset => some (replay reset current)
                | none => some (some current)

/-! ## The tokens a processor stores -/

/-- A bare position, or one with its commit-order key: what a stream mints. -/
def Plain : StoredToken → Prop
  | globalSequence _ => True
  | gapAware _ _ => True
  | _ => False

/-- What a processor stores: a plain token, a replay between two, or two halves
that have got to different places. -/
def Storable : StoredToken → Prop
  | replay tokenAtReset currentToken => Plain tokenAtReset ∧ Plain currentToken
  | merged _ _ ta _ tb => Plain ta ∧ Plain tb ∧ ta.position ≠ tb.position
  | token => Plain token

/-- The token of an event: its position, with the store's key where it has one. -/
def eventToken (sequence : ℕ) : Option String → StoredToken
  | some gapKey => gapAware sequence gapKey
  | none => globalSequence sequence

theorem Plain.storable {token : StoredToken} (h : Plain token) : Storable token := by
  cases token with
  | globalSequence n => exact h
  | gapAware n k => exact h
  | replay r c => exact h.elim
  | merged mask a ta b tb => exact h.elim

theorem plain_eventToken (sequence : ℕ) (gapKey : Option String) :
    Plain (eventToken sequence gapKey) := by
  cases gapKey with
  | none => exact trivial
  | some key => exact trivial

theorem storable_mergedToken {mask a b : ℕ} {ta tb : StoredToken} (ha : Plain ta) (hb : Plain tb) :
    Storable (mergedToken mask a ta b tb) := by
  rw [mergedToken]
  split_ifs with hsame
  · exact ha.storable
  · exact ⟨ha, hb, fun heq => hsame (samePositionAs_iff.mpr heq)⟩

/-- Advancing to an event's token gives a token that can be stored again. -/
theorem Storable.advance {token next : StoredToken} (h : Storable token) (hnext : Plain next) :
    Storable (advanceTokenTo token next) := by
  cases token with
  | globalSequence n => exact hnext.storable
  | gapAware n k => exact hnext.storable
  | replay reset current =>
      rw [advanceTokenTo]
      split_ifs
      · exact hnext.storable
      · exact ⟨h.1, hnext⟩
  | merged mask a ta b tb =>
      obtain ⟨ha, hb, -⟩ := h
      apply storable_mergedToken
      · split_ifs
        · exact ha
        · exact hnext
      · split_ifs
        · exact hb
        · exact hnext

/-! ## Reading back -/

theorem bigInt_toString (n : ℕ) : bigInt (toString n).toList = some n := by
  have htext : (toString n).toList = Nat.toDigits 10 n := by simp
  have hdigits : (Nat.toDigits 10 n).all Char.isDigit = true :=
    List.all_eq_true.mpr (Json.isDigit_digits n)
  rw [htext, bigInt, if_pos hdigits, Nat.ofDigitChars_ten_toDigits]

/-- The fields a body is read from, whatever stands before and after them. -/
theorem tokenOf_fields {token : StoredToken} (h : Plain token) {value : Json}
    (hposition : value.field "position" = some (.string (bodyOf token).position))
    (hkey : value.field "gapKey" = (bodyOf token).gapKey.map Json.string) :
    tokenOf value = some token := by
  cases token with
  | globalSequence n =>
      have hnone : value.field "gapKey" = none := hkey
      have hsequence : bigInt (bodyOf (globalSequence n)).position.toList = some n :=
        bigInt_toString n
      simp only [tokenOf, hposition, hnone, Option.bind_some, asText, hsequence]
  | gapAware n k =>
      have hsome : value.field "gapKey" = some (.string k) := hkey
      have hsequence : bigInt (bodyOf (gapAware n k)).position.toList = some n :=
        bigInt_toString n
      simp only [tokenOf, hposition, hsome, Option.bind_some, asText, hsequence, Option.map_some]
  | replay r c => exact h.elim
  | merged mask a ta b tb => exact h.elim

/-- The two fields of a body, among fields of other names. -/
theorem field_body (body : TokenBody) (before after : List (String × Json))
    (hafter : ∀ entry ∈ after, entry.1 ≠ "position" ∧ entry.1 ≠ "gapKey")
    (hbefore : ∀ entry ∈ before, entry.1 ≠ "gapKey") :
    (Json.object (before ++ (body.fields ++ after))).field "position" =
        some (.string body.position) ∧
      (Json.object (before ++ (body.fields ++ after))).field "gapKey" =
        body.gapKey.map Json.string := by
  have hpos : after.reverse.find? (fun entry => decide (entry.1 = "position")) = none := by
    simpa using fun a b hmem => (hafter (a, b) hmem).1
  have hkey : after.reverse.find? (fun entry => decide (entry.1 = "gapKey")) = none := by
    simpa using fun a b hmem => (hafter (a, b) hmem).2
  have hkey' : before.reverse.find? (fun entry => decide (entry.1 = "gapKey")) = none := by
    simpa using fun a b hmem => hbefore (a, b) hmem
  obtain ⟨position, gapKey⟩ := body
  simp only [Json.field, List.reverse_append, List.find?_append, hpos, hkey, hkey',
    TokenBody.fields]
  cases gapKey with
  | none => simp
  | some key => simp

/-- A name the body does not use is looked up in the fields around it. -/
theorem field_around (body : TokenBody) (before after : List (String × Json)) {name : String}
    (hposition : name ≠ "position") (hkey : name ≠ "gapKey") :
    (Json.object (before ++ (body.fields ++ after))).field name =
      (Json.object (before ++ after)).field name := by
  have hbody : body.fields.reverse.find? (fun entry => decide (entry.1 = name)) = none := by
    obtain ⟨position, gapKey⟩ := body
    cases gapKey with
    | none => simp [TokenBody.fields, hposition.symm]
    | some key => simp [TokenBody.fields, hposition.symm, hkey.symm]
  simp only [Json.field, List.reverse_append, List.find?_append, hbody, Option.or_none]

theorem tokenOf_body {token : StoredToken} (h : Plain token) (after : List (String × Json))
    (hafter : ∀ entry ∈ after, entry.1 ≠ "position" ∧ entry.1 ≠ "gapKey") :
    tokenOf (.object ((bodyOf token).fields ++ after)) = some token := by
  obtain ⟨hposition, hkey⟩ := field_body (bodyOf token) [] after hafter (by simp)
  exact tokenOf_fields h hposition hkey

theorem halfIn_halfOf {token : StoredToken} (h : Plain token) (segment : ℕ) :
    halfIn (halfOf segment token) = some (segment, token) := by
  obtain ⟨hposition, hkey⟩ := field_body (bodyOf token) [("segment", .number segment)] []
    (by simp) (by simp)
  rw [List.append_nil] at hposition hkey
  have htoken : tokenOf (halfOf segment token) = some token := tokenOf_fields h hposition hkey
  have hsegment : (halfOf segment token).field "segment" = some (.number segment) := by
    have hfield := field_around (bodyOf token) [("segment", .number segment)] []
      (show "segment" ≠ "position" by decide) (by decide)
    rw [List.append_nil] at hfield
    exact hfield
  simp only [halfIn, hsegment, htoken, Option.bind_some, asNumber, Option.map_some]

theorem mergedIn_stored {ta tb : StoredToken} (ha : Plain ta) (hb : Plain tb) (mask a b : ℕ) :
    mergedIn (.object [("mask", .number mask), ("halves", .array [halfOf a ta, halfOf b tb])]) =
      some (mergedToken mask a ta b tb) := by
  simp [mergedIn, Json.field, asNumber, halfIn_halfOf ha, halfIn_halfOf hb]

/-- A text is read through the object it was written from. -/
theorem deserializeToken_stringify (type : Option String) (fields : List (String × Json)) :
    deserializeToken type (some (Json.stringify (.object fields))) =
      match (Json.object fields).field "merged" with
      | some stored => (mergedIn stored).map some
      | none =>
          (tokenOf (.object fields)).bind fun current =>
            match (Json.object fields).field "tokenAtReset" with
            | some reset => (tokenOf reset).map fun reset => some (replay reset current)
            | none => some (some current) := by
  have hne : (Json.stringify (.object fields)).isEmpty = false := by
    simpa using Json.stringify_ne_nil (.object fields)
  simp only [deserializeToken, hne, Json.parse_stringify, Option.bind_some, Bool.false_eq_true,
    if_false]

theorem deserializeToken_plain {token : StoredToken} (h : Plain token) (type : Option String) :
    deserializeToken type (some (Json.stringify (.object (bodyOf token).fields))) =
      some (some token) := by
  have htoken := tokenOf_body h [] (by simp)
  have hmerged := field_around (bodyOf token) [] [] (show "merged" ≠ "position" by decide)
    (by decide)
  have hreset := field_around (bodyOf token) [] [] (show "tokenAtReset" ≠ "position" by decide)
    (by decide)
  rw [List.nil_append, List.append_nil] at hmerged hreset
  rw [List.append_nil] at htoken
  rw [deserializeToken_stringify, hmerged, htoken, hreset]
  rfl

theorem deserializeToken_replay {reset current : StoredToken} (hr : Plain reset)
    (hc : Plain current) (type : Option String) :
    deserializeToken type (some (serializeToken (replay reset current)).data) =
      some (some (replay reset current)) := by
  have htoken := tokenOf_body hc [("tokenAtReset", .object (bodyOf reset).fields)] (by simp)
  have hstored := tokenOf_body hr [] (by simp)
  have hmerged := field_around (bodyOf current) [] [("tokenAtReset", .object (bodyOf reset).fields)]
    (show "merged" ≠ "position" by decide) (by decide)
  have hreset := field_around (bodyOf current) [] [("tokenAtReset", .object (bodyOf reset).fields)]
    (show "tokenAtReset" ≠ "position" by decide) (by decide)
  rw [List.nil_append] at hmerged hreset
  rw [List.append_nil] at hstored
  change deserializeToken type (some (Json.stringify (.object ((bodyOf current).fields ++ _)))) = _
  rw [deserializeToken_stringify, hmerged, htoken, hreset]
  simp [Json.field, hstored]

theorem deserializeToken_merged {ta tb : StoredToken} (ha : Plain ta) (hb : Plain tb)
    (hne : ta.position ≠ tb.position) (mask a b : ℕ) (type : Option String) :
    deserializeToken type (some (serializeToken (merged mask a ta b tb)).data) =
      some (some (merged mask a ta b tb)) := by
  have hstored := mergedIn_stored ha hb mask a b
  have hdistinct : mergedToken mask a ta b tb = merged mask a ta b tb := by
    rw [mergedToken, if_neg (by simpa [samePositionAs_iff] using hne)]
  have hmerged := field_around (bodyOf (merged mask a ta b tb)) [] [("merged",
    .object [("mask", .number mask), ("halves", .array [halfOf a ta, halfOf b tb])])]
    (show "merged" ≠ "position" by decide) (by decide)
  rw [List.nil_append] at hmerged
  rw [serializeToken, deserializeToken_stringify, hmerged]
  simp [Json.field, hstored, hdistinct]

/-- What is stored of a token gives the token back, whatever the label says. -/
theorem deserializeToken_serializeToken {token : StoredToken} (h : Storable token)
    (type : Option String) :
    deserializeToken type (some (serializeToken token).data) = some (some token) := by
  cases token with
  | globalSequence n => exact deserializeToken_plain (show Plain (globalSequence n) from h) type
  | gapAware n k => exact deserializeToken_plain (show Plain (gapAware n k) from h) type
  | replay reset current => exact deserializeToken_replay h.1 h.2 type
  | merged mask a ta b tb => exact deserializeToken_merged h.1 h.2.1 h.2.2 mask a b type

/-! ## Advancing and reloading -/

inductive StorageStep where
  /-- The token moves to an event's token. -/
  | advance (sequence : ℕ) (gapKey : Option String)
  /-- The token is stored and read back. -/
  | reload

/-- A token through steps, `none` where reading it back throws or finds no token. -/
def afterSteps : List StorageStep → StoredToken → Option StoredToken
  | [], token => some token
  | .advance sequence gapKey :: steps, token =>
      afterSteps steps (advanceTokenTo token (eventToken sequence gapKey))
  | .reload :: steps, token =>
      let stored := serializeToken token
      (deserializeToken (some stored.type) (some stored.data)).join.bind (afterSteps steps)

/-- The same with nothing stored on the way. -/
def afterAdvances : List StorageStep → StoredToken → StoredToken
  | [], token => token
  | .advance sequence gapKey :: steps, token =>
      afterAdvances steps (advanceTokenTo token (eventToken sequence gapKey))
  | .reload :: steps, token => afterAdvances steps token

/-- A stored token is read back as it was, and goes on as it would have without
being stored, however often it is stored and reloaded on the way. -/
theorem Storable.survives {token : StoredToken} (h : Storable token) :
    (∀ type, deserializeToken type (some (serializeToken token).data) = some (some token)) ∧
      ∀ steps, afterSteps steps token = some (afterAdvances steps token) := by
  refine ⟨deserializeToken_serializeToken h, ?_⟩
  intro steps
  induction steps generalizing token with
  | nil => rfl
  | cons step steps ih =>
      cases step with
      | advance sequence gapKey => exact ih (h.advance (plain_eventToken sequence gapKey))
      | reload =>
          rw [afterSteps, deserializeToken_serializeToken h]
          exact ih h

/-- A merged token one of whose halves is ahead, stored, advanced to where they meet and stored. -/
theorem survives_merged :
    afterSteps [.reload, .advance 9 (some "77"), .reload]
        (merged 3 1 (gapAware 4 "70") 3 (globalSequence 9)) = some (gapAware 9 "77") := by
  have h : Storable (merged 3 1 (gapAware 4 "70") 3 (globalSequence 9)) :=
    ⟨trivial, trivial, by decide⟩
  exact (Storable.survives h).2 _

end Kronos.Processing
