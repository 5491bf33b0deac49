import Mathlib.Data.List.Basic
import Mathlib.Data.Nat.Notation

/-!
# JSON text

Writing and reading the part of JSON that has texts, natural numbers, lists and
objects. A text is a list of characters. What the writer puts out is what
`JSON.stringify` does, with no space between the tokens; the reader also skips
white space, as `JSON.parse` does.
-/
namespace Kronos.Lib

inductive Json where
  | string (text : String)
  | number (n : ℕ)
  | array (items : List Json)
  | object (fields : List (String × Json))

namespace Json

/-! ## Writing -/

def hexDigit (n : ℕ) : Char := Nat.digitChar n

/-- A character as it stands between quotes. -/
def escape (c : Char) : List Char :=
  if c = '"' then ['\\', '"']
  else if c = '\\' then ['\\', '\\']
  else if c = '\x08' then ['\\', 'b']
  else if c = '\x0c' then ['\\', 'f']
  else if c = '\n' then ['\\', 'n']
  else if c = '\r' then ['\\', 'r']
  else if c = '\t' then ['\\', 't']
  else if c.toNat < 32 then
    ['\\', 'u', '0', '0', hexDigit (c.toNat / 16), hexDigit (c.toNat % 16)]
  else [c]

def quote (text : String) : List Char := '"' :: text.toList.flatMap escape ++ ['"']

mutual
def stringify : Json → List Char
  | .string text => quote text
  | .number n => Nat.toDigits 10 n
  | .array items => '[' :: stringifyItems items ++ [']']
  | .object fields => '\x7b' :: stringifyFields fields ++ ['\x7d']

def stringifyItems : List Json → List Char
  | [] => []
  | [item] => stringify item
  | item :: items => stringify item ++ ',' :: stringifyItems items

def stringifyFields : List (String × Json) → List Char
  | [] => []
  | [(name, value)] => quote name ++ ':' :: stringify value
  | (name, value) :: fields =>
      quote name ++ ':' :: (stringify value ++ ',' :: stringifyFields fields)
end

/-! ## Reading -/

def isSpace (c : Char) : Bool := c = ' ' ∨ c = '\t' ∨ c = '\n' ∨ c = '\r'

def skip (text : List Char) : List Char := text.dropWhile isSpace

def hexValue (c : Char) : Option ℕ :=
  if '0' ≤ c ∧ c ≤ '9' then some (c.toNat - '0'.toNat)
  else if 'a' ≤ c ∧ c ≤ 'f' then some (c.toNat - 'a'.toNat + 10)
  else if 'A' ≤ c ∧ c ≤ 'F' then some (c.toNat - 'A'.toNat + 10)
  else none

/-- The character after a backslash, other than `u`. -/
def unescape (c : Char) : Option Char :=
  if c = '"' ∨ c = '\\' ∨ c = '/' then some c
  else if c = 'b' then some '\x08'
  else if c = 'f' then some '\x0c'
  else if c = 'n' then some '\n'
  else if c = 'r' then some '\r'
  else if c = 't' then some '\t'
  else none

/-- The character of four hexadecimal digits. -/
def codeUnit (a b c d : Char) : Option Char := do
  let a ← hexValue a
  let b ← hexValue b
  let c ← hexValue c
  let d ← hexValue d
  pure (Char.ofNat (((a * 16 + b) * 16 + c) * 16 + d))

/-- What follows an opening quote up to the closing one, and the rest. -/
def readText : List Char → Option (List Char × List Char)
  | [] => none
  | '"' :: rest => some ([], rest)
  | '\\' :: 'u' :: a :: b :: c :: d :: rest =>
      (codeUnit a b c d).bind fun c => (readText rest).map fun read => (c :: read.1, read.2)
  | '\\' :: c :: rest =>
      (unescape c).bind fun c => (readText rest).map fun read => (c :: read.1, read.2)
  | c :: rest =>
      if c.toNat < 32 then none else (readText rest).map fun read => (c :: read.1, read.2)

def readNumber (text : List Char) : Option (ℕ × List Char) :=
  let digits := text.takeWhile Char.isDigit
  if digits.isEmpty then none else some (Nat.ofDigitChars 10 digits 0, text.dropWhile Char.isDigit)

mutual
/-- A value at the start of a text, and the rest of the text. -/
def readValue : ℕ → List Char → Option (Json × List Char)
  | 0, _ => none
  | fuel + 1, text =>
      match skip text with
      | '"' :: rest => (readText rest).map fun read => (.string (String.ofList read.1), read.2)
      | '[' :: rest =>
          match skip rest with
          | ']' :: rest => some (.array [], rest)
          | _ => (readItems fuel rest).map fun read => (.array read.1, read.2)
      | '\x7b' :: rest =>
          match skip rest with
          | '\x7d' :: rest => some (.object [], rest)
          | _ => (readFields fuel rest).map fun read => (.object read.1, read.2)
      | text => (readNumber text).map fun read => (.number read.1, read.2)

/-- The items of a list up to its closing bracket. -/
def readItems : ℕ → List Char → Option (List Json × List Char)
  | 0, _ => none
  | fuel + 1, text =>
      (readValue fuel text).bind fun item =>
        match skip item.2 with
        | ']' :: rest => some ([item.1], rest)
        | ',' :: rest => (readItems fuel rest).map fun read => (item.1 :: read.1, read.2)
        | _ => none

/-- The fields of an object up to its closing brace. -/
def readFields : ℕ → List Char → Option (List (String × Json) × List Char)
  | 0, _ => none
  | fuel + 1, text =>
      match skip text with
      | '"' :: rest =>
          (readText rest).bind fun name =>
            match skip name.2 with
            | ':' :: rest =>
                (readValue fuel rest).bind fun value =>
                  match skip value.2 with
                  | '\x7d' :: rest => some ([(String.ofList name.1, value.1)], rest)
                  | ',' :: rest =>
                      (readFields fuel rest).map fun read =>
                        ((String.ofList name.1, value.1) :: read.1, read.2)
                  | _ => none
            | _ => none
      | _ => none
end

/-- `JSON.parse`, `none` where it throws. Every nested value takes a character at
least, so the length of the text is depth enough. -/
def parse (text : List Char) : Option Json :=
  match readValue (text.length + 1) text with
  | some (value, rest) => if (skip rest).isEmpty then some value else none
  | none => none

/-- `value.name`: the last field of that name. -/
def field (name : String) : Json → Option Json
  | .object fields => (fields.reverse.find? fun entry => entry.1 = name).map Prod.snd
  | _ => none

/-! ## Reading back what was written -/

theorem skip_cons {c : Char} (hc : isSpace c = false) (rest : List Char) :
    skip (c :: rest) = c :: rest := by
  simp [skip, hc]

theorem hexValue_hexDigit {n : ℕ} (hn : n < 16) : hexValue (hexDigit n) = some n := by
  have hall : ∀ m < 16, hexValue (hexDigit m) = some m := by decide
  exact hall n hn

theorem codeUnit_hexDigits {c : Char} (hc : c.toNat < 32) :
    codeUnit '0' '0' (hexDigit (c.toNat / 16)) (hexDigit (c.toNat % 16)) = some c := by
  have hzero : hexValue '0' = some 0 := by decide
  have hvalue : ((0 * 16 + 0) * 16 + c.toNat / 16) * 16 + c.toNat % 16 = c.toNat := by omega
  simp only [codeUnit, hzero, hexValue_hexDigit (show c.toNat / 16 < 16 by omega),
    hexValue_hexDigit (show c.toNat % 16 < 16 by omega), Option.bind_eq_bind, Option.bind_some,
    hvalue, Char.ofNat_toNat]
  rfl

/-- A backslash and a character other than `u`. -/
theorem readText_unescape {c d : Char} (hu : c ≠ 'u') (hd : unescape c = some d)
    (rest : List Char) :
    readText ('\\' :: c :: rest) = (readText rest).map fun read => (d :: read.1, read.2) := by
  rw [readText.eq_4]
  · rw [hd]
    rfl
  · intro a b e f more heq
    exact fun _ => absurd heq hu

theorem readText_plain {c : Char} (hquote : c ≠ '"') (hslash : c ≠ '\\') (hc : ¬ c.toNat < 32)
    (rest : List Char) :
    readText (c :: rest) = (readText rest).map fun read => (c :: read.1, read.2) := by
  rw [readText.eq_5]
  · rw [if_neg hc]
  · exact hquote
  · intro a b e f more heq
    exact fun _ => absurd heq hslash
  · intro d more heq
    exact fun _ => absurd heq hslash

theorem readText_escape (c : Char) (rest : List Char) :
    readText (escape c ++ rest) = (readText rest).map fun read => (c :: read.1, read.2) := by
  unfold escape
  by_cases hquote : c = '"'
  · subst hquote
    exact readText_unescape (by decide) (by decide) rest
  by_cases hslash : c = '\\'
  · subst hslash
    exact readText_unescape (by decide) (by decide) rest
  rw [if_neg hquote, if_neg hslash]
  by_cases hb : c = '\x08'
  · subst hb
    exact readText_unescape (by decide) (by decide) rest
  by_cases hf : c = '\x0c'
  · subst hf
    exact readText_unescape (by decide) (by decide) rest
  rw [if_neg hb, if_neg hf]
  by_cases hn : c = '\n'
  · subst hn
    exact readText_unescape (by decide) (by decide) rest
  by_cases hr : c = '\r'
  · subst hr
    exact readText_unescape (by decide) (by decide) rest
  by_cases ht : c = '\t'
  · subst ht
    exact readText_unescape (by decide) (by decide) rest
  rw [if_neg hn, if_neg hr, if_neg ht]
  by_cases hlow : c.toNat < 32
  · rw [if_pos hlow]
    simp only [List.cons_append, List.nil_append, readText, codeUnit_hexDigits hlow]
    rfl
  · rw [if_neg hlow]
    exact readText_plain hquote hslash hlow rest

theorem readText_escaped (text rest : List Char) :
    readText (text.flatMap escape ++ '"' :: rest) = some (text, rest) := by
  induction text with
  | nil => rfl
  | cons c text ih =>
      rw [List.flatMap_cons, List.append_assoc, readText_escape, ih]
      rfl

/-- What a number is followed by does not go on with a digit. -/
def EndsNumber (rest : List Char) : Prop := ∀ c ∈ rest.head?, c.isDigit = false

theorem isDigit_digits (n : ℕ) : ∀ c ∈ Nat.toDigits 10 n, c.isDigit = true := by
  intro c hc
  exact Nat.isDigit_of_mem_toDigits (by omega) (by omega) hc

theorem readNumber_digits (n : ℕ) {rest : List Char} (hrest : EndsNumber rest) :
    readNumber (Nat.toDigits 10 n ++ rest) = some (n, rest) := by
  have hstop : rest.takeWhile Char.isDigit = [] ∧ rest.dropWhile Char.isDigit = rest := by
    cases rest with
    | nil => exact ⟨rfl, rfl⟩
    | cons c rest =>
        have hc : c.isDigit = false := hrest c rfl
        simp [hc]
  have htake : (Nat.toDigits 10 n ++ rest).takeWhile Char.isDigit = Nat.toDigits 10 n := by
    rw [List.takeWhile_append_of_pos (isDigit_digits n), hstop.1, List.append_nil]
  have hdrop : (Nat.toDigits 10 n ++ rest).dropWhile Char.isDigit = rest := by
    rw [List.dropWhile_append_of_pos (isDigit_digits n), hstop.2]
  have hne : (Nat.toDigits 10 n).isEmpty = false := by
    simp [Nat.toDigits_ne_nil]
  simp only [readNumber, htake, hdrop, hne, Nat.ofDigitChars_ten_toDigits, Bool.false_eq_true,
    if_false]

/-- The first character of a value's text is neither white space nor the end of a list. -/
theorem stringify_head (value : Json) :
    ∃ c text, stringify value = c :: text ∧ isSpace c = false ∧ c ≠ ']' := by
  cases value with
  | string text => exact ⟨_, _, rfl, by decide, by decide⟩
  | number n =>
      cases hdigits : Nat.toDigits 10 n with
      | nil => exact absurd hdigits Nat.toDigits_ne_nil
      | cons c text =>
          have hdigit : c.isDigit = true := isDigit_digits n c (by simp [hdigits])
          refine ⟨c, text, by rw [stringify, hdigits], ?_, ?_⟩
          · apply Bool.eq_false_iff.mpr
            intro hspace
            simp only [isSpace, decide_eq_true_eq] at hspace
            rcases hspace with rfl | rfl | rfl | rfl <;> exact absurd hdigit (by decide)
          · rintro rfl
            exact absurd hdigit (by decide)
  | array items => exact ⟨_, _, rfl, by decide, by decide⟩
  | object fields => exact ⟨_, _, rfl, by decide, by decide⟩

theorem readValue_number (fuel n : ℕ) {rest : List Char} (hrest : EndsNumber rest) :
    readValue (fuel + 1) (Nat.toDigits 10 n ++ rest) = some (.number n, rest) := by
  have hread := readNumber_digits n hrest
  obtain ⟨c, text, heq, hspace, -⟩ := stringify_head (.number n)
  rw [stringify] at heq
  have hdigit : c.isDigit = true := isDigit_digits n c (by simp [heq])
  rw [heq, List.cons_append] at hread ⊢
  rw [readValue, skip_cons hspace]
  split
  case h_1 hquote => cases hquote; exact absurd hdigit (by decide)
  case h_2 hbracket => cases hbracket; exact absurd hdigit (by decide)
  case h_3 hbrace => cases hbrace; exact absurd hdigit (by decide)
  case h_4 => rw [hread]; rfl

/-- What is read of a text that a value, the items of a list or the fields of an
object begin, given depth enough. -/
structure ReadsBack (fuel : ℕ) : Prop where
  value : ∀ (value : Json) (rest : List Char), (stringify value).length < fuel → EndsNumber rest →
    readValue fuel (stringify value ++ rest) = some (value, rest)
  items : ∀ (item : Json) (items : List Json) (rest : List Char),
    (stringifyItems (item :: items)).length + 1 < fuel →
    readItems fuel (stringifyItems (item :: items) ++ ']' :: rest) = some (item :: items, rest)
  fields : ∀ (entry : String × Json) (fields : List (String × Json)) (rest : List Char),
    (stringifyFields (entry :: fields)).length + 1 < fuel →
    readFields fuel (stringifyFields (entry :: fields) ++ '\x7d' :: rest) =
      some (entry :: fields, rest)

theorem endsNumber_cons {c : Char} (hc : c.isDigit = false) (rest : List Char) :
    EndsNumber (c :: rest) := by
  intro d hd
  rw [← Option.some.inj hd]
  exact hc

theorem stringifyItems_head (item : Json) (items : List Json) :
    ∃ c text, stringifyItems (item :: items) = c :: text ∧ isSpace c = false ∧ c ≠ ']' := by
  obtain ⟨c, text, heq, hspace, hne⟩ := stringify_head item
  cases items with
  | nil => exact ⟨c, text, by rw [stringifyItems, heq], hspace, hne⟩
  | cons next items =>
      refine ⟨c, text ++ ',' :: stringifyItems (next :: items), ?_, hspace, hne⟩
      rw [stringifyItems, heq, List.cons_append]
      simp

theorem stringifyFields_head (entry : String × Json) (fields : List (String × Json)) :
    ∃ text, stringifyFields (entry :: fields) = '"' :: text := by
  obtain ⟨name, value⟩ := entry
  cases fields with
  | nil => exact ⟨_, rfl⟩
  | cons next fields => exact ⟨_, rfl⟩

namespace ReadsBack
variable {fuel : ℕ}

theorem readValue_array (h : ReadsBack fuel) (item : Json) (items : List Json) (rest : List Char)
    (hlen : (stringifyItems (item :: items)).length + 1 < fuel) :
    readValue (fuel + 1) ('[' :: (stringifyItems (item :: items) ++ ']' :: rest)) =
      some (.array (item :: items), rest) := by
  have hread := h.items item items rest hlen
  obtain ⟨c, text, heq, hspace, hne⟩ := stringifyItems_head item items
  rw [heq, List.cons_append] at hread ⊢
  rw [readValue, skip_cons (by decide)]
  simp only
  rw [skip_cons hspace]
  split
  case h_1 hclose => exact absurd (List.cons.inj hclose).1 hne
  case h_2 => rw [hread]; rfl

theorem readValue_object (h : ReadsBack fuel) (entry : String × Json)
    (fields : List (String × Json)) (rest : List Char)
    (hlen : (stringifyFields (entry :: fields)).length + 1 < fuel) :
    readValue (fuel + 1) ('\x7b' :: (stringifyFields (entry :: fields) ++ '\x7d' :: rest)) =
      some (.object (entry :: fields), rest) := by
  have hread := h.fields entry fields rest hlen
  obtain ⟨text, heq⟩ := stringifyFields_head entry fields
  rw [heq, List.cons_append] at hread ⊢
  rw [readValue, skip_cons (by decide)]
  simp only
  rw [skip_cons (by decide), hread]
  rfl

theorem readItems_cons (h : ReadsBack fuel) (item : Json) (items : List Json) (rest : List Char)
    (hlen : (stringifyItems (item :: items)).length + 1 < fuel + 1) :
    readItems (fuel + 1) (stringifyItems (item :: items) ++ ']' :: rest) =
      some (item :: items, rest) := by
  cases items with
  | nil =>
      rw [stringifyItems] at hlen ⊢
      have hread := h.value item (']' :: rest) (by omega) (endsNumber_cons (by decide) rest)
      rw [readItems, hread]
      rfl
  | cons next items =>
      rw [stringifyItems.eq_3 _ _ (by simp)] at hlen ⊢
      simp only [List.length_append, List.length_cons] at hlen
      rw [List.append_assoc, List.cons_append]
      have hread := h.value item (',' :: (stringifyItems (next :: items) ++ ']' :: rest))
        (by omega) (endsNumber_cons (by decide) _)
      have hmore := h.items next items rest (by omega)
      rw [readItems, hread, Option.bind_some, skip_cons (by decide)]
      simp only
      rw [hmore]
      rfl

theorem readFields_cons (h : ReadsBack fuel) (entry : String × Json)
    (fields : List (String × Json)) (rest : List Char)
    (hlen : (stringifyFields (entry :: fields)).length + 1 < fuel + 1) :
    readFields (fuel + 1) (stringifyFields (entry :: fields) ++ '\x7d' :: rest) =
      some (entry :: fields, rest) := by
  obtain ⟨name, value⟩ := entry
  cases fields with
  | nil =>
      simp only [stringifyFields, quote, List.length_append, List.length_cons] at hlen
      have hread := h.value value ('\x7d' :: rest) (by omega) (endsNumber_cons (by decide) rest)
      simp only [stringifyFields, quote, List.cons_append, List.append_assoc, List.nil_append]
      rw [readFields, skip_cons (by decide)]
      simp only
      rw [readText_escaped, Option.bind_some, skip_cons (by decide)]
      simp only
      rw [hread, Option.bind_some, skip_cons (by decide), String.ofList_toList]
      rfl
  | cons next fields =>
      rw [stringifyFields.eq_3 _ _ _ (by simp)] at hlen ⊢
      simp only [quote, List.length_append, List.length_cons] at hlen
      have hread := h.value value (',' :: (stringifyFields (next :: fields) ++ '\x7d' :: rest))
        (by omega) (endsNumber_cons (by decide) _)
      have hmore := h.fields next fields rest (by omega)
      simp only [quote, List.cons_append, List.append_assoc, List.nil_append]
      rw [readFields, skip_cons (by decide)]
      simp only
      rw [readText_escaped, Option.bind_some, skip_cons (by decide)]
      simp only
      rw [hread, Option.bind_some, skip_cons (by decide)]
      simp only
      rw [hmore, String.ofList_toList]
      rfl

end ReadsBack

theorem readsBack (fuel : ℕ) : ReadsBack fuel := by
  induction fuel with
  | zero =>
      refine ⟨?_, ?_, ?_⟩
      · intro value rest h
        omega
      · intro item items rest h
        omega
      · intro entry fields rest h
        omega
  | succ fuel ih =>
      refine ⟨?_, ih.readItems_cons, ih.readFields_cons⟩
      intro value rest hlen hrest
      cases value with
      | string text =>
          simp only [stringify, quote, List.cons_append, List.append_assoc]
          rw [readValue, skip_cons (by decide)]
          simp only [List.nil_append, readText_escaped, Option.map_some, String.ofList_toList]
      | number n => exact readValue_number fuel n hrest
      | array items =>
          simp only [stringify, List.length_cons, List.length_append] at hlen
          simp only [stringify, List.cons_append, List.append_assoc]
          cases items with
          | nil => rfl
          | cons item items => exact ih.readValue_array item items rest (by simpa using hlen)
      | object fields =>
          simp only [stringify, List.length_cons, List.length_append] at hlen
          simp only [stringify, List.cons_append, List.append_assoc]
          cases fields with
          | nil => rfl
          | cons entry fields => exact ih.readValue_object entry fields rest (by simpa using hlen)

/-- Parsing what was written gives the value back. -/
theorem parse_stringify (value : Json) : parse (stringify value) = some value := by
  have hread := (readsBack ((stringify value).length + 1)).value value [] (Nat.lt_succ_self _)
    (by simp [EndsNumber])
  rw [List.append_nil] at hread
  simp [parse, hread, skip]

theorem stringify_ne_nil (value : Json) : stringify value ≠ [] := by
  obtain ⟨c, text, heq, -⟩ := stringify_head value
  rw [heq]
  exact List.cons_ne_nil _ _

end Json

end Kronos.Lib
