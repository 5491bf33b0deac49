import Kronos.Lib.NumberText

/-!
# JSON text in code units

What `JSON.stringify` writes for a tree of values, as UTF-16 code units: no space
between the tokens, and an escape for a quote, a backslash, a control character
and a surrogate that stands alone. A text shows where it ends, so two trees with
the same text are one.
-/
namespace Kronos.Lib.JsonText
open Utf8 (Str isHigh isLow)
open NumberText

inductive Tree where
  | null
  | boolean (b : Bool)
  | number (x : Finite)
  | string (s : Str)
  | array (items : List Tree)
  | object (members : List (Str × Tree))

/-! ## Writing -/

def ascii (s : String) : Str := s.toList.map fun c => UInt16.ofNat c.toNat

def hexDigit (n : ℕ) : UInt16 := UInt16.ofNat (if n < 10 then 48 + n else 87 + n)

/-- A backslash (92), a `u` (117) and four hexadecimal digits. -/
def unicodeEscape (u : UInt16) : Str :=
  [92, 117, hexDigit (u.toNat / 4096), hexDigit (u.toNat / 256 % 16), hexDigit (u.toNat / 16 % 16),
    hexDigit (u.toNat % 16)]

/-- The code units with an escape of their own, and the symbol behind the backslash. -/
def escapes : List (UInt16 × UInt16) :=
  [(8, 98), (9, 116), (10, 110), (12, 102), (13, 114), (34, 34), (92, 92)]

def escapeSymbol (u : UInt16) : Option UInt16 := (escapes.find? fun e => e.1 = u).map Prod.snd

def escapeUnit (u : UInt16) : Str :=
  (escapeSymbol u).elim (if u < 32 then unicodeEscape u else [u]) fun symbol => [92, symbol]

def escape : Str → Str
  | [] => []
  | u :: rest =>
      if isHigh u.toNat then
        match rest with
        | [] => unicodeEscape u
        | v :: tail =>
            if isLow v.toNat then u :: v :: escape tail else unicodeEscape u ++ escape (v :: tail)
      else if isLow u.toNat then unicodeEscape u ++ escape rest
      else escapeUnit u ++ escape rest

/-- A string between quotes (34). -/
def quote (s : Str) : Str := 34 :: (escape s ++ [34])

/-- Texts with a comma (44) between them. -/
def commas : List Str → Str
  | [] => []
  | [text] => text
  | text :: texts => text ++ 44 :: commas texts

mutual
/-- Items stand between brackets (91 and 93), members between braces (123 and 125), with a
colon (58) behind the name. -/
def text : Tree → Str
  | .null => ascii "null"
  | .boolean b => if b then ascii "true" else ascii "false"
  | .number x => numberText x
  | .string s => quote s
  | .array items => 91 :: (commas (texts items) ++ [93])
  | .object members => 123 :: (commas (memberTexts members) ++ [125])

def texts : List Tree → List Str
  | [] => []
  | item :: items => text item :: texts items

def memberTexts : List (Str × Tree) → List Str
  | [] => []
  | (name, value) :: members => (quote name ++ 58 :: text value) :: memberTexts members
end

/-- A property of all trees, by the trees inside. -/
@[induction_eliminator]
theorem Tree.induct {P : Tree → Prop} (null : P .null) (boolean : ∀ b, P (.boolean b))
    (number : ∀ x, P (.number x)) (string : ∀ s, P (.string s))
    (array : ∀ items, (∀ item ∈ items, P item) → P (.array items))
    (object : ∀ members, (∀ m ∈ members, P m.2) → P (.object members)) (tree : Tree) : P tree :=
  @Tree.rec P (fun items => ∀ item ∈ items, P item) (fun members => ∀ m ∈ members, P m.2)
    (fun m => P m.2)
    null boolean number string array object (by simp)
    (fun _ _ hitem hitems => List.forall_mem_cons.mpr ⟨hitem, hitems⟩) (by simp)
    (fun _ _ hm hmembers => List.forall_mem_cons.mpr ⟨hm, hmembers⟩) (fun _ _ hvalue => hvalue) tree

theorem texts_eq (items : List Tree) : texts items = items.map text := by
  induction items with
  | nil => rfl
  | cons item items ih => rw [texts, ih, List.map_cons]

def memberText (m : Str × Tree) : Str := quote m.1 ++ 58 :: text m.2

theorem memberTexts_eq (members : List (Str × Tree)) :
    memberTexts members = members.map memberText := by
  induction members with
  | nil => rfl
  | cons m members ih => rw [memberTexts, ih, List.map_cons, memberText]

/-! ## Strings -/

/-- How a code unit may stand between quotes. -/
inductive Piece : UInt16 → Str → Prop
  | plain {u : UInt16} (h : u ≠ 34 ∧ u ≠ 92) : Piece u [u]
  | symbol {u symbol : UInt16} (h : escapeSymbol u = some symbol) : Piece u [92, symbol]
  | unicode (u : UInt16) : Piece u (unicodeEscape u)

inductive Pieces : Str → Str → Prop
  | nil : Pieces [] []
  | cons {u : UInt16} {piece rest written : Str} :
      Piece u piece → Pieces rest written → Pieces (u :: rest) (piece ++ written)

theorem escapeUnit_piece (u : UInt16) : Piece u (escapeUnit u) := by
  rw [escapeUnit]
  cases h : escapeSymbol u with
  | some symbol => exact .symbol h
  | none =>
      rw [Option.elim_none]
      split
      · exact .unicode u
      · refine .plain ⟨?_, ?_⟩ <;> rintro rfl <;> exact absurd h (by decide)

theorem plain_of_surrogate {u : UInt16} (h : isHigh u.toNat = true ∨ isLow u.toNat = true) :
    Piece u [u] := by
  refine .plain ⟨?_, ?_⟩ <;> rintro rfl <;> revert h <;> decide

theorem escape_pieces (s : Str) : Pieces s (escape s) := by
  fun_induction escape s with
  | case1 => exact .nil
  | case2 u _ => exact List.append_nil (unicodeEscape u) ▸ .cons (.unicode u) .nil
  | case3 u hhigh v tail hlow ih =>
      exact .cons (plain_of_surrogate (.inl hhigh)) (.cons (plain_of_surrogate (.inr hlow)) ih)
  | case4 u _ v tail _ ih => exact .cons (.unicode u) ih
  | case5 u rest _ _ ih => exact .cons (.unicode u) ih
  | case6 u rest _ _ ih => exact .cons (escapeUnit_piece u) ih

theorem hexDigit_injective {m n : ℕ} (hm : m < 16) (hn : n < 16) (h : hexDigit m = hexDigit n) :
    m = n := by
  have hvalue := congrArg UInt16.toNat h
  simp only [hexDigit, UInt16.toNat_ofNat'] at hvalue
  split at hvalue <;> split at hvalue <;> omega

theorem unicodeEscape_injective {u v : UInt16} {r t : Str}
    (h : unicodeEscape u ++ r = unicodeEscape v ++ t) : u = v ∧ r = t := by
  have hu := u.toNat_lt
  have hv := v.toNat_lt
  simp only [unicodeEscape, List.cons_append, List.nil_append, List.cons.injEq, true_and] at h
  obtain ⟨h1, h2, h3, h4, hrest⟩ := h
  have e1 := hexDigit_injective (by omega) (by omega) h1
  have e2 := hexDigit_injective (by omega) (by omega) h2
  have e3 := hexDigit_injective (by omega) (by omega) h3
  have e4 := hexDigit_injective (by omega) (by omega) h4
  exact ⟨UInt16.toNat_inj.mp (by omega), hrest⟩

theorem escapeSymbol_mem {u symbol : UInt16} (h : escapeSymbol u = some symbol) :
    (u, symbol) ∈ escapes := by
  obtain ⟨e, hfind, rfl⟩ := Option.map_eq_some_iff.mp h
  have hu : e.1 = u := by simpa using List.find?_some hfind
  rw [← hu]
  exact List.mem_of_find?_eq_some hfind

theorem escapeSymbol_injective {u v symbol : UInt16} (hu : escapeSymbol u = some symbol)
    (hv : escapeSymbol v = some symbol) : u = v := by
  have hall : ∀ e ∈ escapes, ∀ f ∈ escapes, e.2 = f.2 → e.1 = f.1 := by simp [escapes]
  exact hall _ (escapeSymbol_mem hu) _ (escapeSymbol_mem hv) rfl

theorem escapeSymbol_ne {u symbol : UInt16} (h : escapeSymbol u = some symbol) : symbol ≠ 117 := by
  have hall : ∀ e ∈ escapes, e.2 ≠ 117 := by simp [escapes]
  exact hall _ (escapeSymbol_mem h)

theorem Piece.inj {u v : UInt16} {p q r t : Str} (hp : Piece u p) (hq : Piece v q)
    (h : p ++ r = q ++ t) : u = v ∧ r = t := by
  cases hp with
  | plain hu =>
      cases hq with
      | plain => exact List.cons.inj h
      | symbol => exact absurd (List.cons.inj h).1 hu.2
      | unicode => exact absurd (List.cons.inj h).1 hu.2
  | symbol hu =>
      cases hq with
      | plain hv => exact absurd (List.cons.inj h).1.symm hv.2
      | symbol hv =>
          obtain ⟨rfl, hrest⟩ := List.cons.inj (List.cons.inj h).2
          exact ⟨escapeSymbol_injective hu hv, hrest⟩
      | unicode => exact absurd (List.cons.inj (List.cons.inj h).2).1 (escapeSymbol_ne hu)
  | unicode =>
      cases hq with
      | plain hv => exact absurd (List.cons.inj h).1.symm hv.2
      | symbol hv => exact absurd (List.cons.inj (List.cons.inj h).2).1.symm (escapeSymbol_ne hv)
      | unicode => exact unicodeEscape_injective h

theorem Piece.ne_quote {u : UInt16} {p : Str} (hp : Piece u p) (r t : Str) : p ++ r ≠ 34 :: t := by
  intro h
  cases hp with
  | plain hu => exact hu.1 (List.cons.inj h).1
  | symbol => exact absurd (List.cons.inj h).1 (by decide)
  | unicode => exact absurd (List.cons.inj h).1 (by decide)

theorem Pieces.inj {s s' p q r t : Str} (hp : Pieces s p) (hq : Pieces s' q)
    (h : p ++ 34 :: r = q ++ 34 :: t) : s = s' ∧ r = t := by
  induction hp generalizing s' q with
  | nil =>
      cases hq with
      | nil => exact ⟨rfl, (List.cons.inj h).2⟩
      | cons hpiece =>
          rw [List.append_assoc] at h
          exact absurd h.symm (hpiece.ne_quote _ _)
  | cons hpiece _ ih =>
      rw [List.append_assoc] at h
      cases hq with
      | nil => exact absurd h (hpiece.ne_quote _ _)
      | cons hpiece' hrest =>
          rw [List.append_assoc] at h
          obtain ⟨rfl, hwritten⟩ := hpiece.inj hpiece' h
          obtain ⟨rfl, hrt⟩ := ih hrest hwritten
          exact ⟨rfl, hrt⟩

theorem quote_inj {s s' r t : Str} (h : quote s ++ r = quote s' ++ t) : s = s' ∧ r = t := by
  simp only [quote, List.cons_append, List.append_assoc, List.cons.injEq, true_and,
    List.nil_append] at h
  exact (escape_pieces s).inj (escape_pieces s') h

/-! ## Trees -/

/-- Nothing, or a symbol that may follow a value. -/
def Ended (r : Str) : Prop := ∀ u ∈ r.head?, u = 44 ∨ u = 93 ∨ u = 125

/-- What is written for `x` tells `x` and where it ends. -/
def Readable {α : Type} (write : α → Str) (x : α) : Prop :=
  ∀ y r t, Ended r → Ended t → write x ++ r = write y ++ t → x = y ∧ r = t

/-- The kind of value that begins with a symbol. -/
inductive Kind where
  | null
  | boolean
  | number
  | string
  | array
  | object
  deriving DecidableEq

def Kind.of (u : UInt16) : Option Kind :=
  if isNumeric u then some .number
  else if u = 110 then some .null
  else if u = 116 ∨ u = 102 then some .boolean
  else if u = 34 then some .string
  else if u = 91 then some .array
  else if u = 123 then some .object
  else none

def Tree.kind : Tree → Kind
  | .null => .null
  | .boolean _ => .boolean
  | .number _ => .number
  | .string _ => .string
  | .array _ => .array
  | .object _ => .object

theorem text_head (tree : Tree) : ∃ u rest, text tree = u :: rest ∧ Kind.of u = some tree.kind := by
  cases tree with
  | null => exact ⟨_, _, rfl, by decide⟩
  | boolean b => cases b <;> exact ⟨_, _, rfl, by decide⟩
  | number x =>
      obtain ⟨u, rest, hcons⟩ := List.exists_cons_of_ne_nil (numberText_ne_nil x)
      exact ⟨u, rest,
        hcons, by rw [Kind.of, if_pos (numberText_numeric x u (by simp [hcons]))]; rfl⟩
  | string s => exact ⟨_, _, rfl, rfl⟩
  | array items => exact ⟨_, _, rfl, rfl⟩
  | object members => exact ⟨_, _, rfl, rfl⟩

theorem kind_of_text {tree tree' : Tree} {r t : Str} (h : text tree ++ r = text tree' ++ t) :
    tree.kind = tree'.kind := by
  obtain ⟨u, rest, hu, hkind⟩ := text_head tree
  obtain ⟨v, rest', hv, hkind'⟩ := text_head tree'
  rw [hu, hv] at h
  rw [(List.cons.inj h).1, hkind'] at hkind
  exact (Option.some.inj hkind).symm

section Commas

variable {α : Type} {write : α → Str} {close : UInt16}

def following (write : α → Str) (xs : List α) : Str := xs.flatMap fun x => 44 :: write x

theorem commas_cons (x : α) (xs : List α) :
    commas ((x :: xs).map write) = write x ++ following write xs := by
  induction xs generalizing x with
  | nil => simp [commas, following]
  | cons y ys ih =>
      simp only [List.map_cons, commas] at ih ⊢
      rw [ih y, following, following, List.flatMap_cons, List.cons_append]

theorem following_ended (hclose : close = 93 ∨ close = 125) (xs : List α) (r : Str) :
    Ended (following write xs ++ close :: r) := by
  cases xs with
  | nil =>
      simp only [following, List.flatMap_nil, List.nil_append, Ended, List.head?_cons,
        Option.mem_some_iff]
      rintro u rfl
      exact .inr hclose
  | cons x xs =>
      simp only [following, List.flatMap_cons, List.cons_append, Ended, List.head?_cons,
        Option.mem_some_iff]
      rintro u rfl
      exact .inl rfl

theorem following_inj (hclose : close = 93 ∨ close = 125) {xs ys : List α} {r t : Str}
    (hread : ∀ x ∈ xs, Readable write x)
    (h : following write xs ++ close :: r = following write ys ++ close :: t) :
    xs = ys ∧ r = t := by
  have hcomma : close ≠ 44 := by rcases hclose with rfl | rfl <;> decide
  induction xs generalizing ys with
  | nil =>
      cases ys with
      | nil => exact ⟨rfl, (List.cons.inj h).2⟩
      | cons y ys => exact absurd (List.cons.inj h).1 hcomma
  | cons x xs ih =>
      cases ys with
      | nil => exact absurd (List.cons.inj h).1.symm hcomma
      | cons y ys =>
          simp only [following, List.flatMap_cons, List.cons_append, List.append_assoc,
            List.cons.injEq,
            true_and] at h
          obtain ⟨rfl, hrest⟩ := hread x (.head _) y _ _ (following_ended hclose xs r)
            (following_ended hclose ys t) h
          obtain ⟨rfl, hrt⟩ := ih (fun z hz => hread z (.tail _ hz)) hrest
          exact ⟨rfl, hrt⟩

/-- A list between commas, up to its closing bracket. -/
theorem commas_inj (hclose : close = 93 ∨ close = 125) {xs ys : List α} {r t : Str}
    (hread : ∀ x ∈ xs, Readable write x) (hstart : ∀ x r t, write x ++ r ≠ close :: t)
    (h : commas (xs.map write) ++ close :: r = commas (ys.map write) ++ close :: t) :
    xs = ys ∧ r = t := by
  cases xs with
  | nil =>
      cases ys with
      | nil => exact ⟨rfl, (List.cons.inj h).2⟩
      | cons y ys =>
          rw [commas_cons, List.append_assoc] at h
          exact absurd h.symm (hstart _ _ _)
  | cons x xs =>
      rw [commas_cons, List.append_assoc] at h
      cases ys with
      | nil => exact absurd h (hstart _ _ _)
      | cons y ys =>
          rw [commas_cons, List.append_assoc] at h
          obtain ⟨rfl, hrest⟩ := hread x (.head _) y _ _ (following_ended hclose xs r)
            (following_ended hclose ys t) h
          obtain ⟨rfl, hrt⟩ := following_inj hclose (fun z hz => hread z (.tail _ hz)) hrest
          exact ⟨rfl, hrt⟩

end Commas

theorem text_ne_close (tree : Tree) (r t : Str) : text tree ++ r ≠ 93 :: t := by
  intro h
  obtain ⟨u, rest, hu, hkind⟩ := text_head tree
  rw [hu, List.cons_append] at h
  rw [(List.cons.inj h).1] at hkind
  exact absurd hkind (by simp [Kind.of, isNumeric, isDigit])

theorem member_ne_close (m : Str × Tree) (r t : Str) : memberText m ++ r ≠ 125 :: t := by
  intro h
  exact absurd (List.cons.inj h).1 (by decide)

theorem member_readable {m : Str × Tree} (h : Readable text m.2) : Readable memberText m := by
  intro m' r t hr ht heq
  simp only [memberText, List.append_assoc, List.cons_append] at heq
  obtain ⟨hname, hrest⟩ := quote_inj heq
  obtain ⟨hvalue, hrt⟩ := h m'.2 r t hr ht (List.cons.inj hrest).2
  exact ⟨Prod.ext hname hvalue, hrt⟩

theorem number_stops {r : Str} (h : Ended r) : ∀ u ∈ r.head?, isNumeric u = false := by
  intro u hu
  rcases h u hu with rfl | rfl | rfl <;> decide

theorem text_readable (tree : Tree) : Readable text tree := by
  intro tree' r t hr ht h
  have hkind := kind_of_text h
  induction tree generalizing tree' r t with
  | null =>
      cases tree' <;> cases hkind
      exact ⟨rfl, List.append_cancel_left h⟩
  | boolean b =>
      cases tree' <;> cases hkind
      next b' =>
        cases b <;> cases b' <;> simp [text, ascii] at h ⊢ <;> exact h
  | number x =>
      cases tree' <;> cases hkind
      next y =>
        obtain ⟨hxy, hrt⟩ := row_inj (numberText_numeric x) (numberText_numeric y) (number_stops hr)
          (number_stops ht) h
        exact ⟨congrArg _ (numberText_injective hxy), hrt⟩
  | string s =>
      cases tree' <;> cases hkind
      next s' =>
        obtain ⟨rfl, hrt⟩ := quote_inj h
        exact ⟨rfl, hrt⟩
  | array items ih =>
      cases tree' <;> cases hkind
      next items' =>
        simp only [text, texts_eq, List.cons_append, List.append_assoc, List.cons.injEq, true_and,
          List.nil_append] at h
        have hread : ∀ item ∈ items, Readable text item := fun item hitem item' r t hr ht h =>
          ih item hitem item' r t hr ht h (kind_of_text h)
        obtain ⟨rfl, hrt⟩ := commas_inj (.inl rfl) hread text_ne_close h
        exact ⟨rfl, hrt⟩
  | object members ih =>
      cases tree' <;> cases hkind
      next members' =>
        simp only [text, memberTexts_eq, List.cons_append, List.append_assoc,
          List.cons.injEq, true_and,
          List.nil_append] at h
        have hread : ∀ m ∈ members, Readable memberText m := fun m hm =>
          member_readable fun value r t hr ht h => ih m hm value r t hr ht h (kind_of_text h)
        obtain ⟨rfl, hrt⟩ := commas_inj (.inr rfl) hread member_ne_close h
        exact ⟨rfl, hrt⟩

theorem text_injective : Function.Injective text := by
  intro tree tree' h
  have hended : Ended [] := by simp [Ended]
  exact (text_readable tree tree' [] [] hended hended (by rw [h])).1

end Kronos.Lib.JsonText
