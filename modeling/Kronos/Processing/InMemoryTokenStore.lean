import Kronos.Lib.OrderedMap
import Mathlib.Algebra.Order.Ring.Int
import Mathlib.Data.List.Infix

/-!
# The in-memory token store

The tokens and claims of every processor live in one map from text to entry.
An entry's key is the processor's name, a colon and the segment; the segments of
a processor are listed back by the keys that begin with its name and a colon,
what follows the colon being read as a number.

A key is a list of characters. A segment is a natural number and its text the
decimal digits. `parseInt` gives `none` for NaN; how a listing orders NaN
entries is left to the engine's sort, here a stable merge. Every call brings
the clock it reads.
-/
namespace Kronos.Processing.InMemoryTokenStore
open Kronos.Lib

variable {T : Type}

structure TokenEntry (T : Type) where
  token : Option T
  ownerId : Option String
  claimedAt : ℤ
  deriving DecidableEq, Repr

abbrev Entries (T : Type) := List (List Char × TokenEntry T)

def key (processorName : String) (segment : ℕ) : List Char :=
  processorName.toList ++ ':' :: Nat.toDigits 10 segment

/-- `!entry.ownerId`, which also holds of the empty text. -/
def unowned (entry : TokenEntry T) : Bool :=
  entry.ownerId = none ∨ entry.ownerId = some ""

def isClaimExpired (claimTimeoutMs now : ℤ) (entry : TokenEntry T) : Bool :=
  unowned entry || decide (now - entry.claimedAt > claimTimeoutMs)

def isStrWhiteSpace (c : Char) : Bool :=
  c ∈ ['\t', '\n', '\x0b', '\x0c', '\r', ' ', '\u00a0', '\ufeff', '\u1680', '\u2028', '\u2029',
    '\u202f', '\u205f', '\u3000'] ∨ ('\u2000' ≤ c ∧ c ≤ '\u200a')

/-- The digits a text begins with. -/
def leadingNumber (text : List Char) : Option ℤ :=
  let digits := text.takeWhile Char.isDigit
  if digits.isEmpty then none else some (Nat.ofDigitChars 10 digits 0)

/-- `parseInt(text, 10)`. -/
def parseInt (text : List Char) : Option ℤ :=
  match text.dropWhile isStrWhiteSpace with
  | '-' :: rest => (leadingNumber rest).map fun n => -n
  | '+' :: rest => leadingNumber rest
  | rest => leadingNumber rest

/-- `(a, b) => a - b` does not put `b` first; a difference of NaN counts as zero. -/
def notAfter : Option ℤ → Option ℤ → Bool
  | some a, some b => decide (a ≤ b)
  | _, _ => true

def prefixOf (processorName : String) : List Char := processorName.toList ++ [':']

/-- The segments whose keys begin with the processor's name and whose entries `p` accepts. -/
def listSegments (processorName : String) (p : TokenEntry T → Bool) (entries : Entries T) :
    List (Option ℤ) :=
  let found := entries.filter fun entry =>
    (prefixOf processorName).isPrefixOf entry.1 && p entry.2
  (found.map fun entry => parseInt (entry.1.drop (prefixOf processorName).length)).mergeSort
    notAfter

def unableToClaim (processorName : String) (segment : ℕ) (reason : String) : String :=
  "Unable to claim token for processor \"" ++ processorName ++ "\" segment " ++
    toString segment ++ ": " ++ reason

inductive Operation (T : Type) where
  | store (segment : ℕ) (token : T) (owner : Option String)
  | get (segment : ℕ)
  | initializeSegments (segmentCount : ℕ)
  | claimToken (segment : ℕ) (ownerId : String)
  | extendClaim (segment : ℕ) (ownerId : String)
  | releaseClaim (segment : ℕ) (ownerId : String)
  | fetchSegments
  | fetchAvailableSegments
  | deleteToken (segment : ℕ)

structure Call (T : Type) where
  processorName : String
  operation : Operation T
  now : ℤ

inductive Result (T : Type) where
  | done
  | token (token : Option T)
  | segments (segments : List (Option ℤ))
  | unableToClaimTokenError (message : String)
  deriving DecidableEq, Repr

/-- The entries after a call, and what it returned. -/
abbrev Outcome (T : Type) := Entries T × Result T

def store (processorName : String) (segment : ℕ) (token : T) (owner : Option String) (now : ℤ)
    (entries : Entries T) : Outcome T :=
  let k := key processorName segment
  let entry := OrderedMap.get k entries
  if owner ≠ none ∧ entry.bind TokenEntry.ownerId ≠ owner then
    (entries, .unableToClaimTokenError
      (unableToClaim processorName segment "the claim is no longer held"))
  else
    match entry with
    | some entry =>
        (OrderedMap.set k { entry with token := some token, claimedAt := now } entries, .done)
    | none => (OrderedMap.set k ⟨some token, none, now⟩ entries, .done)

/-- One round of the loop of `initializeSegments`. -/
def initializeSegment (processorName : String) (entries : Entries T) (segment : ℕ) : Entries T :=
  let k := key processorName segment
  match OrderedMap.get k entries with
  | some _ => entries
  | none => OrderedMap.set k ⟨none, none, 0⟩ entries

def initializeSegments (processorName : String) (segmentCount : ℕ) (entries : Entries T) :
    Outcome T :=
  ((List.range segmentCount).foldl (initializeSegment processorName) entries, .done)

def claimToken (claimTimeoutMs : ℤ) (processorName : String) (segment : ℕ) (ownerId : String)
    (now : ℤ) (entries : Entries T) : Outcome T :=
  let k := key processorName segment
  match OrderedMap.get k entries with
  | none => (OrderedMap.set k ⟨none, some ownerId, now⟩ entries, .token none)
  | some entry =>
      if entry.ownerId = some ownerId then
        (OrderedMap.set k { entry with claimedAt := now } entries, .token entry.token)
      else if isClaimExpired claimTimeoutMs now entry then
        (OrderedMap.set k { entry with ownerId := some ownerId, claimedAt := now } entries,
          .token entry.token)
      else
        (entries, .unableToClaimTokenError (unableToClaim processorName segment "already claimed"))

/-- What `extendClaim` and `releaseClaim` share: the entry changes if the caller owns it. -/
def ifOwner (processorName : String) (segment : ℕ) (ownerId : String)
    (update : TokenEntry T → TokenEntry T) (entries : Entries T) : Outcome T :=
  let k := key processorName segment
  match OrderedMap.get k entries with
  | none => (entries, .done)
  | some entry =>
      if entry.ownerId = some ownerId then (OrderedMap.set k (update entry) entries, .done)
      else (entries, .done)

def extendClaim (processorName : String) (segment : ℕ) (ownerId : String) (now : ℤ)
    (entries : Entries T) : Outcome T :=
  ifOwner processorName segment ownerId (fun entry => { entry with claimedAt := now }) entries

def releaseClaim (processorName : String) (segment : ℕ) (ownerId : String)
    (entries : Entries T) : Outcome T :=
  ifOwner processorName segment ownerId
    (fun entry => { entry with ownerId := none, claimedAt := 0 }) entries

def fetchSegments (processorName : String) (entries : Entries T) : Outcome T :=
  (entries, .segments (listSegments processorName (fun _ => true) entries))

def fetchAvailableSegments (claimTimeoutMs : ℤ) (processorName : String) (now : ℤ)
    (entries : Entries T) : Outcome T :=
  (entries, .segments (listSegments processorName
    (fun entry => unowned entry || isClaimExpired claimTimeoutMs now entry) entries))

def perform (claimTimeoutMs : ℤ) (call : Call T) (entries : Entries T) : Outcome T :=
  let name := call.processorName
  match call.operation with
  | .store segment token owner => store name segment token owner call.now entries
  | .get segment =>
      (entries, .token ((OrderedMap.get (key name segment) entries).bind TokenEntry.token))
  | .initializeSegments segmentCount => initializeSegments name segmentCount entries
  | .claimToken segment ownerId => claimToken claimTimeoutMs name segment ownerId call.now entries
  | .extendClaim segment ownerId => extendClaim name segment ownerId call.now entries
  | .releaseClaim segment ownerId => releaseClaim name segment ownerId entries
  | .fetchSegments => fetchSegments name entries
  | .fetchAvailableSegments => fetchAvailableSegments claimTimeoutMs name call.now entries
  | .deleteToken segment => (OrderedMap.delete (key name segment) entries, .done)

/-- What the calls of one processor return in a run of calls of any processors. -/
def answers (claimTimeoutMs : ℤ) (processorName : String) :
    List (Call T) → Entries T → List (Result T)
  | [], _ => []
  | call :: calls, entries =>
      let outcome := perform claimTimeoutMs call entries
      if call.processorName = processorName then
        outcome.2 :: answers claimTimeoutMs processorName calls outcome.1
      else answers claimTimeoutMs processorName calls outcome.1

/-- Whatever the run, every call of `second` returns what it returns in the run
without the calls of `first`. -/
def Isolated (T : Type) (claimTimeoutMs : ℤ) (first second : String) : Prop :=
  ∀ calls : List (Call T), answers claimTimeoutMs second calls [] =
    answers claimTimeoutMs second (calls.filter fun call => call.processorName ≠ first) []

/-! ## Keys and the names they begin with -/

theorem colon_not_mem_digits (segment : ℕ) : ':' ∉ Nat.toDigits 10 segment := by
  intro hmem
  have hdigit : Char.isDigit ':' = true :=
    Nat.isDigit_of_mem_toDigits (by omega) (by omega) hmem
  exact absurd hdigit (by decide)

/-- The name a key stands for: a colon follows it, and no other colon comes after. -/
def namedBy (processorName : String) (k : List Char) : Bool :=
  (prefixOf processorName).isPrefixOf k &&
    !(k.drop (prefixOf processorName).length).contains ':'

theorem namedBy_iff {name : String} {k : List Char} :
    namedBy name k = true ↔ ∃ digits, ':' ∉ digits ∧ k = name.toList ++ ':' :: digits := by
  constructor
  · intro hnamed
    simp only [namedBy, Bool.and_eq_true, List.isPrefixOf_iff_prefix] at hnamed
    obtain ⟨⟨digits, rfl⟩, hrest⟩ := hnamed
    rw [List.drop_left] at hrest
    refine ⟨digits, by simpa using hrest, ?_⟩
    simp [prefixOf]
  · rintro ⟨digits, hcolon, rfl⟩
    have hsplit : name.toList ++ ':' :: digits = prefixOf name ++ digits := by simp [prefixOf]
    rw [hsplit, namedBy, List.drop_left, Bool.and_eq_true, List.isPrefixOf_iff_prefix]
    exact ⟨List.prefix_append _ _, by simpa using hcolon⟩

theorem namedBy_key (name : String) (segment : ℕ) : namedBy name (key name segment) = true :=
  namedBy_iff.mpr ⟨_, colon_not_mem_digits segment, rfl⟩

/-- Where two names are followed by a colon in one text and no colon comes after
the second, the first is the second or ends inside it. -/
theorem prefix_or_eq {first second : List Char} {rest digits : List Char} (hcolon : ':' ∉ digits)
    (heq : first ++ ':' :: rest = second ++ ':' :: digits) :
    first = second ∨ first ++ [':'] <+: second := by
  rcases List.append_eq_append_iff.mp heq with ⟨mid, hsecond, htail⟩ | ⟨mid, hfirst, htail⟩
  · cases mid with
    | nil => exact .inl (by simpa using hsecond.symm)
    | cons c mid =>
        obtain ⟨rfl, -⟩ := List.cons.inj htail
        exact .inr ⟨mid, by simp [hsecond]⟩
  · cases mid with
    | nil => exact .inl (by simpa using hfirst)
    | cons c mid =>
        obtain ⟨-, hdigits⟩ := List.cons.inj htail
        have hmem : ':' ∈ digits := by simp [hdigits]
        exact absurd hmem hcolon

theorem namedBy_key_of_ne {first name : String} (hne : first ≠ name) (segment : ℕ) :
    namedBy first (key name segment) = false := by
  apply Bool.eq_false_iff.mpr
  intro hnamed
  obtain ⟨digits, hcolon, heq⟩ := namedBy_iff.mp hnamed
  have hlist : first.toList ≠ name.toList := fun h => hne (String.toList_inj.mp h)
  rcases prefix_or_eq hcolon heq with h | ⟨t, h⟩
  · exact hlist h.symm
  · rcases prefix_or_eq (colon_not_mem_digits segment) heq.symm with h' | ⟨t', h'⟩
    · exact hlist h'
    · have hlen := congrArg List.length h
      have hlen' := congrArg List.length h'
      simp only [List.length_append, List.length_cons] at hlen hlen'
      omega

/-- A listing under `second` comes across a key of `first` only if `first` begins
with `second` and a colon. -/
theorem prefix_of_listed {first second : String} (hne : first ≠ second) {k : List Char}
    (hnamed : namedBy first k = true) (hlisted : (prefixOf second).isPrefixOf k = true) :
    prefixOf second <+: first.toList := by
  obtain ⟨digits, hcolon, heq⟩ := namedBy_iff.mp hnamed
  obtain ⟨rest, hrest⟩ := List.isPrefixOf_iff_prefix.mp hlisted
  have hboth : second.toList ++ ':' :: rest = first.toList ++ ':' :: digits := by
    rw [← heq, ← hrest]
    simp [prefixOf]
  rcases prefix_or_eq hcolon hboth with h | h
  · exact absurd (String.toList_inj.mp h).symm hne
  · exact h

/-! ## The store without the entries of one processor -/

def notNamedBy (first : String) (k : List Char) : Bool := !namedBy first k

/-- The entries that are not the processor's. -/
def without (first : String) (entries : Entries T) : Entries T :=
  OrderedMap.restrict (notNamedBy first) entries

section Without
variable {first name : String}

theorem kept_key (hne : first ≠ name) (segment : ℕ) :
    notNamedBy first (key name segment) = true := by
  rw [notNamedBy, namedBy_key_of_ne hne]
  rfl

theorem dropped_key (segment : ℕ) : notNamedBy first (key first segment) = false := by
  rw [notNamedBy, namedBy_key]
  rfl

theorem get_without (hne : first ≠ name) (segment : ℕ) (entries : Entries T) :
    OrderedMap.get (key name segment) (without first entries) =
      OrderedMap.get (key name segment) entries :=
  OrderedMap.get_restrict (kept_key hne segment) entries

theorem without_set (hne : first ≠ name) (segment : ℕ) (entry : TokenEntry T)
    (entries : Entries T) :
    without first (OrderedMap.set (key name segment) entry entries) =
      OrderedMap.set (key name segment) entry (without first entries) :=
  OrderedMap.restrict_set_of_kept (kept_key hne segment) entry entries

theorem without_set_own (segment : ℕ) (entry : TokenEntry T) (entries : Entries T) :
    without first (OrderedMap.set (key first segment) entry entries) = without first entries :=
  OrderedMap.restrict_set_of_dropped (dropped_key segment) entry entries

theorem listSegments_without {second : String} (hne : first ≠ second)
    (hfree : ¬ prefixOf second <+: first.toList) (p : TokenEntry T → Bool) (entries : Entries T) :
    listSegments second p (without first entries) = listSegments second p entries := by
  have hfound : (without first entries).filter
        (fun entry => (prefixOf second).isPrefixOf entry.1 && p entry.2) =
      entries.filter fun entry => (prefixOf second).isPrefixOf entry.1 && p entry.2 := by
    rw [without, OrderedMap.restrict, List.filter_filter]
    apply List.filter_congr
    intro entry _
    cases hlisted : (prefixOf second).isPrefixOf entry.1 with
    | false => rfl
    | true =>
        have hnamed : namedBy first entry.1 = false := by
          apply Bool.eq_false_iff.mpr
          intro hnamed
          exact hfree (prefix_of_listed hne hnamed hlisted)
        simp [notNamedBy, hnamed]
  simp only [listSegments, hfound]

theorem store_without (hne : first ≠ name) (segment : ℕ) (token : T) (owner : Option String)
    (now : ℤ) (entries : Entries T) :
    store name segment token owner now (without first entries) =
      Prod.map (without first) id (store name segment token owner now entries) := by
  simp only [store, get_without hne]
  split
  · rfl
  · cases OrderedMap.get (key name segment) entries with
    | none => simp [without_set hne]
    | some entry => simp [without_set hne]

theorem claimToken_without (claimTimeoutMs : ℤ) (hne : first ≠ name) (segment : ℕ)
    (ownerId : String) (now : ℤ) (entries : Entries T) :
    claimToken claimTimeoutMs name segment ownerId now (without first entries) =
      Prod.map (without first) id (claimToken claimTimeoutMs name segment ownerId now entries) := by
  simp only [claimToken, get_without hne]
  cases OrderedMap.get (key name segment) entries with
  | none => simp [without_set hne]
  | some entry =>
      by_cases howner : entry.ownerId = some ownerId
      · simp [howner, without_set hne]
      · by_cases hexpired : isClaimExpired claimTimeoutMs now entry = true
        · simp [howner, hexpired, without_set hne]
        · simp [howner, hexpired]

theorem ifOwner_without (hne : first ≠ name) (segment : ℕ) (ownerId : String)
    (update : TokenEntry T → TokenEntry T) (entries : Entries T) :
    ifOwner name segment ownerId update (without first entries) =
      Prod.map (without first) id (ifOwner name segment ownerId update entries) := by
  simp only [ifOwner, get_without hne]
  cases OrderedMap.get (key name segment) entries with
  | none => rfl
  | some entry =>
      by_cases howner : entry.ownerId = some ownerId
      · simp [howner, without_set hne]
      · simp [howner]

theorem initializeSegment_without (hne : first ≠ name) (entries : Entries T) (segment : ℕ) :
    initializeSegment name (without first entries) segment =
      without first (initializeSegment name entries segment) := by
  simp only [initializeSegment, get_without hne]
  cases OrderedMap.get (key name segment) entries with
  | none => simp [without_set hne]
  | some entry => rfl

theorem initializeSegments_without (hne : first ≠ name) (segments : List ℕ) (entries : Entries T) :
    segments.foldl (initializeSegment name) (without first entries) =
      without first (segments.foldl (initializeSegment name) entries) := by
  induction segments generalizing entries with
  | nil => rfl
  | cons segment segments ih =>
      rw [List.foldl_cons, List.foldl_cons, initializeSegment_without hne, ih]

theorem without_initializeSegments (segments : List ℕ) (entries : Entries T) :
    without first (segments.foldl (initializeSegment first) entries) = without first entries := by
  induction segments generalizing entries with
  | nil => rfl
  | cons segment segments ih =>
      rw [List.foldl_cons, ih, initializeSegment]
      cases OrderedMap.get (key first segment) entries with
      | none => exact without_set_own segment _ entries
      | some entry => rfl

theorem without_ifOwner (segment : ℕ) (ownerId : String) (update : TokenEntry T → TokenEntry T)
    (entries : Entries T) :
    without first (ifOwner first segment ownerId update entries).1 = without first entries := by
  simp only [ifOwner]
  cases OrderedMap.get (key first segment) entries with
  | none => rfl
  | some entry =>
      by_cases howner : entry.ownerId = some ownerId
      · simp [howner, without_set_own]
      · simp [howner]

/-- A call of `first` touches only the entries of `first`. -/
theorem without_perform_own (claimTimeoutMs : ℤ) (call : Call T) (entries : Entries T) :
    without call.processorName (perform claimTimeoutMs call entries).1 =
      without call.processorName entries := by
  obtain ⟨first, operation, now⟩ := call
  cases operation with
  | store segment token owner =>
      simp only [perform, store]
      split
      · rfl
      · cases OrderedMap.get (key first segment) entries with
        | none => exact without_set_own segment _ entries
        | some entry => exact without_set_own segment _ entries
  | get segment => rfl
  | initializeSegments segmentCount => exact without_initializeSegments _ entries
  | claimToken segment ownerId =>
      simp only [perform, claimToken]
      cases OrderedMap.get (key first segment) entries with
      | none => exact without_set_own segment _ entries
      | some entry =>
          by_cases howner : entry.ownerId = some ownerId
          · simp [howner, without_set_own]
          · by_cases hexpired : isClaimExpired claimTimeoutMs now entry = true
            · simp [howner, hexpired, without_set_own]
            · simp [howner, hexpired]
  | extendClaim segment ownerId => exact without_ifOwner segment ownerId _ entries
  | releaseClaim segment ownerId => exact without_ifOwner segment ownerId _ entries
  | fetchSegments => rfl
  | fetchAvailableSegments => rfl
  | deleteToken segment => exact OrderedMap.restrict_delete_of_dropped (dropped_key segment) entries

/-- A call of another processor leaves the same entries whether or not those of
`first` are there. -/
theorem perform_without (claimTimeoutMs : ℤ) {call : Call T} (hne : first ≠ call.processorName)
    (entries : Entries T) :
    (perform claimTimeoutMs call (without first entries)).1 =
      without first (perform claimTimeoutMs call entries).1 := by
  obtain ⟨name, operation, now⟩ := call
  cases operation with
  | store segment token owner =>
      exact congrArg Prod.fst (store_without hne segment token owner now entries)
  | get segment => rfl
  | initializeSegments segmentCount => exact initializeSegments_without hne _ entries
  | claimToken segment ownerId =>
      exact congrArg Prod.fst (claimToken_without claimTimeoutMs hne segment ownerId now entries)
  | extendClaim segment ownerId =>
      exact congrArg Prod.fst (ifOwner_without hne segment ownerId _ entries)
  | releaseClaim segment ownerId =>
      exact congrArg Prod.fst (ifOwner_without hne segment ownerId _ entries)
  | fetchSegments => rfl
  | fetchAvailableSegments => rfl
  | deleteToken segment => exact (OrderedMap.restrict_delete _ entries).symm

/-- And it returns the same, unless `first` begins with its name and a colon. -/
theorem answer_without (claimTimeoutMs : ℤ) {call : Call T} (hne : first ≠ call.processorName)
    (hfree : ¬ prefixOf call.processorName <+: first.toList) (entries : Entries T) :
    (perform claimTimeoutMs call (without first entries)).2 =
      (perform claimTimeoutMs call entries).2 := by
  obtain ⟨name, operation, now⟩ := call
  cases operation with
  | store segment token owner =>
      exact (congrArg Prod.snd (store_without hne segment token owner now entries)).trans rfl
  | get segment =>
      simp only [perform]
      rw [get_without hne]
  | initializeSegments segmentCount => rfl
  | claimToken segment ownerId =>
      have hsame := claimToken_without claimTimeoutMs hne segment ownerId now entries
      exact (congrArg Prod.snd hsame).trans rfl
  | extendClaim segment ownerId =>
      exact (congrArg Prod.snd (ifOwner_without hne segment ownerId _ entries)).trans rfl
  | releaseClaim segment ownerId =>
      exact (congrArg Prod.snd (ifOwner_without hne segment ownerId _ entries)).trans rfl
  | fetchSegments => exact congrArg Result.segments (listSegments_without hne hfree _ entries)
  | fetchAvailableSegments =>
      exact congrArg Result.segments (listSegments_without hne hfree _ entries)
  | deleteToken segment => rfl

/-- Along a run, the calls of `first` can be left out together with its entries. -/
theorem answers_without (claimTimeoutMs : ℤ) {second : String} (hne : first ≠ second)
    (hfree : ¬ prefixOf second <+: first.toList) (calls : List (Call T)) (entries : Entries T) :
    answers claimTimeoutMs second calls entries =
      answers claimTimeoutMs second (calls.filter fun call => call.processorName ≠ first)
        (without first entries) := by
  induction calls generalizing entries with
  | nil => rfl
  | cons call calls ih =>
      by_cases hfirst : call.processorName = first
      · have hown : without first (perform claimTimeoutMs call entries).1 =
            without first entries := by
          rw [← hfirst]
          exact without_perform_own claimTimeoutMs call entries
        have hsecond : call.processorName ≠ second := fun h => hne (hfirst.symm.trans h)
        rw [answers, if_neg hsecond, ih, hown, List.filter_cons_of_neg (by simpa using hfirst)]
      · rw [List.filter_cons_of_pos (by simpa using hfirst)]
        have hstate := perform_without claimTimeoutMs (Ne.symm hfirst) entries
        by_cases hsecond : call.processorName = second
        · have hanswer := answer_without claimTimeoutMs (Ne.symm hfirst) (by rwa [hsecond]) entries
          rw [answers, answers, if_pos hsecond, if_pos hsecond, hanswer, hstate, ih]
        · rw [answers, answers, if_neg hsecond, if_neg hsecond, hstate, ih]

end Without

/-- Initializing a processor whose name begins with `second` and a colon gives
`second` a segment. -/
theorem not_isolated (claimTimeoutMs : ℤ) {first second : String}
    (hlisted : prefixOf second <+: first.toList) : ¬ Isolated T claimTimeoutMs first second := by
  intro hisolated
  have hne : first ≠ second := by
    rintro rfl
    have hlen := hlisted.length_le
    rw [prefixOf, List.length_append, List.length_singleton] at hlen
    omega
  have hkey : (prefixOf second).isPrefixOf (key first 0) = true :=
    List.isPrefixOf_iff_prefix.mpr (hlisted.trans (List.prefix_append _ _))
  have hrun := hisolated [⟨first, .initializeSegments 1, 0⟩, ⟨second, .fetchSegments, 0⟩]
  simp [answers, perform, initializeSegments, initializeSegment, fetchSegments, listSegments,
    OrderedMap.get, OrderedMap.set, List.range_succ, hne, hne.symm, hkey] at hrun

/-- Two processors do not see each other exactly when the first one's name does
not continue the second one's with a colon. -/
theorem isolated_iff_not_prefix (claimTimeoutMs : ℤ) {first second : String}
    (hne : first ≠ second) :
    Isolated T claimTimeoutMs first second ↔ ¬ prefixOf second <+: first.toList := by
  constructor
  · intro hisolated hlisted
    exact not_isolated claimTimeoutMs hlisted hisolated
  · intro hfree calls
    exact answers_without claimTimeoutMs hne hfree calls []

theorem orders_isolated_iff :
    Isolated ℕ 10000 "orders" "billing" ↔ ¬ prefixOf "billing" <+: "orders".toList :=
  isolated_iff_not_prefix 10000 (by decide)

theorem archive_seen_by_orders :
    "orders:archive" ≠ "orders" ∧ ¬ Isolated ℕ 10000 "orders:archive" "orders" :=
  ⟨by decide, not_isolated 10000 (by decide)⟩

end Kronos.Processing.InMemoryTokenStore
