import Kronos.Lib.JsonText
import Kronos.Lib.OrderedMap
import Kronos.Lib.Trace

/-!
# The boot check of a wrapper chain

A handler is a function that wraps a function that wraps a function. A wrapper
marks what it returns with a description: what it supplies to the context, what
it uses from it, what it stamps onto the message and what it reads off it, and
the function it wrapped. `chainOf` walks the descriptions from the outside in,
`chainProblems` lists what cannot work, and `chainError` is the boot error.

The walk ends at the first function without a description, and after 256 links.

What the check is for is said by `calls`: what the wrappers do on the way in, in
its order. A call is clean when nothing is used before it was supplied, nothing
is supplied a second time, and nothing is stamped that was read before.
-/
namespace Kronos.Composition.WrapperChain
open Lib.Utf8 (Str)
open Lib.JsonText (ascii)
open Lib.OrderedMap
open Lib.Trace (Each each_cons each_append)

variable {F : Type}

/-- What a wrapper says about itself; `next` is the function it wrapped. -/
structure Description (F : Type) where
  name : Str
  supplies : List Str := []
  uses : List Str := []
  stamps : List Str := []
  reads : List Str := []
  hints : List (Str × Str) := []
  next : F

/-! ## The walk -/

section Walk

variable (descriptionOf : F → Option (Description F))

/-- `guard` links are walked at most. -/
def walk : ℕ → F → List (Description F)
  | 0, _ => []
  | guard + 1, current =>
      match descriptionOf current with
      | none => []
      | some description => description :: walk guard description.next

def chainOf (fn : F) : List (Description F) := walk descriptionOf 256 fn

end Walk

/-! ## The three rules -/

/-- A sentence of a boot error, with what it names. -/
inductive Problem where
  | unsupplied (link used : Str) (hint : Option Str)
  | suppliedTwice (capability earlier link : Str)
  | stampedInside (inner read link : Str)
  deriving DecidableEq

def quoted (s : Str) : Str := ascii "\"" ++ s ++ ascii "\""

def Problem.text : Problem → Str
  | .unsupplied link used hint =>
      link ++ ascii " uses " ++ quoted used ++
        ascii ", but nothing outside it supplies it.\n  → " ++
        hint.getD
          (ascii "Put the wrapper that supplies " ++ quoted used ++ ascii " outside " ++ link ++
          ascii ", so it runs first.")
  | .suppliedTwice capability earlier link =>
      quoted capability ++ ascii " is supplied twice (" ++ earlier ++ ascii ", then " ++ link ++
        ascii "); the inner " ++ link ++ ascii " shadows the outer one.\n  → Remove one of them."
  | .stampedInside inner read link =>
      inner ++ ascii " stamps " ++ read ++ ascii ", but " ++ link ++
        ascii " reads it outside " ++ inner ++
        ascii ", so " ++ link ++ ascii " sees the message before the stamp.\n  → Move " ++ inner ++
        ascii " outside " ++ link ++ ascii "."

section Rules

/-- The wrapper that supplied each capability so far, by its name. -/
abbrev Supplied := List (Str × Str)

variable (link : Description F) (suppliedBy : Supplied)

def useProblems : List Problem :=
  (link.uses.filter fun used => (get used suppliedBy).isNone).map fun used =>
    .unsupplied link.name used (get used link.hints)

def supply : Supplied → List Str → Supplied × List Problem
  | suppliedBy, [] => (suppliedBy, [])
  | suppliedBy, supplied :: rest =>
      match get supplied suppliedBy with
      | some earlier =>
          let (after, problems) := supply suppliedBy rest
          (after, .suppliedTwice supplied earlier link.name :: problems)
      | none => supply (set supplied link.name suppliedBy) rest

def readProblems (inside : List (Description F)) : List Problem :=
  link.reads.flatMap fun read =>
    (inside.filter fun inner => read ∈ inner.stamps).map fun inner =>
      .stampedInside inner.name read link.name

end Rules

def problemsFrom : Supplied → List (Description F) → List Problem
  | _, [] => []
  | suppliedBy, link :: inside =>
      let (after, twice) := supply link suppliedBy link.supplies
      useProblems link suppliedBy ++ twice ++ readProblems link inside ++ problemsFrom after inside

def chainProblems (chain : List (Description F)) : List Problem := problemsFrom [] chain

def joined (separator : Str) : List Str → Str
  | [] => []
  | [text] => text
  | text :: next :: rest => text ++ separator ++ joined separator (next :: rest)

/-- The message of the boot error, if there is one. -/
def chainError (descriptionOf : F → Option (Description F)) (label : Str) (fn : F) : Option Str :=
  let chain := chainOf descriptionOf fn
  let problems := chainProblems chain
  if problems = [] then none
  else
    some (ascii "kronos: entry " ++ quoted label ++
      ascii " is not configured properly.\n  chain: " ++
      joined (ascii " → ") (chain.map (·.name)) ++ ascii "\n" ++
      joined (ascii "\n") (problems.map fun problem => ascii "  " ++ problem.text))

/-! ## What a call does on its way in -/

inductive Event where
  | use (capability : Str)
  | supply (capability : Str)
  | stamp (field : Str)
  | read (field : Str)
  deriving DecidableEq

def events (link : Description F) : List Event :=
  link.uses.map .use ++ link.supplies.map .supply ++ link.stamps.map .stamp ++ link.reads.map .read

/-- From the outside in. -/
def calls (chain : List (Description F)) : List Event := chain.flatMap events

def Right (before : List Event) : Event → Prop
  | .use capability => .supply capability ∈ before
  | .supply capability => .supply capability ∉ before
  | .stamp field => .read field ∉ before
  | .read _ => True

/-- All the described links, up to the first function without a description. -/
inductive Chain (descriptionOf : F → Option (Description F)) : F → List (Description F) → Prop where
  | inmost {fn : F} : descriptionOf fn = none → Chain descriptionOf fn []
  | wrapped {fn : F} {description : Description F} {inside : List (Description F)} :
      descriptionOf fn = some description → Chain descriptionOf description.next inside →
      Chain descriptionOf fn (description :: inside)

theorem Chain.walk {descriptionOf : F → Option (Description F)} {fn : F}
    {chain : List (Description F)} (h : Chain descriptionOf fn chain) (guard : ℕ) :
    walk descriptionOf guard fn = chain.take guard := by
  induction h generalizing guard with
  | inmost hnone =>
      cases guard with
      | zero => rfl
      | succ guard => simp [WrapperChain.walk, hnone]
  | wrapped hsome _ ih =>
      cases guard with
      | zero => rfl
      | succ guard => simp [WrapperChain.walk, hsome, ih guard]

/-! ## What the rules find -/

theorem useProblems_eq_nil {link : Description F} {suppliedBy : Supplied} :
    useProblems link suppliedBy = [] ↔ ∀ used ∈ link.uses, get used suppliedBy ≠ none := by
  rw [useProblems, List.map_eq_nil_iff, List.filter_eq_nil_iff]
  simp only [Option.isNone_iff_eq_none, ne_eq]

theorem supply_eq_nil {link : Description F} {suppliedBy : Supplied} {supplies : List Str} :
    (supply link suppliedBy supplies).2 = [] ↔
      supplies.Nodup ∧ ∀ supplied ∈ supplies, get supplied suppliedBy = none := by
  induction supplies generalizing suppliedBy with
  | nil => simp [supply]
  | cons supplied rest ih =>
      rw [supply]
      cases hget : get supplied suppliedBy with
      | some earlier => simp [hget]
      | none =>
          rw [ih, List.nodup_cons]
          constructor
          · rintro ⟨hnodup, hnew⟩
            have hnot : supplied ∉ rest := by
              intro hmem
              have h := hnew supplied hmem
              rw [get_set_self] at h
              cases h
            refine ⟨⟨hnot, hnodup⟩, fun capability hmem => ?_⟩
            rcases List.mem_cons.mp hmem with rfl | hrest
            · exact hget
            · rw [← get_set_of_ne (ne_of_mem_of_not_mem hrest hnot) link.name]
              exact hnew capability hrest
          · rintro ⟨⟨hnot, hnodup⟩, hnew⟩
            refine ⟨hnodup, fun capability hmem => ?_⟩
            rw [get_set_of_ne (ne_of_mem_of_not_mem hmem hnot)]
            exact hnew capability (List.mem_cons_of_mem _ hmem)

theorem get_supply {link : Description F} {suppliedBy : Supplied} {supplies : List Str}
    {capability : Str} :
    get capability (supply link suppliedBy supplies).1 = none ↔
      get capability suppliedBy = none ∧ capability ∉ supplies := by
  induction supplies generalizing suppliedBy with
  | nil => simp [supply]
  | cons supplied rest ih =>
      rw [supply]
      cases hget : get supplied suppliedBy with
      | some earlier =>
          show get capability (supply link suppliedBy rest).1 = none ↔ _
          rw [ih]
          refine and_congr_right fun hnone => ?_
          have hne : capability ≠ supplied := by
            rintro rfl
            rw [hget] at hnone
            cases hnone
          simp [hne]
      | none =>
          rw [ih]
          rcases eq_or_ne capability supplied with rfl | hne
          · simp [get_set_self]
          · simp [get_set_of_ne hne, hne]

theorem readProblems_eq_nil {link : Description F} {inside : List (Description F)} :
    readProblems link inside = [] ↔ ∀ read ∈ link.reads, ∀ inner ∈ inside, read ∉ inner.stamps := by
  rw [readProblems, List.flatMap_eq_nil_iff]
  refine forall₂_congr fun read _ => ?_
  rw [List.map_eq_nil_iff, List.filter_eq_nil_iff]
  simp only [decide_eq_true_eq]

/-! ## What a call finds -/

section From

variable {before : List Event}

/-- Clean so far as it goes, after what was done before. -/
abbrev CleanFrom (before trace : List Event) : Prop :=
  Each (fun past => Right (before ++ past)) trace

theorem cleanFrom_cons {event : Event} {trace : List Event} :
    CleanFrom before (event :: trace) ↔ Right before event ∧
      CleanFrom (before ++ [event]) trace := by
  rw [CleanFrom, each_cons, List.append_nil]
  simp only [CleanFrom, List.append_assoc, List.singleton_append]

theorem cleanFrom_append {first rest : List Event} :
    CleanFrom before (first ++ rest) ↔ CleanFrom before first ∧
      CleanFrom (before ++ first) rest := by
  rw [CleanFrom, each_append]
  simp only [CleanFrom, List.append_assoc]

theorem clean_uses {uses : List Str} :
    CleanFrom before (uses.map .use) ↔ ∀ used ∈ uses, .supply used ∈ before := by
  induction uses generalizing before with
  | nil => simp [CleanFrom, Each]
  | cons used uses ih => rw [List.map_cons, cleanFrom_cons, ih]; simp [Right]

theorem clean_supplies {supplies : List Str} :
    CleanFrom before (supplies.map .supply) ↔
      supplies.Nodup ∧ ∀ supplied ∈ supplies, .supply supplied ∉ before := by
  induction supplies generalizing before with
  | nil => simp [CleanFrom, Each]
  | cons supplied supplies ih =>
      rw [List.map_cons, cleanFrom_cons, ih, List.nodup_cons]
      simp only [Right, List.mem_append, List.mem_singleton, Event.supply.injEq, not_or,
        List.forall_mem_cons]
      constructor
      · rintro ⟨hfirst, hnodup, hrest⟩
        exact ⟨⟨fun hmem => (hrest supplied hmem).2 rfl, hnodup⟩, hfirst,
          fun s hs => (hrest s hs).1⟩
      · rintro ⟨⟨hnot, hnodup⟩, hfirst, hrest⟩
        exact ⟨hfirst, hnodup, fun s hs => ⟨hrest s hs, ne_of_mem_of_not_mem hs hnot⟩⟩

theorem clean_stamps {stamps : List Str} :
    CleanFrom before (stamps.map .stamp) ↔ ∀ field ∈ stamps, .read field ∉ before := by
  induction stamps generalizing before with
  | nil => simp [CleanFrom, Each]
  | cons field stamps ih => rw [List.map_cons, cleanFrom_cons, ih]; simp [Right]

theorem clean_reads {reads : List Str} : CleanFrom before (reads.map .read) := by
  induction reads generalizing before with
  | nil => simp [CleanFrom, Each]
  | cons field reads ih => rw [List.map_cons, cleanFrom_cons]; exact ⟨trivial, ih⟩

theorem clean_events {link : Description F} :
    CleanFrom before (events link) ↔
      (∀ used ∈ link.uses, .supply used ∈ before) ∧
      (link.supplies.Nodup ∧ ∀ supplied ∈ link.supplies, .supply supplied ∉ before) ∧
      ∀ field ∈ link.stamps, .read field ∉ before := by
  rw [events, cleanFrom_append, cleanFrom_append, cleanFrom_append, clean_uses, clean_supplies,
    clean_stamps]
  simp [clean_reads, and_assoc]

end From

/-- The check against the call, from a link on: what is known of the links outside it is who
supplied what, and that nothing from here on stamps what they read. -/
theorem problemsFrom_eq_nil (chain : List (Description F)) {suppliedBy : Supplied}
    {before : List Event}
    (h : ∀ capability, get capability suppliedBy = none ↔ .supply capability ∉ before) :
    (problemsFrom suppliedBy chain = [] ∧ ∀ link ∈ chain, ∀ field ∈ link.stamps,
      .read field ∉ before) ↔
      CleanFrom before (calls chain) := by
  induction chain generalizing suppliedBy before with
  | nil => simp [problemsFrom, calls, CleanFrom, Each]
  | cons link inside ih =>
      have hafter : ∀ capability, get capability (supply link suppliedBy link.supplies).1 = none ↔
          .supply capability ∉ before ++ events link := by
        intro capability
        rw [get_supply, h]
        simp [events]
      have hreads :
          (∀ inner ∈ inside, ∀ field ∈ inner.stamps, .read field ∉ before ++ events link) ↔
          (∀ read ∈ link.reads, ∀ inner ∈ inside, read ∉ inner.stamps) ∧
            ∀ inner ∈ inside, ∀ field ∈ inner.stamps, .read field ∉ before := by
        constructor
        · intro hall
          refine ⟨fun read hread inner hinner hstamp => ?_,
            fun inner hinner field hfield hbefore => ?_⟩
          · exact hall inner hinner read hstamp (by simp [events, hread])
          · exact hall inner hinner field hfield (List.mem_append_left _ hbefore)
        · rintro ⟨hlink, hbefore⟩ inner hinner field hfield hmem
          rcases List.mem_append.mp hmem with hmem | hmem
          · exact hbefore inner hinner field hfield hmem
          · have hread : field ∈ link.reads := by simpa [events] using hmem
            exact hlink field hread inner hinner hfield
      have hcalls : calls (link :: inside) = events link ++ calls inside := rfl
      rw [hcalls, cleanFrom_append, ← ih hafter, clean_events, hreads]
      have huses : (∀ used ∈ link.uses, get used suppliedBy ≠ none) ↔
          ∀ used ∈ link.uses, .supply used ∈ before :=
        forall₂_congr fun used _ => by rw [ne_eq, h, not_not]
      have hnew : (∀ supplied ∈ link.supplies, get supplied suppliedBy = none) ↔
          ∀ supplied ∈ link.supplies, .supply supplied ∉ before :=
        forall₂_congr fun supplied _ => h supplied
      simp only [problemsFrom, List.append_eq_nil_iff, useProblems_eq_nil, supply_eq_nil,
        readProblems_eq_nil,
        huses, hnew, List.forall_mem_cons]
      tauto

theorem chainError_eq_none {descriptionOf : F → Option (Description F)} {label : Str} {fn : F} :
    chainError descriptionOf label fn = none ↔ chainProblems (chainOf descriptionOf fn) = [] := by
  rw [chainError]
  split_ifs with hproblems
  · simp [hproblems]
  · simp [hproblems]

/-- What a sentence says of the chain. -/
def Problem.Holds (chain : List (Description F)) : Problem → Prop
  | .unsupplied name used hint => ∃ outside link inside, chain = outside ++ link :: inside ∧
      link.name = name ∧ get used link.hints = hint ∧ used ∈ link.uses ∧ ∀ outer ∈ outside,
        used ∉ outer.supplies
  | .suppliedTwice capability earlier name =>
      ∃ outside link inside, chain = outside ++ link :: inside ∧
      link.name = name ∧ capability ∈ link.supplies ∧
      ∃ outer ∈ outside ++ [link], outer.name = earlier ∧ capability ∈ outer.supplies
  | .stampedInside inner read name => ∃ outside link inside, chain = outside ++ link :: inside ∧
      link.name = name ∧ read ∈ link.reads ∧ ∃ stamper ∈ inside, stamper.name = inner ∧
        read ∈ stamper.stamps

theorem twice_of_mem_supply {link : Description F} {suppliedBy : Supplied} {supplies : List Str}
    {problem : Problem} (h : problem ∈ (supply link suppliedBy supplies).2) :
    ∃ capability ∈ supplies, ∃ earlier,
      problem = .suppliedTwice capability earlier link.name ∧
        (get capability suppliedBy = some earlier ∨ earlier = link.name) := by
  induction supplies generalizing suppliedBy with
  | nil => cases h
  | cons supplied rest ih =>
      rw [supply] at h
      cases hget : get supplied suppliedBy with
      | some earlier =>
          rw [hget] at h
          rcases List.mem_cons.mp h with rfl | hrest
          · exact ⟨supplied, List.mem_cons_self, earlier, rfl, .inl hget⟩
          · obtain ⟨capability, hmem, found⟩ := ih hrest
            exact ⟨capability, List.mem_cons_of_mem _ hmem, found⟩
      | none =>
          rw [hget] at h
          obtain ⟨capability, hmem, earlier, hproblem, hearlier⟩ := ih h
          refine ⟨capability, List.mem_cons_of_mem _ hmem, earlier, hproblem, ?_⟩
          rcases hearlier with hset | hname
          · rcases get_set_cases hset with ⟨-, hname⟩ | ⟨-, hbefore⟩
            · exact .inr hname
            · exact .inl hbefore
          · exact .inr hname

theorem get_supply_cases {link : Description F} {suppliedBy : Supplied} {supplies : List Str}
    {capability earlier : Str}
    (h : get capability (supply link suppliedBy supplies).1 = some earlier) :
    get capability suppliedBy = some earlier ∨ earlier = link.name ∧ capability ∈ supplies := by
  induction supplies generalizing suppliedBy with
  | nil => exact .inl h
  | cons supplied rest ih =>
      rw [supply] at h
      cases hget : get supplied suppliedBy with
      | some other =>
          rw [hget] at h
          rcases ih h with hbefore | ⟨hname, hmem⟩
          · exact .inl hbefore
          · exact .inr ⟨hname, List.mem_cons_of_mem _ hmem⟩
      | none =>
          rw [hget] at h
          rcases ih h with hset | ⟨hname, hmem⟩
          · rcases get_set_cases hset with ⟨rfl, hname⟩ | ⟨-, hbefore⟩
            · exact .inr ⟨hname, List.mem_cons_self⟩
            · exact .inl hbefore
          · exact .inr ⟨hname, List.mem_cons_of_mem _ hmem⟩

theorem holds_of_mem_problemsFrom {chain outside inside : List (Description F)}
    {suppliedBy : Supplied} {problem : Problem} (hchain : chain = outside ++ inside)
    (hsupplied : ∀ capability earlier, get capability suppliedBy = some earlier →
      ∃ outer ∈ outside, outer.name = earlier ∧ capability ∈ outer.supplies)
    (hunsupplied : ∀ capability, get capability suppliedBy = none → ∀ outer ∈ outside,
      capability ∉ outer.supplies)
    (h : problem ∈ problemsFrom suppliedBy inside) : problem.Holds chain := by
  induction inside generalizing outside suppliedBy with
  | nil => cases h
  | cons link inside ih =>
      simp only [problemsFrom, List.append_assoc, List.mem_append] at h
      rcases h with huse | htwice | hread | hinside
      · obtain ⟨used, hused, rfl⟩ := List.mem_map.mp huse
        obtain ⟨hmem, hnone⟩ := List.mem_filter.mp hused
        exact ⟨outside, link, inside, hchain, rfl, rfl, hmem,
          hunsupplied used (Option.isNone_iff_eq_none.mp hnone)⟩
      · obtain ⟨capability, hmem, earlier, rfl, hearlier⟩ := twice_of_mem_supply htwice
        refine ⟨outside, link, inside, hchain, rfl, hmem, ?_⟩
        rcases hearlier with hget | rfl
        · obtain ⟨outer, houter, hname, hsupplies⟩ := hsupplied capability earlier hget
          exact ⟨outer, List.mem_append_left _ houter, hname, hsupplies⟩
        · exact ⟨link, List.mem_append_right _ List.mem_cons_self, rfl, hmem⟩
      · obtain ⟨read, hmem, hfound⟩ := List.mem_flatMap.mp hread
        obtain ⟨inner, hinner, rfl⟩ := List.mem_map.mp hfound
        obtain ⟨hinside, hstamps⟩ := List.mem_filter.mp hinner
        exact ⟨outside, link, inside, hchain, rfl, hmem, inner, hinside, rfl,
          of_decide_eq_true hstamps⟩
      · have hchain' : chain = (outside ++ [link]) ++ inside := by
          rw [hchain, List.append_assoc]; rfl
        refine ih hchain' (fun capability earlier hget => ?_)
          (fun capability hnone outer houter => ?_) hinside
        · rcases get_supply_cases hget with hbefore | ⟨rfl, hmem⟩
          · obtain ⟨outer, houter, found⟩ := hsupplied capability earlier hbefore
            exact ⟨outer, List.mem_append_left _ houter, found⟩
          · exact ⟨link, List.mem_append_right _ List.mem_cons_self, rfl, hmem⟩
        · obtain ⟨hbefore, hnot⟩ := get_supply.mp hnone
          rcases List.mem_append.mp houter with hold | hnew
          · exact hunsupplied capability hbefore outer hold
          · rwa [List.mem_singleton.mp hnew]

/-- No sentence of a boot error is wrong. -/
theorem holds_of_mem_chainProblems {chain : List (Description F)} {problem : Problem}
    (h : problem ∈ chainProblems chain) : problem.Holds chain :=
  holds_of_mem_problemsFrom (List.nil_append _).symm (fun _ _ hget => by cases hget)
    (fun _ _ _ houter => absurd houter List.not_mem_nil) h

/-- A chain boots exactly when a call through its first 256 links is clean. -/
theorem boots_iff_call_is_clean {descriptionOf : F → Option (Description F)} {fn : F}
    {chain : List (Description F)} (h : Chain descriptionOf fn chain) (label : Str) :
    chainError descriptionOf label fn = none ↔ Each Right (calls (chain.take 256)) := by
  have hnothing : ∀ capability, get capability ([] : Supplied) = none ↔
      Event.supply capability ∉ [] :=
    fun _ => ⟨fun _ => List.not_mem_nil, fun _ => rfl⟩
  have hrule := problemsFrom_eq_nil (chain.take 256) hnothing
  rw [chainError_eq_none, chainOf, h.walk, chainProblems]
  simpa [CleanFrom] using hrule

/-- Three functions, by what they wrap: a wrapper that reads the message, one that stamps
it, the handler. -/
def readOutsideStamp : ℕ → Option (Description ℕ)
  | 2 => some { name := ascii "correlatingHandler", reads := [ascii "message.metadata"], next := 1 }
  | 1 => some { name := ascii "otlpHandler", supplies := [ascii "trace", ascii "metrics"],
                stamps := [ascii "message.metadata"], next := 0 }
  | _ => none

theorem read_outside_stamp_does_not_boot :
    chainError readOutsideStamp (ascii "orders.Place") 2 ≠ none ∧
      ∃ chain, Chain readOutsideStamp 2 chain ∧ chain.length = 2 ∧
        ¬Each Right (calls (chain.take 256)) := by
  have hchain : Chain readOutsideStamp 2 _ := .wrapped rfl (.wrapped rfl (.inmost rfl))
  have hrefused : chainError readOutsideStamp (ascii "orders.Place") 2 ≠ none := by
    rw [ne_eq, chainError_eq_none]
    decide +kernel
  exact ⟨hrefused, _, hchain, rfl,
    fun hclean => hrefused ((boots_iff_call_is_clean hchain _).mpr hclean)⟩

end Kronos.Composition.WrapperChain
