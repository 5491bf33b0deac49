import Mathlib.Data.Rat.Defs
import Kronos.Composition.WrapperChain

/-!
# Wiring an app

`kronos` takes three lists of entries. It refuses every chain of wrappers that
cannot work, subscribes the command handlers and then the query handlers, groups
the event handlers by the name of their processor, and starts one processor for
each group.

A bus may refuse a subscription, which ends the boot; what it does with one is
its own affair, so `refuses` is a parameter. What has been done is kept as a list
of effects. Stores, buses, factories and sequence functions are compared by
identity.
-/
namespace Kronos.Composition.Boot
open Lib.Utf8 (Str)
open Lib.JsonText (ascii)
open Lib.OrderedMap
open Lib.Trace (Each each_nil each_cons)
open WrapperChain (Description chainError quoted joined)

variable {F R : Type}

structure QualifiedName where
  nspace : Str
  name : Str

def qualifiedNameToString (qn : QualifiedName) : Str := qn.nspace ++ ascii "." ++ qn.name

structure EventProcessor (R : Type) where
  name : Str
  eventStore : R
  tokenStore : R
  unitOfWork : R
  batchSize : Option ℕ := none
  pollingIntervalMs : Option ℚ := none
  sequence : Option R := none
  deadLetterQueue : Option R := none
  concurrent : Option R := none
  segments : Option (ℕ × R) := none
  deriving DecidableEq

/-- An entry of any of the lists; the name is empty when the host gave none. -/
structure Entry (F R : Type) where
  name : Str
  descriptor : QualifiedName
  handler : F
  eventStore : Option R
  queryBus : R

structure CommandHandlerEntry (F R : Type) extends Entry F R where
  commandBus : R

abbrev QueryHandlerEntry (F R : Type) := Entry F R

structure EventHandlerEntry (F R : Type) extends Entry F R where
  commandBus : R
  processor : Option (EventProcessor R)

structure Options (F R : Type) where
  commandHandlers : List (CommandHandlerEntry F R)
  queryHandlers : List (QueryHandlerEntry F R)
  eventHandlers : List (EventHandlerEntry F R)

structure ProcessorGroup (F R : Type) where
  processor : EventProcessor R
  firstLabel : Str
  handlers : List (EventHandlerEntry F R)

inductive Effect (F R : Type) where
  | commandSubscribed (entry : CommandHandlerEntry F R) (eventStore : R)
  | querySubscribed (entry : QueryHandlerEntry F R)
  | started (group : ProcessorGroup F R)

def labelOf (entry : Entry F R) : Str :=
  if entry.name = [] then qualifiedNameToString entry.descriptor else entry.name

/-! ## The checks -/

def noEventStore (entry : Entry F R) : Str :=
  ascii "kronos: entry " ++ quoted (labelOf entry) ++
    ascii " is a command handler and appends to a log, but no event store was attached. " ++
    ascii "Attach one at the composition root, e.g. `\x7b ...handler, eventStore \x7d`."

def noProcessor (label : Str) : Str :=
  ascii "kronos: event handler " ++ quoted label ++
    ascii " has no processor, so nothing would ever deliver " ++
    ascii "to it. Attach one at the composition root, e.g. " ++
    ascii "`\x7b ...handler, commandBus, queryBus, processor \x7d` where `processor` came from " ++
    ascii "`eventProcessor(name, eventStore, tokenStore, unitOfWork)`."

def configuredDifferently (name : Str) (conflicts : List Str) (firstLabel label : Str) : Str :=
  ascii "kronos: two event handlers name a processor called " ++ quoted name ++ ascii " but " ++
    ascii "configure it differently — they disagree on " ++ joined (ascii ", ") conflicts ++
      ascii ". A processor's " ++
    ascii "name is its DURABLE identity (its token is stored under it), so these two would " ++
    ascii "fight over one cursor. Entries: " ++ quoted firstLabel ++ ascii " and " ++
      quoted label ++ ascii ". Share one " ++
    ascii "`eventProcessor(...)` value between them, or give them different names."

section Checks

variable [DecidableEq R]

/-- The name of a setting, where the values differ. -/
def differing {α : Type} [DecidableEq α] (setting : String) (a b : α) : List Str :=
  if a = b then [] else [ascii setting]

def processorConflicts (a b : EventProcessor R) : List Str :=
  differing "eventStore" a.eventStore b.eventStore ++
    differing "tokenStore" a.tokenStore b.tokenStore ++
    differing "unitOfWork" a.unitOfWork b.unitOfWork ++
    differing "deadLettering" (a.sequence, a.deadLetterQueue) (b.sequence, b.deadLetterQueue) ++
    differing "batched" a.batchSize b.batchSize ++
    differing "polling" a.pollingIntervalMs b.pollingIntervalMs ++
    differing "concurrent" a.concurrent b.concurrent ++
    differing "segmented" (a.segments.map Prod.fst, a.segments.map Prod.snd)
      (b.segments.map Prod.fst, b.segments.map Prod.snd)

/-- What one event handler adds to the groups so far, which are kept by name. -/
def addHandler (groups : List (Str × ProcessorGroup F R)) (handler : EventHandlerEntry F R) :
    Except Str (List (Str × ProcessorGroup F R)) :=
  let label := labelOf handler.toEntry
  match handler.processor with
  | none => .error (noProcessor label)
  | some processor =>
      match get processor.name groups with
      | none => .ok (set processor.name ⟨processor, label, [handler]⟩ groups)
      | some existing =>
          let conflicts := processorConflicts existing.processor processor
          if conflicts = [] then
            .ok (set processor.name { existing with
              handlers := existing.handlers ++ [handler] } groups)
          else .error (configuredDifferently processor.name conflicts existing.firstLabel label)

def groupHandlers (groups : List (Str × ProcessorGroup F R)) :
    List (EventHandlerEntry F R) → Except Str (List (Str × ProcessorGroup F R))
  | [] => .ok groups
  | handler :: rest =>
      match addHandler groups handler with
      | .error error => .error error
      | .ok groups => groupHandlers groups rest

end Checks

def firstProblem (descriptionOf : F → Option (Description F)) : List (Entry F R) → Option Str
  | [] => none
  | entry :: rest =>
      match chainError descriptionOf (labelOf entry) entry.handler with
      | some problem => some problem
      | none => firstProblem descriptionOf rest

/-! ## The boot -/

def commandSubscription (entry : CommandHandlerEntry F R) : Except Str (Effect F R) :=
  match entry.eventStore with
  | none => .error (noEventStore entry.toEntry)
  | some eventStore => .ok (.commandSubscribed entry eventStore)

/-- Subscriptions one after the other, up to the first that fails. -/
def subscribe (refuses : List (Effect F R) → Effect F R → Option Str) :
    List (Effect F R) → List (Except Str (Effect F R)) → List (Effect F R) × Option Str
  | done, [] => (done, none)
  | done, .error error :: _ => (done, some error)
  | done, .ok subscription :: rest =>
      match refuses done subscription with
      | some error => (done, some error)
      | none => subscribe refuses (done ++ [subscription]) rest

namespace Options

variable (opts : Options F R)

def entries : List (Entry F R) :=
  opts.commandHandlers.map (·.toEntry) ++ opts.queryHandlers ++ opts.eventHandlers.map (·.toEntry)

def subscriptions : List (Except Str (Effect F R)) :=
  opts.commandHandlers.map commandSubscription ++ opts.queryHandlers.map fun entry =>
    .ok (.querySubscribed entry)

end Options

/-- What has been done, and the groups whose processors run, or the boot error. -/
def kronos [DecidableEq R] (descriptionOf : F → Option (Description F))
    (refuses : List (Effect F R) → Effect F R → Option Str) (opts : Options F R) :
    List (Effect F R) × Except Str (List (ProcessorGroup F R)) :=
  match firstProblem descriptionOf opts.entries with
  | some problem => ([], .error problem)
  | none =>
      match subscribe refuses [] opts.subscriptions with
      | (done, some error) => (done, .error error)
      | (done, none) =>
          match groupHandlers [] opts.eventHandlers with
          | .error error => (done, .error error)
          | .ok groups =>
              let groups := groups.map Prod.snd
              (done ++ groups.map .started, .ok groups)

/-! ## What a host has to get right -/

/-- The subscriptions of a boot that gets through, in order. -/
def Options.subscribed (opts : Options F R) : List (Effect F R) :=
  opts.subscriptions.filterMap (·.toOption)

structure Wirable (descriptionOf : F → Option (Description F))
    (refuses : List (Effect F R) → Effect F R → Option Str) (opts : Options F R) : Prop where
  chains : ∀ entry ∈ opts.entries, chainError descriptionOf (labelOf entry) entry.handler = none
  stores : ∀ entry ∈ opts.commandHandlers, entry.eventStore ≠ none
  accepted : Each (fun done subscription => refuses done subscription = none) opts.subscribed
  processors : ∀ handler ∈ opts.eventHandlers, handler.processor ≠ none
  agree : ∀ handler ∈ opts.eventHandlers, ∀ other ∈ opts.eventHandlers, ∀ p q,
    handler.processor = some p → other.processor = some q → p.name = q.name → p = q

/-- Everything is subscribed before anything starts, and each event handler is with one
processor. -/
structure Wired [DecidableEq R] (opts : Options F R) (effects : List (Effect F R))
    (groups : List (ProcessorGroup F R)) : Prop where
  effects : effects = opts.subscribed ++ groups.map .started
  names : (groups.map (·.processor.name)).Nodup
  handlers : ∀ group ∈ groups,
    group.handlers = opts.eventHandlers.filter fun handler =>
      handler.processor = some group.processor
  delivered : ∀ handler ∈ opts.eventHandlers, ∃ group ∈ groups, handler ∈ group.handlers

theorem firstProblem_eq_none {descriptionOf : F → Option (Description F)}
    {entries : List (Entry F R)} :
    firstProblem descriptionOf entries = none ↔
      ∀ entry ∈ entries, chainError descriptionOf (labelOf entry) entry.handler = none := by
  induction entries with
  | nil => simp [firstProblem]
  | cons entry rest ih =>
      rw [firstProblem, List.forall_mem_cons]
      cases chainError descriptionOf (labelOf entry) entry.handler with
      | none => simp [ih]
      | some problem => simp

/-- What was subscribed, up to a failure, and when there is none. -/
theorem subscribe_spec (refuses : List (Effect F R) → Effect F R → Option Str)
    (done : List (Effect F R)) (attempts : List (Except Str (Effect F R))) :
    (subscribe refuses done attempts).1 <+: done ++ attempts.filterMap (·.toOption) ∧
      ((subscribe refuses done attempts).2 = none ↔
        (∀ attempt ∈ attempts, attempt.toOption ≠ none) ∧
          Each (fun past subscription => refuses (done ++ past) subscription = none)
            (attempts.filterMap (·.toOption))) ∧
      ((subscribe refuses done attempts).2 = none →
        (subscribe refuses done attempts).1 = done ++ attempts.filterMap (·.toOption)) := by
  induction attempts generalizing done with
  | nil =>
      exact ⟨by simp [subscribe], ⟨fun _ => ⟨by simp, each_nil⟩, fun _ => rfl⟩,
        fun _ => by simp [subscribe]⟩
  | cons attempt rest ih =>
      cases attempt with
      | error error => simp [subscribe, Except.toOption]
      | ok subscription =>
          rw [subscribe]
          have hfirst : (Except.ok subscription :: rest).filterMap (·.toOption) =
              subscription :: rest.filterMap (·.toOption) := rfl
          rw [hfirst, each_cons, List.append_nil]
          cases hrefuses : refuses done subscription with
          | some error => simp
          | none =>
              obtain ⟨hfront, hnone, hall⟩ := ih (done ++ [subscription])
              simp only [List.append_assoc, List.singleton_append] at hfront hnone hall
              refine ⟨hfront, ?_, hall⟩
              rw [hnone]
              simp [Except.toOption]

theorem toOption_commandSubscription (entry : CommandHandlerEntry F R) :
    (commandSubscription entry).toOption ≠ none ↔ entry.eventStore ≠ none := by
  unfold commandSubscription
  cases entry.eventStore with
  | none => simp [Except.toOption]
  | some eventStore => simp [Except.toOption]

theorem Options.forall_subscriptions {opts : Options F R} :
    (∀ attempt ∈ opts.subscriptions, attempt.toOption ≠ none) ↔
      ∀ entry ∈ opts.commandHandlers, entry.eventStore ≠ none := by
  rw [Options.subscriptions, List.forall_mem_append, List.forall_mem_map, List.forall_mem_map]
  simp only [toOption_commandSubscription]
  exact ⟨fun h => h.1, fun h => ⟨h, fun _ _ => by simp [Except.toOption]⟩⟩

theorem not_started_of_subscribed {opts : Options F R} (group : ProcessorGroup F R) :
    .started group ∉ opts.subscribed := by
  intro hmem
  obtain ⟨attempt, hattempt, heq⟩ := List.mem_filterMap.mp hmem
  rcases List.mem_append.mp hattempt with hcommand | hquery
  · obtain ⟨entry, -, rfl⟩ := List.mem_map.mp hcommand
    unfold commandSubscription at heq
    cases hstore : entry.eventStore with
    | none => rw [hstore] at heq; cases heq
    | some eventStore => rw [hstore] at heq; cases heq
  · obtain ⟨entry, -, rfl⟩ := List.mem_map.mp hquery
    cases heq

/-! ## Groups -/

section Groups

variable [DecidableEq R] {groups groups' : List (Str × ProcessorGroup F R)}
    {handled : List (EventHandlerEntry F R)}
  {handler : EventHandlerEntry F R}

theorem differing_eq_nil {α : Type} [DecidableEq α] {setting : String} {a b : α} :
    differing setting a b = [] ↔ a = b := by
  unfold differing
  split_ifs with heq
  · simp [heq]
  · simp [heq]

/-- Nothing that makes up a processor is left out of the comparison. -/
theorem eq_of_conflicts {a b : EventProcessor R} (hname : a.name = b.name)
    (h : processorConflicts a b = []) :
    a = b := by
  simp only [processorConflicts, List.append_eq_nil_iff, differing_eq_nil, Prod.mk.injEq] at h
  obtain ⟨⟨⟨⟨⟨⟨⟨hlog, htokens⟩, huow⟩, hsequence, hletters⟩, hbatch⟩, hpolling⟩, hconcurrent⟩,
      hcount, hseq⟩ := h
  have hsegments : a.segments = b.segments := by
    cases ha : a.segments <;> cases hb : b.segments <;> simp_all [Prod.ext_iff]
  cases a
  cases b
  simp_all

theorem conflicts_self (a : EventProcessor R) : processorConflicts a a = [] := by
  simp [processorConflicts, differing]

structure Grouped (groups : List (Str × ProcessorGroup F R))
    (handled : List (EventHandlerEntry F R)) : Prop where
  nodup : (groups.map Prod.fst).Nodup
  named : ∀ name group, get name groups = some group → group.processor.name = name
  handlers : ∀ name group, get name groups = some group →
    group.handlers = handled.filter fun handler => handler.processor = some group.processor
  used : ∀ name group, get name groups = some group →
    ∃ handler ∈ handled, handler.processor = some group.processor
  found : ∀ handler ∈ handled, ∃ processor group, handler.processor = some processor ∧
    get processor.name groups = some group ∧ group.processor = processor

theorem grouped_nil : Grouped ([] : List (Str × ProcessorGroup F R)) [] where
  nodup := List.nodup_nil
  named := fun _ _ h => by cases h
  handlers := fun _ _ h => by cases h
  used := fun _ _ h => by cases h
  found := fun _ h => absurd h List.not_mem_nil

/-- Setting the group of a handler's processor, once it holds that handler too. -/
theorem Grouped.set (h : Grouped groups handled) {processor : EventProcessor R}
    {group : ProcessorGroup F R} (hhandler : handler.processor = some processor)
    (hprocessor : group.processor = processor)
    (hgroup : group.handlers = (handled ++ [handler]).filter fun h => h.processor = some processor)
    (hkept : ∀ existing,
      get processor.name groups = some existing → existing.processor = processor) :
    Grouped (set processor.name group groups) (handled ++ [handler]) := by
  subst hprocessor
  constructor
  case nodup => exact nodup_keys_set h.nodup
  case named =>
    intro name other hget
    rcases get_set_cases hget with ⟨rfl, rfl⟩ | ⟨-, hold⟩
    · rfl
    · exact h.named name other hold
  case handlers =>
    intro name other hget
    rcases get_set_cases hget with ⟨rfl, rfl⟩ | ⟨hne, hold⟩
    · exact hgroup
    · have hother : handler.processor ≠ some other.processor := by
        rw [hhandler]
        intro hsame
        rw [Option.some.inj hsame, h.named name other hold] at hne
        exact hne rfl
      rw [h.handlers name other hold, List.filter_append]
      simp [hother]
  case used =>
    intro name other hget
    rcases get_set_cases hget with ⟨-, rfl⟩ | ⟨-, hold⟩
    · exact ⟨handler, by simp, hhandler⟩
    · obtain ⟨user, hmem, huser⟩ := h.used name other hold
      exact ⟨user, List.mem_append_left _ hmem, huser⟩
  case found =>
    intro other hother
    rcases List.mem_append.mp hother with hold | hnew
    · obtain ⟨processor, existing, hsome, hget, rfl⟩ := h.found other hold
      rcases eq_or_ne existing.processor.name group.processor.name with hname | hname
      · rw [hname] at hget
        exact ⟨existing.processor, group,
          hsome, by rw [hname, get_set_self], (hkept existing hget).symm⟩
      · exact ⟨existing.processor, existing, hsome, by rw [get_set_of_ne hname, hget], rfl⟩
    · rw [List.mem_singleton.mp hnew]
      exact ⟨group.processor, group, hhandler, get_set_self _ _ _, rfl⟩

theorem Grouped.addHandler (h : Grouped groups handled)
    (hadd : addHandler groups handler = .ok groups') :
    Grouped groups' (handled ++ [handler]) := by
  unfold Boot.addHandler at hadd
  cases hhandler : handler.processor with
  | none => rw [hhandler] at hadd; cases hadd
  | some processor =>
      rw [hhandler] at hadd
      simp only at hadd
      cases hget : get processor.name groups with
      | none =>
          rw [hget] at hadd
          cases hadd
          refine h.set hhandler rfl ?_ (fun existing hexisting => by
            rw [hget] at hexisting; cases hexisting)
          have hnone : (handled.filter fun other => other.processor = some processor) = [] := by
            rw [List.filter_eq_nil_iff]
            intro other hother hsame
            obtain ⟨found, group, hfound, hgroup, -⟩ := h.found other hother
            rw [of_decide_eq_true hsame] at hfound
            rw [← Option.some.inj hfound, hget] at hgroup
            cases hgroup
          rw [List.filter_append, hnone]
          simp [hhandler]
      | some existing =>
          rw [hget] at hadd
          simp only at hadd
          split_ifs at hadd with hconflicts
          cases hadd
          have hsame := eq_of_conflicts (h.named _ _ hget) hconflicts
          refine h.set hhandler hsame ?_ (fun other hother => ?_)
          · rw [List.filter_append, h.handlers _ _ hget, hsame]
            simp [hhandler]
          · rw [hget] at hother
            exact Option.some.inj hother ▸ hsame

theorem Grouped.addHandler_ok (h : Grouped groups handled) :
    (∃ groups', Boot.addHandler groups handler = .ok groups') ↔
      ∃ processor, handler.processor = some processor ∧
      ∀ other ∈ handled, ∀ q, other.processor = some q → q.name = processor.name →
        q = processor := by
  unfold Boot.addHandler
  cases hhandler : handler.processor with
  | none => simp
  | some processor =>
      simp only [Option.some.injEq, exists_eq_left']
      cases hget : get processor.name groups with
      | none =>
          refine iff_of_true ⟨_, rfl⟩ fun other hother q hq hname => ?_
          obtain ⟨found, group, hfound, hgroup, -⟩ := h.found other hother
          rw [hq] at hfound
          rw [← Option.some.inj hfound, hname, hget] at hgroup
          cases hgroup
      | some existing =>
          simp only
          split_ifs with hconflicts
          · refine iff_of_true ⟨_, rfl⟩ fun other hother q hq hname => ?_
            obtain ⟨found, group, hfound, hgroup, rfl⟩ := h.found other hother
            rw [hq] at hfound
            have hfound := Option.some.inj hfound
            rw [← hfound, hname, hget] at hgroup
            rw [hfound, ← Option.some.inj hgroup]
            exact eq_of_conflicts (h.named _ _ hget) hconflicts
          · refine iff_of_false (fun hok => by obtain ⟨_, hok⟩ := hok; cases hok) fun hall =>
              hconflicts ?_
            obtain ⟨user, hmem, huser⟩ := h.used _ _ hget
            rw [hall user hmem existing.processor huser (h.named _ _ hget)]
            exact conflicts_self processor

theorem Grouped.groupHandlers (h : Grouped groups handled) {handlers : List (EventHandlerEntry F R)}
    (hgroups : groupHandlers groups handlers = .ok groups') :
    Grouped groups' (handled ++ handlers) := by
  induction handlers generalizing groups handled with
  | nil =>
      cases hgroups
      rwa [List.append_nil]
  | cons handler rest ih =>
      rw [Boot.groupHandlers] at hgroups
      cases hadd : Boot.addHandler groups handler with
      | error error => rw [hadd] at hgroups; cases hgroups
      | ok next =>
          rw [hadd] at hgroups
          have hrest := ih (h.addHandler hadd) hgroups
          rwa [List.append_assoc] at hrest

/-- No two of the handlers disagree about a processor's name, seen from the handlers that
are left. -/
theorem Grouped.groupHandlers_ok (h : Grouped groups handled)
    (handlers : List (EventHandlerEntry F R)) :
    (∃ groups', Boot.groupHandlers groups handlers = .ok groups') ↔
      (∀ handler ∈ handlers, handler.processor ≠ none) ∧
        ∀ handler ∈ handlers, ∀ other ∈ handled ++ handlers, ∀ p q,
          handler.processor = some p → other.processor = some q → p.name = q.name → p = q := by
  induction handlers generalizing groups handled with
  | nil => simp [Boot.groupHandlers]
  | cons handler rest ih =>
      have hshift : handled ++ handler :: rest = (handled ++ [handler]) ++ rest := by simp
      rw [Boot.groupHandlers, List.forall_mem_cons, List.forall_mem_cons]
      constructor
      · rintro ⟨groups', hgroups⟩
        cases hadd : Boot.addHandler groups handler with
        | error error => rw [hadd] at hgroups; cases hgroups
        | ok next =>
            rw [hadd] at hgroups
            obtain ⟨hsome, hrest⟩ := (ih (h.addHandler hadd)).mp ⟨groups', hgroups⟩
            obtain ⟨processor, hprocessor, hagree⟩ := h.addHandler_ok.mp ⟨next, hadd⟩
            refine ⟨⟨by simp [hprocessor], hsome⟩, fun other hother p q hp hq hname => ?_,
              fun later hlater => ?_⟩
            · rw [hprocessor] at hp
              cases hp
              rcases List.mem_append.mp hother with hold | hnew
              · exact (hagree other hold q hq hname.symm).symm
              · rcases List.mem_cons.mp hnew with rfl | hlater
                · exact Option.some.inj (hprocessor.symm.trans hq)
                · exact (hrest other hlater handler (by simp) q processor hq hprocessor
                    hname.symm).symm
            · rw [hshift]
              exact hrest later hlater
      · rintro ⟨⟨hprocessor, hsome⟩, hagree, hrest⟩
        obtain ⟨processor, hprocessor⟩ := Option.ne_none_iff_exists'.mp hprocessor
        obtain ⟨next, hadd⟩ :=
          h.addHandler_ok.mpr ⟨processor, hprocessor, fun other hother q hq hname =>
          (hagree other (List.mem_append_left _ hother) processor q hprocessor hq hname.symm).symm⟩
        rw [hadd]
        rw [hshift] at hrest
        exact (ih (h.addHandler hadd)).mpr ⟨hsome, hrest⟩

theorem Grouped.wired {opts : Options F R} (h : Grouped groups opts.eventHandlers) :
    Wired opts (opts.subscribed ++ (groups.map Prod.snd).map .started) (groups.map Prod.snd) := by
  have hget : ∀ group ∈ groups.map Prod.snd, ∃ name, get name groups = some group := by
    intro group hgroup
    obtain ⟨entry, hentry, rfl⟩ := List.mem_map.mp hgroup
    exact ⟨entry.1, get_of_mem h.nodup hentry⟩
  have hnames : (groups.map Prod.snd).map (·.processor.name) = groups.map Prod.fst := by
    rw [List.map_map]
    exact List.map_congr_left fun entry hentry => h.named _ _ (get_of_mem h.nodup hentry)
  constructor
  case effects => rfl
  case names => rw [hnames]; exact h.nodup
  case handlers =>
    intro group hgroup
    obtain ⟨name, hname⟩ := hget group hgroup
    exact h.handlers name group hname
  case delivered =>
    intro handler hhandler
    obtain ⟨processor, group, hsome, hname, rfl⟩ := h.found handler hhandler
    refine ⟨group, List.mem_map_of_mem (f := Prod.snd) (mem_of_get hname), ?_⟩
    rw [h.handlers _ _ hname]
    exact List.mem_filter.mpr ⟨hhandler, by simp [hsome]⟩

end Groups

/-! ## The boot as a whole -/

/-- A boot wires everything a host asked for, or starts nothing; and it wires exactly what
can be wired. -/
theorem boot_is_all_or_nothing [DecidableEq R] (descriptionOf : F → Option (Description F))
    (refuses : List (Effect F R) → Effect F R → Option Str) (opts : Options F R) :
    (Wirable descriptionOf refuses opts ∧ ∃ groups,
        (kronos descriptionOf refuses opts).2 = .ok groups ∧
        Wired opts (kronos descriptionOf refuses opts).1 groups) ∨
      (¬Wirable descriptionOf refuses opts ∧
        (∃ error, (kronos descriptionOf refuses opts).2 = .error error) ∧
        (kronos descriptionOf refuses opts).1 <+: opts.subscribed ∧
        ∀ group, .started group ∉ (kronos descriptionOf refuses opts).1) := by
  obtain ⟨hfront, hnone, hall⟩ := subscribe_spec refuses [] opts.subscriptions
  have hsome := grouped_nil.groupHandlers_ok opts.eventHandlers
  simp only [List.nil_append] at hfront hnone hall hsome
  have hquiet : ∀ group, .started group ∉ (subscribe refuses [] opts.subscriptions).1 :=
    fun group hmem =>
    not_started_of_subscribed group (hfront.mem hmem)
  unfold kronos
  cases hchains : firstProblem descriptionOf opts.entries with
  | some problem =>
      refine .inr ⟨fun hwirable => ?_, ⟨problem, rfl⟩, List.nil_prefix, fun _ => List.not_mem_nil⟩
      rw [firstProblem_eq_none.mpr hwirable.chains] at hchains
      cases hchains
  | none =>
      cases hsubscribe : subscribe refuses [] opts.subscriptions with
      | mk done failed =>
          rw [hsubscribe] at hfront hnone hall hquiet
          cases failed with
          | some error =>
              refine .inr ⟨fun hwirable => ?_, ⟨error, rfl⟩, hfront, hquiet⟩
              have := hnone.mpr ⟨Options.forall_subscriptions.mpr hwirable.stores,
                hwirable.accepted⟩
              cases this
          | none =>
              obtain ⟨hstores, haccepted⟩ := hnone.mp rfl
              have hdone := hall rfl
              cases hgroups : groupHandlers [] opts.eventHandlers with
              | error error =>
                  refine .inr ⟨fun hwirable => ?_, ⟨error, rfl⟩, hfront, hquiet⟩
                  obtain ⟨groups, hok⟩ := hsome.mpr ⟨hwirable.processors, hwirable.agree⟩
                  rw [hgroups] at hok
                  cases hok
              | ok groups =>
                  obtain ⟨hprocessors, hagree⟩ := hsome.mp ⟨groups, hgroups⟩
                  have hwired := (grouped_nil.groupHandlers hgroups).wired
                  refine .inl ⟨?_, groups.map Prod.snd, rfl, ?_⟩
                  · exact ⟨firstProblem_eq_none.mp hchains,
                      Options.forall_subscriptions.mp hstores, haccepted,
                      hprocessors, hagree⟩
                  · show Wired opts (done ++ _) _
                    rw [show done = opts.subscribed from hdone]
                    exact hwired

end Kronos.Composition.Boot
