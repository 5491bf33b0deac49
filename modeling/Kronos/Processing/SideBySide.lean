import Kronos.Lib.OrderedMap
import Kronos.Lib.Transition
import Mathlib.Data.List.Nodup
import Mathlib.Data.Nat.Notation

/-!
# Delivering a batch side by side

The fresh, handled events of a batch are sorted into lanes, one for each
sequence. All lanes start at once and wait on handlers that settle in any order;
within a lane one event is delivered after another until one fails. The batch
settles once every lane has returned, with the failure at the earliest place.

An action is a handler that settles, with or without an error, the return of a
`deliverEvent` whose last handler has settled, or the settling of the batch. The
trace says when each delivery started and how it ended. Handlers are opaque: the
flag that tells them whether an event is replayed is passed through to them.
-/
namespace Kronos.Processing.SideBySide
open Kronos.Lib Kronos.Lib.Transition

variable {E I H X : Type} [DecidableEq I]

/-- A call `deliverEvent` waits for. -/
inductive Call (H : Type) where
  | handler (entry : H)
  | deadLetterDelivery (entries : List H)
  deriving DecidableEq, Repr

structure Config (E I H : Type) where
  /-- What the handler map has under an event's name. -/
  entriesOf : E → Option (List H)
  deadLetterDelivery : Bool
  sequenceOf : E → I

def Config.handled (cfg : Config E I H) (event : E) : Bool := (cfg.entriesOf event).isSome

/-- The calls of `deliverEvent`, one after another. -/
def Config.deliverEvent (cfg : Config E I H) (event : E) : List (Call H) :=
  match cfg.entriesOf event with
  | none | some [] => []
  | some entries =>
      if cfg.deadLetterDelivery then [.deadLetterDelivery entries] else entries.map .handler

/-- A batch with its fresh flags. -/
structure Batch (E : Type) where
  events : List E
  fresh : List Bool

section Lanes
variable (cfg : Config E I H) (batch : Batch E)

/-- One round of the loop that sorts the batch into lanes. -/
def addToLane (lanes : List (I × List ℕ)) (i : ℕ) : List (I × List ℕ) :=
  match batch.events[i]? with
  | none => lanes
  | some event =>
      if batch.fresh.getD i false = false ∨ cfg.handled event = false then lanes
      else
        let id := cfg.sequenceOf event
        match OrderedMap.get id lanes with
        | some lane => OrderedMap.set id (lane ++ [i]) lanes
        | none => OrderedMap.set id [i] lanes

def lanesOf : List (I × List ℕ) :=
  (List.range batch.events.length).foldl (addToLane cfg batch) []

end Lanes

/-- Where a lane's loop is: it waits for the calls of event `i`, or has returned. -/
inductive Lane (H : Type) where
  | delivering (i : ℕ) (calls : List (Call H)) (rest : List ℕ)
  | returned
  deriving DecidableEq, Repr

def Lane.isReturned : Lane H → Bool
  | .delivering _ _ _ => false
  | .returned => true

inductive Mark (X : Type) where
  | started (i : ℕ)
  | delivered (i : ℕ)
  | failed (i : ℕ) (error : X)
  deriving DecidableEq, Repr

structure State (I H X : Type) where
  lanes : List (I × Lane H)
  failures : List (ℕ × X)
  trace : List (Mark X)
  /-- How `deliverSideBySide` returned. -/
  settled : Option (Except X Unit)

section Runs
variable (cfg : Config E I H) (batch : Batch E)

/-- The loop of a lane goes on to its next event. -/
def nextEvent : List ℕ → Lane H
  | [] => .returned
  | i :: rest => .delivering i ((batch.events[i]?.map cfg.deliverEvent).getD []) rest

def startMarks : List ℕ → List (Mark X)
  | [] => []
  | i :: _ => [.started i]

def initial : State I H X where
  lanes := (lanesOf cfg batch).map fun lane => (lane.1, nextEvent cfg batch lane.2)
  failures := []
  trace := (lanesOf cfg batch).flatMap fun lane => startMarks lane.2
  settled := none

inductive Action (I X : Type) where
  /-- The call the lane waits for settles. -/
  | settle (id : I) (error : Option X)
  /-- `deliverEvent` returns to the lane. -/
  | proceed (id : I)
  /-- `Promise.all` resolves. -/
  | finish

/-- `failures.reduce`: a later failure takes over only from a greater place. -/
def earliest (first : ℕ × X) (failures : List (ℕ × X)) : ℕ × X :=
  failures.foldl (fun first f => if f.1 < first.1 then f else first) first

def verdict : List (ℕ × X) → Except X Unit
  | [] => .ok ()
  | first :: failures => .error (earliest first failures).2

def step (s : State I H X) : Action I X → Option (State I H X)
  | .settle id error =>
      match OrderedMap.get id s.lanes, error with
      | some (.delivering i (_ :: calls) rest), none =>
          some { s with lanes := OrderedMap.set id (.delivering i calls rest) s.lanes }
      | some (.delivering i (_ :: _) _), some error =>
          some { s with
            lanes := OrderedMap.set id .returned s.lanes
            failures := s.failures ++ [(i, error)]
            trace := s.trace ++ [.failed i error] }
      | _, _ => none
  | .proceed id =>
      match OrderedMap.get id s.lanes with
      | some (.delivering i [] rest) =>
          some { s with
            lanes := OrderedMap.set id (nextEvent cfg batch rest) s.lanes
            trace := s.trace ++ .delivered i :: startMarks rest }
      | _ => none
  | .finish =>
      if s.settled.isNone && s.lanes.all (fun lane => lane.2.isReturned) then
        some { s with settled := some (verdict s.failures) }
      else none

end Runs

/-! ## Which events a lane has -/

section Lanes
variable (cfg : Config E I H) (batch : Batch E)

/-- The event at `i` is fresh and somebody handles it. -/
def deliverable (i : ℕ) : Bool := batch.fresh.getD i false && batch.events[i]?.any cfg.handled

/-- The sequence of the event at `i`. -/
def sequenceAt (i : ℕ) : Option I := batch.events[i]?.map cfg.sequenceOf

/-- The events of a sequence that are to be delivered, in log order. -/
def sequenceEvents (id : I) : List ℕ :=
  (List.range batch.events.length).filter fun i =>
    deliverable cfg batch i && decide (sequenceAt cfg batch i = some id)

variable {cfg batch}

theorem sequenceAt_of_mem {id : I} {i : ℕ} (h : i ∈ sequenceEvents cfg batch id) :
    sequenceAt cfg batch i = some id := by
  have hboth := (List.mem_filter.mp h).2
  simp only [Bool.and_eq_true, decide_eq_true_eq] at hboth
  exact hboth.2

/-- A lane with no event is not there. -/
def laneOfEvents (events : List ℕ) : Option (List ℕ) := if events = [] then none else some events

theorem laneOfEvents_concat (events : List ℕ) (i : ℕ) :
    laneOfEvents (events ++ [i]) = some (((laneOfEvents events).getD []) ++ [i]) := by
  unfold laneOfEvents
  by_cases h : events = []
  · simp [h]
  · simp [h]

/-- One round of the loop adds the event to the lane of its sequence, if it is to be delivered. -/
theorem get_addToLane (lanes : List (I × List ℕ)) (i : ℕ) (id : I) :
    OrderedMap.get id (addToLane cfg batch lanes i) =
      if deliverable cfg batch i && decide (sequenceAt cfg batch i = some id) then
        some (((OrderedMap.get id lanes).getD []) ++ [i])
      else OrderedMap.get id lanes := by
  unfold addToLane deliverable sequenceAt
  cases hevent : batch.events[i]? with
  | none => simp
  | some event =>
      cases hfresh : batch.fresh.getD i false with
      | false => simp
      | true =>
          cases hhandled : cfg.handled event with
          | false => simp [hhandled]
          | true =>
              by_cases hid : cfg.sequenceOf event = id
              · subst hid
                cases hlane : OrderedMap.get (cfg.sequenceOf event) lanes with
                | none => simp [hhandled, hlane, OrderedMap.get_set_self]
                | some lane => simp [hhandled, hlane, OrderedMap.get_set_self]
              · have hother : id ≠ cfg.sequenceOf event := Ne.symm hid
                cases hlane : OrderedMap.get (cfg.sequenceOf event) lanes with
                | none => simp [hid, hhandled, hlane, OrderedMap.get_set_of_ne hother]
                | some lane => simp [hid, hhandled, hlane, OrderedMap.get_set_of_ne hother]

theorem nodup_addToLane {lanes : List (I × List ℕ)} (h : (lanes.map Prod.fst).Nodup) (i : ℕ) :
    ((addToLane cfg batch lanes i).map Prod.fst).Nodup := by
  unfold addToLane
  cases batch.events[i]? with
  | none => exact h
  | some event =>
      simp only
      split_ifs
      · exact h
      · cases OrderedMap.get (cfg.sequenceOf event) lanes with
        | none => exact OrderedMap.nodup_keys_set h
        | some lane => exact OrderedMap.nodup_keys_set h

/-- The loop over the first `n` events. -/
theorem get_foldl_addToLane (n : ℕ) (id : I) :
    OrderedMap.get id ((List.range n).foldl (addToLane cfg batch) []) =
      laneOfEvents ((List.range n).filter fun i =>
        deliverable cfg batch i && decide (sequenceAt cfg batch i = some id)) := by
  induction n with
  | zero => rfl
  | succ n ih =>
      rw [List.range_succ, List.foldl_append, List.foldl_cons, List.foldl_nil, get_addToLane, ih,
        List.filter_append]
      by_cases hin : (deliverable cfg batch n && decide (sequenceAt cfg batch n = some id)) = true
      · rw [if_pos hin, List.filter_singleton, hin]
        exact (laneOfEvents_concat _ n).symm
      · rw [if_neg hin, List.filter_singleton, Bool.eq_false_iff.mpr hin]
        simp

theorem get_lanesOf (id : I) :
    OrderedMap.get id (lanesOf cfg batch) = laneOfEvents (sequenceEvents cfg batch id) :=
  get_foldl_addToLane batch.events.length id

theorem nodup_lanesOf : ((lanesOf cfg batch).map Prod.fst).Nodup := by
  unfold lanesOf
  generalize List.range batch.events.length = places
  suffices h : ∀ lanes : List (I × List ℕ), (lanes.map Prod.fst).Nodup →
      ((places.foldl (addToLane cfg batch) lanes).map Prod.fst).Nodup from h [] List.nodup_nil
  induction places with
  | nil => exact fun lanes h => h
  | cons i places ih => exact fun lanes h => ih _ (nodup_addToLane h i)

end Lanes

/-! ## What a run has delivered of a sequence -/

namespace Mark

def place : Mark X → ℕ
  | started i => i
  | delivered i => i
  | failed i _ => i

def failure : Mark X → Option (ℕ × X)
  | failed i error => some (i, error)
  | _ => none

end Mark

/-- Events that were delivered one after another. -/
def deliveries (events : List ℕ) : List (Mark X) :=
  events.flatMap fun i => [.started i, .delivered i]

/-- One event after another up to the first that failed, and no further. -/
def StoppedAt (events : List ℕ) (marks : List (Mark X)) : Prop :=
  ∃ done i rest error, events = done ++ i :: rest ∧
    marks = deliveries done ++ [.started i, .failed i error]

/-- One event after another, and no failure so far. -/
def UnderWay (events : List ℕ) (marks : List (Mark X)) : Prop :=
  ∃ done i rest, events = done ++ i :: rest ∧ marks = deliveries done ++ [.started i]

section Runs
variable (cfg : Config E I H) (batch : Batch E)

/-- The part of the trace that is about a sequence. -/
def marksOf (id : I) (trace : List (Mark X)) : List (Mark X) :=
  trace.filter fun mark => decide (sequenceAt cfg batch mark.place = some id)

/-- What a lane has done so far, by where its loop is. -/
def LaneInv (events : List ℕ) (marks : List (Mark X)) : Option (Lane H) → Prop
  | none => events = [] ∧ marks = []
  | some (.delivering i _ rest) => ∃ done, events = done ++ i :: rest ∧
      marks = deliveries done ++ [.started i]
  | some .returned => marks = deliveries events ∨ StoppedAt events marks

structure Inv (s : State I H X) : Prop where
  lanes : ∀ id, LaneInv (sequenceEvents cfg batch id) (marksOf cfg batch id s.trace)
    (OrderedMap.get id s.lanes)
  failures : s.failures = s.trace.filterMap Mark.failure
  keys : (s.lanes.map Prod.fst).Nodup
  placed : ∀ mark ∈ s.trace, ∃ id, sequenceAt cfg batch mark.place = some id
  settled : ∀ result, s.settled = some result →
    (∀ id lane, OrderedMap.get id s.lanes = some lane → lane = .returned) ∧
      result = verdict s.failures

variable {cfg batch}

theorem deliveries_concat (done : List ℕ) (i : ℕ) :
    (deliveries (done ++ [i]) : List (Mark X)) = deliveries done ++ [.started i, .delivered i] := by
  simp [deliveries]

theorem marksOf_append (id : I) (trace more : List (Mark X)) :
    marksOf cfg batch id (trace ++ more) =
      marksOf cfg batch id trace ++ marksOf cfg batch id more :=
  List.filter_append _ _

theorem marksOf_own {id : I} {marks : List (Mark X)}
    (h : ∀ mark ∈ marks, sequenceAt cfg batch mark.place = some id) :
    marksOf cfg batch id marks = marks := by
  apply List.filter_eq_self.mpr
  intro mark hmark
  exact decide_eq_true (h mark hmark)

theorem marksOf_other {id other : I} (hne : other ≠ id) {marks : List (Mark X)}
    (h : ∀ mark ∈ marks, sequenceAt cfg batch mark.place = some id) :
    marksOf cfg batch other marks = [] := by
  apply List.filter_eq_nil_iff.mpr
  intro mark hmark
  rw [h mark hmark]
  simpa using hne.symm

omit [DecidableEq I] in
/-- The lane goes on to the events it has left. -/
theorem LaneInv.next {events rest : List ℕ} (done : List ℕ) {marks : List (Mark X)}
    (hevents : events = done ++ rest) (hmarks : marks = deliveries done ++ startMarks rest) :
    LaneInv events marks (some (nextEvent cfg batch rest)) := by
  cases rest with
  | nil =>
      rw [List.append_nil] at hevents
      subst hevents
      exact .inl (by simpa [startMarks] using hmarks)
  | cons i rest => exact ⟨done, hevents, hmarks⟩

/-- What a step of one lane does to the rest: a frame rule. -/
theorem Inv.laneStep {s : State I H X} (h : Inv cfg batch s) {id : I} {lane : Lane H}
    (lane' : Lane H) (hlane : OrderedMap.get id s.lanes = some lane) (hactive : lane ≠ .returned)
    (marks : List (Mark X)) (failures : List (ℕ × X))
    (hplace : ∀ mark ∈ marks, sequenceAt cfg batch mark.place = some id)
    (hnew : LaneInv (sequenceEvents cfg batch id) (marksOf cfg batch id s.trace ++ marks)
      (some lane'))
    (hfailures : failures = marks.filterMap Mark.failure) :
    Inv cfg batch { s with
      lanes := OrderedMap.set id lane' s.lanes
      failures := s.failures ++ failures
      trace := s.trace ++ marks } := by
  refine ⟨?_, ?_, OrderedMap.nodup_keys_set h.keys, ?_, ?_⟩
  · intro other
    simp only [marksOf_append]
    by_cases hid : other = id
    · subst hid
      rw [OrderedMap.get_set_self, marksOf_own hplace]
      exact hnew
    · rw [OrderedMap.get_set_of_ne hid, marksOf_other hid hplace, List.append_nil]
      exact h.lanes other
  · simp only [List.filterMap_append, hfailures, h.failures]
  · intro mark hmark
    rcases List.mem_append.mp hmark with hmark | hmark
    · exact h.placed mark hmark
    · exact ⟨id, hplace mark hmark⟩
  · intro result hresult
    obtain ⟨hreturned, -⟩ := h.settled result hresult
    exact absurd (hreturned id lane hlane) hactive

omit [DecidableEq I] in
theorem place_startMarks {id : I} {events : List ℕ}
    (h : ∀ i ∈ events, sequenceAt cfg batch i = some id) :
    ∀ mark ∈ startMarks (X := X) events, sequenceAt cfg batch mark.place = some id := by
  intro mark hmark
  cases events with
  | nil => cases hmark
  | cons i rest =>
      rw [List.mem_singleton.mp hmark]
      exact h i List.mem_cons_self

omit [DecidableEq I] in
theorem failure_startMarks (events : List ℕ) :
    (startMarks (X := X) events).filterMap Mark.failure = [] := by
  cases events with
  | nil => rfl
  | cons i rest => rfl

/-- Of the first starts of all lanes, those of a sequence are its own lane's. -/
theorem marksOf_starts {lanes : List (I × List ℕ)} (hnodup : (lanes.map Prod.fst).Nodup)
    (hown : ∀ lane ∈ lanes, ∀ i ∈ lane.2, sequenceAt cfg batch i = some lane.1) (id : I) :
    marksOf cfg batch id (lanes.flatMap fun lane => startMarks (X := X) lane.2) =
      startMarks ((OrderedMap.get id lanes).getD []) := by
  induction lanes with
  | nil => rfl
  | cons lane lanes ih =>
      rw [List.map_cons, List.nodup_cons] at hnodup
      have hplace := place_startMarks (X := X) (hown lane List.mem_cons_self)
      have htail := ih hnodup.2 fun other hother => hown other (List.mem_cons_of_mem _ hother)
      rw [List.flatMap_cons, marksOf_append, htail]
      by_cases hid : lane.1 = id
      · subst hid
        rw [marksOf_own hplace, OrderedMap.get_eq_none_of_not_mem hnodup.1]
        simp [OrderedMap.get, startMarks]
      · rw [marksOf_other (Ne.symm hid) hplace]
        simp [OrderedMap.get, hid]

theorem inv_initial : Inv cfg batch (initial cfg batch : State I H X) := by
  have hown : ∀ lane ∈ lanesOf cfg batch, ∀ i ∈ lane.2, sequenceAt cfg batch i = some lane.1 := by
    intro lane hlane i hi
    have hget := OrderedMap.get_of_mem nodup_lanesOf hlane
    rw [get_lanesOf, laneOfEvents] at hget
    split_ifs at hget
    rw [← Option.some.inj hget] at hi
    exact sequenceAt_of_mem hi
  refine ⟨?_, ?_, ?_, ?_, ?_⟩
  · intro id
    have hmarks := marksOf_starts (X := X) nodup_lanesOf hown id
    simp only [initial]
    rw [hmarks, OrderedMap.get_map, get_lanesOf]
    by_cases hempty : sequenceEvents cfg batch id = []
    · simp [laneOfEvents, hempty, LaneInv, startMarks]
    · simp only [laneOfEvents, hempty, if_false, Option.map_some, Option.getD_some]
      exact LaneInv.next [] rfl rfl
  · simp only [initial, List.filterMap_flatMap, failure_startMarks]
    simp
  · simpa [initial, Function.comp_def] using nodup_lanesOf
  · intro mark hmark
    obtain ⟨lane, hlane, hmark⟩ := List.mem_flatMap.mp hmark
    exact ⟨lane.1, place_startMarks (hown lane hlane) mark hmark⟩
  · intro result hresult
    cases hresult

theorem sequenceAt_of_split {id : I} {done rest : List ℕ}
    (h : sequenceEvents cfg batch id = done ++ rest) :
    ∀ i ∈ rest, sequenceAt cfg batch i = some id := by
  intro i hi
  apply sequenceAt_of_mem
  rw [h]
  exact List.mem_append_right _ hi

theorem inv_settle {s t : State I H X} {id : I} {error : Option X} (h : Inv cfg batch s)
    (hstep : step cfg batch s (.settle id error) = some t) : Inv cfg batch t := by
  have hinv := h.lanes id
  simp only [step] at hstep
  split at hstep
  case h_1 i call calls rest hlane =>
    cases hstep
    rw [hlane] at hinv
    have hnext := h.laneStep (.delivering i calls rest) hlane (by simp) [] [] (by simp)
      (by rw [List.append_nil]; exact hinv) rfl
    simpa using hnext
  case h_2 i call calls rest error hlane =>
    cases hstep
    rw [hlane] at hinv
    obtain ⟨done, hevents, hmarks⟩ := hinv
    apply h.laneStep .returned hlane (by simp) [.failed i error] [(i, error)]
    · intro mark hmark
      rw [List.mem_singleton.mp hmark]
      exact sequenceAt_of_split hevents i List.mem_cons_self
    · refine .inr ⟨done, i, rest, error, hevents, ?_⟩
      rw [hmarks, List.append_assoc]
      rfl
    · rfl
  case h_3 => cases hstep

theorem inv_proceed {s t : State I H X} {id : I} (h : Inv cfg batch s)
    (hstep : step cfg batch s (.proceed id) = some t) : Inv cfg batch t := by
  have hinv := h.lanes id
  simp only [step] at hstep
  split at hstep
  case h_1 i rest hlane =>
    cases hstep
    rw [hlane] at hinv
    obtain ⟨done, hevents, hmarks⟩ := hinv
    have hplace := sequenceAt_of_split hevents
    have hnext := h.laneStep (nextEvent cfg batch rest) hlane (by simp)
      (.delivered i :: startMarks rest) [] ?_ ?_ ?_
    · simpa using hnext
    · intro mark hmark
      rcases List.mem_cons.mp hmark with rfl | hmark
      · exact hplace i List.mem_cons_self
      · exact place_startMarks (fun j hj => hplace j (List.mem_cons_of_mem _ hj)) mark hmark
    · apply LaneInv.next (done ++ [i])
      · rw [hevents, List.append_assoc]
        rfl
      · rw [hmarks, deliveries_concat, List.append_assoc, List.append_assoc]
        rfl
    · exact (failure_startMarks rest).symm
  case h_2 => cases hstep

theorem inv_step {s t : State I H X} {a : Action I X} (h : Inv cfg batch s)
    (hstep : step cfg batch s a = some t) : Inv cfg batch t := by
  cases a with
  | settle id error => exact inv_settle h hstep
  | proceed id => exact inv_proceed h hstep
  | finish =>
      simp only [step] at hstep
      split_ifs at hstep with hdone
      cases hstep
      refine ⟨h.lanes, h.failures, h.keys, h.placed, ?_⟩
      intro result hresult
      refine ⟨?_, (Option.some.inj hresult).symm⟩
      intro id lane hlane
      have hall :=
        List.all_eq_true.mp (Bool.and_eq_true_iff.mp hdone).2 _ (OrderedMap.mem_of_get hlane)
      cases lane with
      | delivering i calls rest => cases hall
      | returned => rfl

/-! ## How the batch settles -/

omit [DecidableEq I] in
theorem earliest_spec (first : ℕ × X) (failures : List (ℕ × X)) :
    earliest first failures ∈ first :: failures ∧
      ∀ f ∈ first :: failures, (earliest first failures).1 ≤ f.1 := by
  induction failures generalizing first with
  | nil => simp [earliest]
  | cons f failures ih =>
      obtain ⟨hmem, hle⟩ := ih (if f.1 < first.1 then f else first)
      have hfold : earliest first (f :: failures) =
          earliest (if f.1 < first.1 then f else first) failures := rfl
      rw [hfold]
      have hhead := hle _ List.mem_cons_self
      constructor
      · rcases List.mem_cons.mp hmem with heq | hmem
        · rw [heq]
          split_ifs
          · simp
          · simp
        · exact List.mem_cons_of_mem _ (List.mem_cons_of_mem _ hmem)
      · intro g hg
        rcases List.mem_cons.mp hg with rfl | hg
        · split_ifs at hhead ⊢ with hlt
          · omega
          · omega
        · rcases List.mem_cons.mp hg with rfl | hg
          · split_ifs at hhead ⊢ with hlt
            · omega
            · omega
          · exact hle g (List.mem_cons_of_mem _ hg)

omit [DecidableEq I] in
theorem failed_not_mem_deliveries (events : List ℕ) (i : ℕ) (error : X) :
    Mark.failed i error ∉ deliveries events := by
  simp [deliveries]

/-- A sequence has at most one failure. -/
theorem LaneInv.failed_unique {events : List ℕ} {marks : List (Mark X)} {lane : Option (Lane H)}
    (h : LaneInv events marks lane) {i j : ℕ} {e f : X} (hi : .failed i e ∈ marks)
    (hj : .failed j f ∈ marks) : i = j ∧ e = f := by
  have hstop : StoppedAt events marks := by
    cases lane with
    | none => rw [h.2] at hi; cases hi
    | some lane =>
        cases lane with
        | delivering k calls rest =>
            obtain ⟨done, -, rfl⟩ := h
            simp [deliveries] at hi
        | returned =>
            rcases h with rfl | hstop
            · exact absurd hi (failed_not_mem_deliveries _ _ _)
            · exact hstop
  obtain ⟨done, k, rest, error, -, rfl⟩ := hstop
  have honly : ∀ l g, .failed l g ∈ deliveries done ++ [.started k, .failed k error] →
      l = k ∧ g = error := by
    intro l g hmem
    rcases List.mem_append.mp hmem with hmem | hmem
    · exact absurd hmem (failed_not_mem_deliveries _ _ _)
    · simpa using hmem
  obtain ⟨rfl, rfl⟩ := honly i e hi
  obtain ⟨rfl, rfl⟩ := honly j f hj
  exact ⟨rfl, rfl⟩

theorem Inv.failed_unique {s : State I H X} (h : Inv cfg batch s) {i : ℕ} {e f : X}
    (he : .failed i e ∈ s.trace) (hf : .failed i f ∈ s.trace) : e = f := by
  obtain ⟨id, hid⟩ := h.placed _ he
  have hmem : ∀ error, .failed i error ∈ s.trace →
      .failed i error ∈ marksOf cfg batch id s.trace := by
    intro error hmem
    exact List.mem_filter.mpr ⟨hmem, decide_eq_true hid⟩
  exact ((h.lanes id).failed_unique (hmem e he) (hmem f hf)).2

theorem Inv.mem_failures {s : State I H X} (h : Inv cfg batch s) {i : ℕ} {error : X} :
    (i, error) ∈ s.failures ↔ .failed i error ∈ s.trace := by
  rw [h.failures, List.mem_filterMap]
  constructor
  · rintro ⟨mark, hmark, hfailure⟩
    cases mark with
    | started j => cases hfailure
    | delivered j => cases hfailure
    | failed j e =>
        cases hfailure
        exact hmark
  · intro hmark
    exact ⟨_, hmark, rfl⟩

/-- The batch's result: no failure, or the failure at the earliest place. -/
def ResultOf (trace : List (Mark X)) (result : Except X Unit) : Prop :=
  (result = .ok () ∧ ∀ i error, .failed i error ∉ trace) ∨
    ∃ i error, result = .error error ∧ .failed i error ∈ trace ∧
      ∀ j other, .failed j other ∈ trace → (j = i ∧ other = error) ∨ i < j

theorem Inv.resultOf {s : State I H X} (h : Inv cfg batch s) :
    ResultOf s.trace (verdict s.failures) := by
  cases hfailures : s.failures with
  | nil =>
      refine .inl ⟨rfl, ?_⟩
      intro i error hmem
      rw [← h.mem_failures, hfailures] at hmem
      cases hmem
  | cons first failures =>
      obtain ⟨hmem, hle⟩ := earliest_spec first failures
      rw [← hfailures] at hmem hle
      have hfailed := h.mem_failures.mp hmem
      refine .inr ⟨_, _, rfl, hfailed, ?_⟩
      intro j other hother
      have hplace := hle _ (h.mem_failures.mpr hother)
      rcases Nat.lt_or_eq_of_le hplace with hlt | heq
      · exact .inr hlt
      · refine .inl ⟨heq.symm, ?_⟩
        change _ = j at heq
        subst heq
        exact h.failed_unique hother hfailed

/-- Some lane can go on, or the batch can settle. -/
theorem Inv.exists_step {s : State I H X} (h : Inv cfg batch s) (hsettled : s.settled = none) :
    ∃ a t, step cfg batch s a = some t := by
  by_cases hall : s.lanes.all (fun lane => lane.2.isReturned) = true
  · refine ⟨.finish, { s with settled := some (verdict s.failures) }, ?_⟩
    simp only [step, hsettled, hall, Option.isNone_none, Bool.and_self, if_true]
  · simp only [List.all_eq_true, not_forall] at hall
    obtain ⟨⟨id, lane⟩, hmem, hactive⟩ := hall
    have hget := OrderedMap.get_of_mem h.keys hmem
    cases lane with
    | returned => exact absurd rfl hactive
    | delivering i calls rest =>
        cases calls with
        | nil =>
            have hsome : (step cfg batch s (.proceed id)).isSome = true := by simp [step, hget]
            exact ⟨_, Option.isSome_iff_exists.mp hsome⟩
        | cons call calls =>
            have hsome : (step cfg batch s (.settle id none)).isSome = true := by simp [step, hget]
            exact ⟨_, Option.isSome_iff_exists.mp hsome⟩

/-- In every run: each sequence has its events delivered one after another in log
order up to the first that fails, and no further. Once the batch has settled every
sequence has ended, by its last event or by a failure of its own, and the result
is the failure at the earliest place, if there is one. -/
theorem delivered_side_by_side {s : State I H X}
    (hs : Reach (step cfg batch) always (initial cfg batch) s) :
    (∀ id, marksOf cfg batch id s.trace = deliveries (sequenceEvents cfg batch id) ∨
      UnderWay (sequenceEvents cfg batch id) (marksOf cfg batch id s.trace) ∨
      StoppedAt (sequenceEvents cfg batch id) (marksOf cfg batch id s.trace)) ∧
    (∀ mark ∈ s.trace, ∃ id, mark ∈ marksOf cfg batch id s.trace) ∧
    (s.settled = none → ∃ a t, step cfg batch s a = some t) ∧
    ∀ result, s.settled = some result →
      (∀ id, marksOf cfg batch id s.trace = deliveries (sequenceEvents cfg batch id) ∨
        StoppedAt (sequenceEvents cfg batch id) (marksOf cfg batch id s.trace)) ∧
      ResultOf s.trace result := by
  have hinv : Inv cfg batch s :=
    hs.invariant inv_initial fun _ _ _ _ hinv _ hstep => inv_step hinv hstep
  refine ⟨?_, ?_, hinv.exists_step, ?_⟩
  · intro id
    have hlane := hinv.lanes id
    cases hget : OrderedMap.get id s.lanes with
    | none =>
        rw [hget] at hlane
        rw [hlane.1, hlane.2]
        exact .inl rfl
    | some lane =>
        rw [hget] at hlane
        cases lane with
        | delivering i calls rest =>
            obtain ⟨done, hevents, hmarks⟩ := hlane
            exact .inr (.inl ⟨done, i, rest, hevents, hmarks⟩)
        | returned =>
            rcases hlane with hall | hstop
            · exact .inl hall
            · exact .inr (.inr hstop)
  · intro mark hmark
    obtain ⟨id, hid⟩ := hinv.placed mark hmark
    exact ⟨id, List.mem_filter.mpr ⟨hmark, decide_eq_true hid⟩⟩
  · intro result hresult
    obtain ⟨hreturned, rfl⟩ := hinv.settled result hresult
    refine ⟨?_, hinv.resultOf⟩
    intro id
    have hlane := hinv.lanes id
    cases hget : OrderedMap.get id s.lanes with
    | none =>
        rw [hget] at hlane
        rw [hlane.1, hlane.2]
        exact .inl rfl
    | some lane =>
        rw [hget, hreturned id lane hget] at hlane
        exact hlane

end Runs

/-- Three events with one handler each, the first and the last of one sequence. -/
def threeEvents : Config ℕ ℕ ℕ := ⟨fun _ => some [0], false, fun event => event % 2⟩

/-- The other sequence fails first, at the second event; then the first event fails. -/
def bothFail : List (Action ℕ String) :=
  [.settle 1 (some "second"), .settle 0 (some "first"), .finish]

theorem delivered_when_both_fail : ∃ s : State ℕ ℕ String,
    s.settled = some (.error "first") ∧ ResultOf s.trace (.error "first") := by
  obtain ⟨s, hs, hsettled⟩ := reach_exec_any
    (P := fun s : State ℕ ℕ String => s.settled = some (.error "first"))
    (show ((exec (step threeEvents ⟨[0, 1, 2], [true, true, true]⟩)
      (initial threeEvents ⟨[0, 1, 2], [true, true, true]⟩) bothFail).any fun s => decide _) = true
      by decide +kernel)
  exact ⟨s, hsettled, ((delivered_side_by_side hs).2.2.2 _ hsettled).2⟩

end Kronos.Processing.SideBySide
