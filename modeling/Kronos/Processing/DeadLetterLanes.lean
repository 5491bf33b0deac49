import Mathlib.Data.Int.Notation
import Mathlib.Algebra.Order.Ring.Int
import Mathlib.Order.WithBot
import Mathlib.Data.List.Nodup
import Kronos.Lib.OrderedMap
import Kronos.Lib.RunningMinimum

/-!
# Which lane of the in-memory dead letter queue is walked

`process` goes over the lanes of a group and takes the one whose head was
touched least recently, among those that have letters, that no walk is at and
that the filter accepts. The walks in progress are known by the texts
`group:lane`. What a walk then does with its lane is `DeadLetterQueue`; it
returns true or throws.
-/
namespace Kronos.Processing.DeadLetterLanes
open Kronos.Lib Kronos.Lib.RunningMinimum

variable {M : Type}

/-- Times are milliseconds as `Date.now` gives them. The content is what only the filter
and the replay look at. -/
structure DeadLetter (M : Type) where
  lastTouched : ℤ
  content : M
  deriving DecidableEq, Repr

/-- A lane of a group's map. -/
abbrev Lane (M : Type) := String × List (DeadLetter M)

/-- The text under which a walk of a lane is known. -/
def joined (walk : String × String) : String := walk.1 ++ ":" ++ walk.2

structure Queue (M : Type) where
  groups : List (String × List (Lane M))
  processing : List String
  /-- The walks in progress, each with its group and lane. -/
  walks : List (String × String)
  lanes_nodup : ∀ group ∈ groups, (group.2.map Prod.fst).Nodup
  walks_nodup : (walks.map joined).Nodup
  mem_processing : ∀ key, key ∈ processing ↔ key ∈ walks.map joined

namespace Queue
variable (q : Queue M)

/-- A group that has no map yet gets an empty one. -/
def lanes (group : String) : List (Lane M) := (OrderedMap.get group q.groups).getD []

/-- A walk begins where none is known under its text. -/
def begins (walk : String × String) (h : joined walk ∉ q.processing) : Queue M where
  groups := q.groups
  processing := joined walk :: q.processing
  walks := walk :: q.walks
  lanes_nodup := q.lanes_nodup
  walks_nodup := by
    rw [List.map_cons, List.nodup_cons, ← q.mem_processing]
    exact ⟨h, q.walks_nodup⟩
  mem_processing := by
    intro key
    rw [List.map_cons, List.mem_cons, List.mem_cons, q.mem_processing]

/-- A walk ends, and only its own text goes. -/
def ends (walk : String × String) : Queue M where
  groups := q.groups
  processing := if walk ∈ q.walks then q.processing.filter (· ≠ joined walk) else q.processing
  walks := q.walks.erase walk
  lanes_nodup := q.lanes_nodup
  walks_nodup := q.walks_nodup.sublist (List.erase_sublist.map joined)
  mem_processing := by
    intro key
    split_ifs with hwalk
    · have hperm := (List.perm_cons_erase hwalk).map joined
      have hnodup := hperm.nodup_iff.mp q.walks_nodup
      rw [List.map_cons, List.nodup_cons] at hnodup
      simp only [List.mem_filter, decide_eq_true_eq, q.mem_processing, hperm.mem_iff, List.map_cons,
        List.mem_cons]
      constructor
      · rintro ⟨rfl | hkey, hne⟩
        · exact absurd rfl hne
        · exact hkey
      · intro hkey
        exact ⟨.inr hkey, fun heq => hnodup.1 (heq ▸ hkey)⟩
    · rw [q.mem_processing, List.erase_of_not_mem hwalk]

end Queue

/-- `sequenceFilter`, asked with the lane and its head. -/
abbrev Filter (M : Type) := String → DeadLetter M → Bool

/-- A time, or `Infinity`. -/
def Time : Type := WithTop ℤ

instance : LinearOrder Time := @WithTop.linearOrder ℤ Int.instLinearOrder

def Time.infinity : Time := (⊤ : WithTop ℤ)

def Time.at (t : ℤ) : Time := (t : WithTop ℤ)

theorem Time.at_lt_infinity (t : ℤ) : Time.at t < Time.infinity := WithTop.coe_lt_top t

/-- One round of the loop: the lane found so far, and the time its head was touched. -/
def consider (q : Queue M) (group : String) (sequenceFilter : Filter M)
    (oldest : Option String × Time) (lane : Lane M) : Option String × Time :=
  if joined (group, lane.1) ∈ q.processing then oldest
  else
    match lane.2 with
    | [] => oldest
    | head :: _ =>
        if sequenceFilter lane.1 head then
          if .at head.lastTouched < oldest.2 then (some lane.1, .at head.lastTouched) else oldest
        else oldest

inductive Outcome (M : Type) where
  /-- `process` returns false and replays nothing. -/
  | none
  | walks (lane : String) (snapshot : List (DeadLetter M))
  deriving DecidableEq, Repr

/-- `process` up to the first replay. -/
def process (q : Queue M) (group : String) (sequenceFilter : Filter M) : Outcome M :=
  match ((q.lanes group).foldl (consider q group sequenceFilter) (none, .infinity)).1 with
  | none => .none
  | some oldestId =>
      -- `if (!oldestId)`
      if oldestId = "" then .none
      else
        match OrderedMap.get oldestId (q.lanes group) with
        | none => .none
        | some letters => .walks oldestId letters

/-! ## The lanes it should choose from -/

/-- A lane with letters whose head the filter accepts. -/
def passes (sequenceFilter : Filter M) (lane : Lane M) : Bool :=
  lane.2.head?.any (sequenceFilter lane.1)

/-- When the head was touched. -/
def touched (lane : Lane M) : Time :=
  match lane.2 with
  | [] => .infinity
  | head :: _ => .at head.lastTouched

/-- The lanes that pass and that no walk is at. -/
def candidates (q : Queue M) (group : String) (sequenceFilter : Filter M) : List (Lane M) :=
  (q.lanes group).filter fun lane =>
    decide ((group, lane.1) ∉ q.walks) && passes sequenceFilter lane

/-- `process` picks the right lane. -/
def Right (q : Queue M) (group : String) (sequenceFilter : Filter M) : Prop :=
  (process q group sequenceFilter = .none ↔ candidates q group sequenceFilter = []) ∧
    ∀ lane snapshot, process q group sequenceFilter = .walks lane snapshot →
      (lane, snapshot) ∈ candidates q group sequenceFilter ∧
        ∀ other ∈ candidates q group sequenceFilter, touched (lane, snapshot) ≤ touched other

/-- The candidates whose text is not that of a walk of another lane. -/
def untaken (q : Queue M) (group : String) (sequenceFilter : Filter M) : List (Lane M) :=
  (candidates q group sequenceFilter).filter fun lane =>
    decide (joined (group, lane.1) ∉ q.processing)

/-- Of the untaken candidates the first among the oldest has a name, and no taken one is older. -/
def Findable (q : Queue M) (group : String) (sequenceFilter : Filter M) : Prop :=
  ∃ lane, FirstLeast touched (untaken q group sequenceFilter) lane ∧ lane.1 ≠ "" ∧
    ∀ other ∈ candidates q group sequenceFilter, touched lane ≤ touched other

section Choice
variable {q : Queue M} {group : String} {sequenceFilter : Filter M}

theorem lanes_nodup (q : Queue M) (group : String) : ((q.lanes group).map Prod.fst).Nodup := by
  unfold Queue.lanes
  cases hget : OrderedMap.get group q.groups with
  | none => exact List.nodup_nil
  | some lanes => exact q.lanes_nodup _ (OrderedMap.mem_of_get hget)

theorem mem_walks_joined {lane : String} (h : (group, lane) ∈ q.walks) :
    joined (group, lane) ∈ q.processing :=
  (q.mem_processing _).mpr (List.mem_map_of_mem h)

theorem untaken_eq : untaken q group sequenceFilter = (q.lanes group).filter fun lane =>
    decide (joined (group, lane.1) ∉ q.processing) && passes sequenceFilter lane := by
  unfold untaken candidates
  rw [List.filter_filter]
  refine List.filter_congr fun lane _ => ?_
  by_cases hfree : joined (group, lane.1) ∈ q.processing
  · simp [hfree]
  · have hwalk : (group, lane.1) ∉ q.walks := fun hwalk => hfree (mem_walks_joined hwalk)
    simp [hfree, hwalk]

/-- A lane that is taken or does not pass is skipped. -/
theorem consider_eq (oldest : Option String × Time) (lane : Lane M) :
    consider q group sequenceFilter oldest lane =
      if decide (joined (group, lane.1) ∉ q.processing) && passes sequenceFilter lane then
        if touched lane < oldest.2 then (some lane.1, touched lane) else oldest
      else oldest := by
  obtain ⟨id, letters⟩ := lane
  unfold consider
  by_cases htaken : joined (group, id) ∈ q.processing
  · simp [htaken]
  · cases letters with
    | nil => simp [htaken, passes]
    | cons head letters =>
        cases hpass : sequenceFilter id head with
        | false => simp [htaken, passes, hpass]
        | true =>
            simp only [htaken, passes, hpass, List.head?_cons, Option.any_some, not_false_eq_true,
              decide_true, Bool.and_self, if_true, if_false]
            rfl

/-- The loop keeps the first of the least touched. -/
theorem foldl_consider (q : Queue M) (group : String) (sequenceFilter : Filter M)
    (lanes : List (Lane M)) (best : Option (Lane M) × Time) :
    lanes.foldl (consider q group sequenceFilter) (best.1.map Prod.fst, best.2) =
      (((lanes.filter fun lane =>
          decide (joined (group, lane.1) ∉ q.processing) && passes sequenceFilter lane).foldl
        (keepLess touched) best).1.map Prod.fst,
      ((lanes.filter fun lane =>
          decide (joined (group, lane.1) ∉ q.processing) && passes sequenceFilter lane).foldl
        (keepLess touched) best).2) := by
  induction lanes generalizing best with
  | nil => rfl
  | cons lane lanes ih =>
      rw [List.foldl_cons, consider_eq, List.filter_cons]
      split_ifs with hpass hless
      · rw [List.foldl_cons, keepLess, if_pos hless]
        exact ih (some lane, touched lane)
      · rw [List.foldl_cons, keepLess, if_neg hless]
        exact ih best
      · exact ih best

theorem touched_lt_infinity {lane : Lane M} (h : passes sequenceFilter lane = true) :
    touched lane < .infinity := by
  obtain ⟨id, letters⟩ := lane
  cases letters with
  | nil => cases h
  | cons head letters => exact Time.at_lt_infinity _

/-- The loop finds nothing when nothing is untaken, else the first of the least touched. -/
theorem process_cases (q : Queue M) (group : String) (sequenceFilter : Filter M) :
    (untaken q group sequenceFilter = [] ∧ process q group sequenceFilter = .none) ∨
      ∃ lane, FirstLeast touched (untaken q group sequenceFilter) lane ∧
        process q group sequenceFilter = if lane.1 = "" then .none else .walks lane.1 lane.2 := by
  have hfold := foldl_consider q group sequenceFilter (q.lanes group) (none, .infinity)
  rw [← untaken_eq] at hfold
  rcases foldl_keepLess (f := touched) (untaken q group sequenceFilter) (none, .infinity) with
    ⟨lane, hleast, -, hfound⟩ | ⟨hall, hfound⟩
  · refine .inr ⟨lane, hleast, ?_⟩
    have hmem : lane ∈ q.lanes group := by
      have hmem := hleast.mem
      rw [untaken_eq] at hmem
      exact List.mem_of_mem_filter hmem
    unfold process
    rw [show (none, Time.infinity) = (Option.map Prod.fst (none : Option (Lane M)),
      .infinity) from rfl, hfold,
      hfound]
    simp only [Option.map_some, OrderedMap.get_of_mem (lanes_nodup q group) hmem]
  · left
    have hnone : untaken q group sequenceFilter = [] := by
      rw [List.eq_nil_iff_forall_not_mem]
      intro lane hlane
      have hpass : passes sequenceFilter lane = true := by
        rw [untaken_eq, List.mem_filter, Bool.and_eq_true] at hlane
        exact hlane.2.2
      exact absurd (touched_lt_infinity hpass) (hall lane hlane).not_gt
    refine ⟨hnone, ?_⟩
    unfold process
    rw [show (none, Time.infinity) = (Option.map Prod.fst (none : Option (Lane M)),
      .infinity) from rfl, hfold,
      hfound]
    rfl

theorem mem_candidates_of_untaken {lane : Lane M} (h : lane ∈ untaken q group sequenceFilter) :
    lane ∈ candidates q group sequenceFilter :=
  List.mem_of_mem_filter h

/-- A walk only begins under a text that is free. -/
theorem process_free {lane : String} {snapshot : List (DeadLetter M)}
    (h : process q group sequenceFilter = .walks lane snapshot) :
    joined (group, lane) ∉ q.processing := by
  rcases process_cases q group sequenceFilter with ⟨-, hnone⟩ | ⟨found, hleast, hfound⟩
  · rw [hnone] at h
    cases h
  · rw [hfound] at h
    split_ifs at h
    cases h
    have hmem := hleast.mem
    unfold untaken at hmem
    exact of_decide_eq_true (List.mem_filter.mp hmem).2

end Choice

/-- `process` picks the right lane exactly when there is none to pick, or the lane its loop
can find is as old as any and has a name. -/
theorem process_right_iff (q : Queue M) (group : String) (sequenceFilter : Filter M) :
    Right q group sequenceFilter ↔
      candidates q group sequenceFilter = [] ∨ Findable q group sequenceFilter := by
  rcases process_cases q group sequenceFilter with ⟨hempty, hnone⟩ | ⟨lane, hleast, hfound⟩
  · constructor
    · intro hright
      exact .inl (hright.1.mp hnone)
    · rintro (hcandidates | ⟨lane, hleast, -⟩)
      · refine ⟨⟨fun _ => hcandidates, fun _ => hnone⟩, ?_⟩
        intro lane snapshot hwalks
        rw [hnone] at hwalks
        cases hwalks
      · rw [hempty] at hleast
        exact absurd hleast.mem List.not_mem_nil
  · have hcandidate := mem_candidates_of_untaken hleast.mem
    have hsome : candidates q group sequenceFilter ≠ [] := List.ne_nil_of_mem hcandidate
    by_cases hname : lane.1 = ""
    · rw [if_pos hname] at hfound
      constructor
      · intro hright
        exact absurd (hright.1.mp hfound) hsome
      · rintro (hcandidates | ⟨other, hother, hne, -⟩)
        · exact absurd hcandidates hsome
        · exact absurd (hother.unique hleast ▸ hname) hne
    · rw [if_neg hname] at hfound
      constructor
      · intro hright
        exact .inr ⟨lane, hleast, hname, (hright.2 lane.1 lane.2 hfound).2⟩
      · rintro (hcandidates | ⟨other, hother, -, hall⟩)
        · exact absurd hcandidates hsome
        · rw [hother.unique hleast] at hall
          refine ⟨⟨fun hnone => ?_, fun hcandidates => absurd hcandidates hsome⟩, ?_⟩
          · rw [hfound] at hnone
            cases hnone
          · intro walked snapshot hwalks
            rw [hfound] at hwalks
            cases hwalks
            exact ⟨hcandidate, hall⟩

/-- The lane with the empty name is never walked, and a walk of lane `b:c` of group `a`
hides lane `c` of group `a:b`. -/
theorem process_misses_lanes :
    ¬ Right (M := Unit) ⟨[("g", [("", [⟨0, ()⟩])])], [], [], by simp, by simp, by simp⟩ "g"
      (fun _ _ => true) ∧
      ¬ Right (M := Unit)
        ⟨[("a", [("b:c", [⟨0, ()⟩])]), ("a:b", [("c", [⟨0, ()⟩])])], ["a:b:c"], [("a", "b:c")],
          by simp, by simp, by simp [joined]⟩ "a:b" (fun _ _ => true) := by
  constructor
  · intro h
    exact absurd (h.1.mp (by decide)) (by decide)
  · intro h
    exact absurd (h.1.mp (by decide)) (by decide)

end Kronos.Processing.DeadLetterLanes
