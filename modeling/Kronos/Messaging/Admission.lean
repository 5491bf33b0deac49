import Mathlib.Algebra.Order.Ring.Int
import Mathlib.Data.List.Nodup
import Kronos.Lib.Slots
import Kronos.Lib.Transition

/-!
# Messaging admission

A bus or a transport admits a request, or refuses it at once: there is no queue to
wait in. What it admits holds a handle until the request is over, and a request that
names itself is refused while another of its name is pending.

The handles are kept in the order they were given out. The observer, whose failures
are caught, and the texts of the two refusals are left out.
-/
namespace Kronos.Messaging
open Kronos.Lib.Slots Kronos.Lib.Transition

variable {R : Type} [DecidableEq R]

/-- What `enter` returns, with the variables of its closure. -/
structure Handle (R : Type) where
  identifier : Option R
  ended : Bool
  deriving DecidableEq, Repr

inductive Refusal where
  | alreadyPending
  | overloaded
  deriving DecidableEq, Repr

structure Admission (R : Type) where
  limit : ℕ
  identifiers : List R
  active : ℤ
  peak : ℤ
  accepted : ℕ
  rejected : ℕ
  completed : ℕ
  deriving DecidableEq, Repr

/-- `messagingAdmission`; `none` where `positiveInteger` throws. -/
def messagingAdmission (R : Type) (limit : ℕ) : Option (Admission R) :=
  if 0 < limit ∧ limit ≤ 9007199254740991 then some ⟨limit, [], 0, 0, 0, 0, 0⟩ else none

namespace Admission
variable (a : Admission R)

def refuse : Admission R := { a with rejected := a.rejected + 1 }

def enter (identifier : Option R) : Admission R × Except Refusal (Handle R) :=
  if identifier.any (· ∈ a.identifiers) then (a.refuse, .error .alreadyPending)
  else if (a.limit : ℤ) ≤ a.active then (a.refuse, .error .overloaded)
  else
    ({ a with
        identifiers := a.identifiers ++ identifier.toList
        active := a.active + 1
        accepted := a.accepted + 1
        peak := max a.peak (a.active + 1) },
      .ok ⟨identifier, false⟩)

/-- `end` of a handle. -/
def «end» (handle : Handle R) : Admission R × Handle R :=
  if handle.ended then (a, handle)
  else
    ({ a with
        identifiers := a.identifiers.filter fun identifier => handle.identifier ≠ some identifier
        active := a.active - 1
        completed := a.completed + 1 },
      { handle with ended := true })

end Admission

structure AdmissionState (R : Type) where
  admission : Admission R
  handles : List (Handle R)
  deriving DecidableEq, Repr

inductive AdmissionAction (R : Type) where
  | enter (identifier : Option R)
  | end (handle : ℕ)
  deriving DecidableEq, Repr

namespace Admission

def step (s : AdmissionState R) : AdmissionAction R → Option (AdmissionState R)
  | .enter identifier =>
      match s.admission.enter identifier with
      | (admission, .ok handle) => some ⟨admission, s.handles ++ [handle]⟩
      | (admission, .error _) => some { s with admission }
  | .end k =>
      match s.handles[k]? with
      | none => none
      | some handle => some ⟨(s.admission.end handle).1, s.handles.set k (s.admission.end handle).2⟩

/-- An admission none of whose handles is out. -/
def start (admission : Admission R) : AdmissionState R := ⟨admission, []⟩

end Admission

/-! ## The invariant -/

/-- It holds a place. -/
def Handle.live (handle : Handle R) : Bool := !handle.ended

/-- What the counters say of the handles given out. -/
structure Admission.Inv (limit : ℕ) (s : AdmissionState R) : Prop where
  limit : s.admission.limit = limit
  active : s.admission.active = (s.handles.countP Handle.live : ℤ)
  bounded : s.admission.active ≤ s.admission.limit
  peak : s.admission.active ≤ s.admission.peak ∧ s.admission.peak ≤ s.admission.limit
  accepted : s.admission.accepted = s.handles.length
  completed : (s.admission.accepted : ℤ) = s.admission.active + s.admission.completed
  named : ∀ identifier, identifier ∈ s.admission.identifiers ↔
    ∃ k : ℕ, s.handles[k]? = some ⟨some identifier, false⟩
  alone : ∀ {j k : ℕ} {identifier : R}, s.handles[j]? = some ⟨some identifier, false⟩ →
    s.handles[k]? = some ⟨some identifier, false⟩ → j = k

namespace Admission
section Steps
variable {limit : ℕ} {admission : Admission R} {s t : AdmissionState R}

omit [DecidableEq R] in
theorem inv_start (h : messagingAdmission R limit = some admission) :
    Inv limit (start admission) := by
  unfold messagingAdmission at h
  split_ifs at h with hlimit
  obtain rfl := Option.some.inj h
  refine ⟨rfl, rfl, Int.natCast_nonneg _, ⟨le_rfl, Int.natCast_nonneg _⟩, rfl, rfl, ?_, nofun⟩
  intro identifier
  exact ⟨nofun, fun ⟨k, hk⟩ => absurd hk nofun⟩

/-- What `enter` does: it refuses and only counts that, or a handle takes a place that is free. -/
theorem enter_cases (a : Admission R) (identifier : Option R) :
    (∃ refusal, a.enter identifier = (a.refuse, .error refusal)) ∨
      ((∀ name ∈ identifier, name ∉ a.identifiers) ∧ a.active < a.limit ∧
        a.enter identifier =
          ({ a with
              identifiers := a.identifiers ++ identifier.toList
              active := a.active + 1
              accepted := a.accepted + 1
              peak := max a.peak (a.active + 1) },
            .ok ⟨identifier, false⟩)) := by
  unfold enter
  split_ifs with hpending hfull
  · exact .inl ⟨_, rfl⟩
  · exact .inl ⟨_, rfl⟩
  · refine .inr ⟨fun name hname hmem => hpending ?_, not_le.mp hfull, rfl⟩
    obtain rfl := Option.mem_def.mp hname
    simpa using hmem

theorem Inv.enter (hi : Inv limit s) (identifier : Option R)
    (h : step s (.enter identifier) = some t) : Inv limit t := by
  rcases enter_cases s.admission identifier with ⟨refusal, hrefused⟩ | ⟨hnew, hfree, hadmitted⟩
  · simp only [step, hrefused] at h
    obtain rfl := Option.some.inj h
    exact { hi with }
  · simp only [step, hadmitted] at h
    obtain rfl := Option.some.inj h
    refine ⟨hi.limit, ?_, hfree, ⟨le_max_right _ _, max_le hi.peak.2 hfree⟩, ?_, ?_,
      fun name => ⟨fun hname => ?_, ?_⟩, ?_⟩
    · rw [List.countP_append, Nat.cast_add, ← hi.active]
      rfl
    · rw [List.length_append, ← hi.accepted]
      rfl
    · have hcompleted := hi.completed
      push_cast
      omega
    · rcases List.mem_append.mp hname with hold | hnow
      · obtain ⟨k, hk⟩ := (hi.named name).mp hold
        exact ⟨k, getElem?_append_of_some hk⟩
      · rw [Option.mem_toList] at hnow
        rw [Option.mem_def.mp hnow]
        exact ⟨_, List.getElem?_concat_length⟩
    · rintro ⟨k, hk⟩
      rcases getElem?_concat_cases hk with ⟨-, hnow⟩ | hold
      · exact List.mem_append_right _ (Option.mem_toList.mpr (congrArg Handle.identifier hnow).symm)
      · exact List.mem_append_left _ ((hi.named name).mpr ⟨k, hold⟩)
    · intro j k name hj hk
      rcases getElem?_concat_cases hj with ⟨rfl, hnow⟩ | hold
      · rcases getElem?_concat_cases hk with ⟨rfl, -⟩ | hother
        · rfl
        · exact absurd ((hi.named name).mpr ⟨k, hother⟩)
            (hnew name (congrArg Handle.identifier hnow).symm)
      · rcases getElem?_concat_cases hk with ⟨-, hnow⟩ | hother
        · exact absurd ((hi.named name).mpr ⟨j, hold⟩)
            (hnew name (congrArg Handle.identifier hnow).symm)
        · exact hi.alone hold hother

theorem Inv.end (hi : Inv limit s) (k : ℕ) (h : step s (.end k) = some t) : Inv limit t := by
  cases hhandle : s.handles[k]? with
  | none => simp only [step, hhandle, reduceCtorEq] at h
  | some handle =>
      simp only [step, hhandle] at h
      obtain rfl := Option.some.inj h
      unfold Admission.end
      split_ifs with hended
      · rw [set_of_some hhandle]
        exact hi
      · obtain ⟨identifier, ended⟩ := handle
        obtain rfl : ended = false := Bool.eq_false_iff.mpr hended
        have hcount := countP_set_of_some hhandle (⟨identifier, true⟩ : Handle R) Handle.live
        have hactive := hi.active
        have hcompleted := hi.completed
        simp only [Handle.live, Bool.not_false, Bool.not_true, Bool.toNat_true,
          Bool.toNat_false] at hcount
        have hlive : ∀ {j : ℕ} {name : R},
            (s.handles.set k ⟨identifier, true⟩)[j]? = some ⟨some name, false⟩ →
            j ≠ k ∧ s.handles[j]? = some ⟨some name, false⟩ := by
          intro j name hj
          rcases getElem?_set_cases hj with ⟨-, hnow⟩ | hold
          · cases hnow
          · exact hold
        refine ⟨hi.limit, ?_, ?_, ⟨?_, hi.peak.2⟩, ?_, ?_, fun name => ⟨fun hname => ?_, ?_⟩, ?_⟩
        · show s.admission.active - 1 =
            ((s.handles.set k ⟨identifier, true⟩).countP Handle.live : ℤ)
          omega
        · exact (sub_le_self _ (by decide)).trans hi.bounded
        · exact (sub_le_self _ (by decide)).trans hi.peak.1
        · rw [List.length_set]
          exact hi.accepted
        · push_cast
          omega
        · obtain ⟨hmem, hother⟩ := List.mem_filter.mp hname
          obtain ⟨j, hj⟩ := (hi.named name).mp hmem
          refine ⟨j, getElem?_set_of_ne ?_ hj⟩
          rintro rfl
          rw [hhandle] at hj
          cases hj
          simp at hother
        · rintro ⟨j, hj⟩
          obtain ⟨hne, hold⟩ := hlive hj
          refine List.mem_filter.mpr ⟨(hi.named name).mpr ⟨j, hold⟩, decide_eq_true ?_⟩
          rintro rfl
          exact hne (hi.alone hold hhandle)
        · intro i j name hj hk
          exact hi.alone (hlive hj).2 (hlive hk).2

theorem inv_step {action : AdmissionAction R} (hi : Inv limit s) (h : step s action = some t) :
    Inv limit t := by
  cases action with
  | enter identifier => exact hi.enter identifier h
  | «end» k => exact hi.end k h

theorem inv_of_reach (h : messagingAdmission R limit = some admission)
    (hreach : Reach step always (start admission) s) : Inv limit s :=
  hreach.invariant (inv_start h) fun _ _ _ _ hi _ hs => inv_step hi hs

end Steps

/-- The counters tell exactly which requests hold a place: those admitted and not ended, which are
never more than the limit, and of those that name themselves no two have one name. -/
theorem places_are_held_by_those_admitted (limit : ℕ) (admission : Admission R)
    (h : messagingAdmission R limit = some admission) (s : AdmissionState R)
    (hreach : Reach step always (start admission) s) :
    s.admission.active = (s.handles.countP Handle.live : ℤ) ∧ s.handles.countP Handle.live ≤ limit ∧
      s.admission.accepted = s.handles.length ∧ s.admission.completed = s.handles.countP (·.ended) ∧
      (∀ identifier, identifier ∈ s.admission.identifiers ↔ ⟨some identifier, false⟩ ∈ s.handles) ∧
      ∀ (j k : ℕ) (identifier : R), s.handles[j]? = some ⟨some identifier, false⟩ →
        s.handles[k]? = some ⟨some identifier, false⟩ → j = k := by
  have hi := inv_of_reach h hreach
  have hbounded := hi.bounded
  have hactive := hi.active
  refine ⟨hactive, ?_, hi.accepted, ?_, fun identifier => ?_, fun _ _ _ => hi.alone⟩
  · rw [hi.limit] at hbounded
    omega
  · have hcompleted := hi.completed
    have hlength := List.length_eq_countP_add_countP (l := s.handles) Handle.live
    have hended : s.handles.countP (fun handle => decide ¬handle.live = true) =
        s.handles.countP (·.ended) := by
      refine List.countP_congr fun handle _ => ?_
      simp [Handle.live]
    rw [hended, ← hi.accepted] at hlength
    omega
  · rw [hi.named, List.mem_iff_getElem?]

/-- Two requests of one name: the second is refused while the first is pending. -/
theorem second_of_a_name_waits_for_the_first : ∃ s : AdmissionState Char,
    s.admission.rejected = 1 ∧ s.admission.completed = 1 ∧ s.handles.countP Handle.live ≤ 8 := by
  obtain ⟨s, hs, hrejected, hcompleted⟩ :=
    reach_exec_any (s := (start ⟨8, [], 0, 0, 0, 0, 0⟩ : AdmissionState Char))
    (P := fun s => s.admission.rejected = 1 ∧ s.admission.completed = 1)
    (show ((exec step (start ⟨8, [], 0, 0, 0, 0, 0⟩) [.enter (some 'a'), .enter (some 'a'),
      .end 0, .end 0,
      .enter (some 'a')]).any fun s => decide _) = true by decide)
  have hplaces := places_are_held_by_those_admitted 8 ⟨8, [], 0, 0, 0, 0, 0⟩ (by decide) s hs
  exact ⟨s, hrejected, hcompleted, hplaces.2.1⟩

end Admission

end Kronos.Messaging
