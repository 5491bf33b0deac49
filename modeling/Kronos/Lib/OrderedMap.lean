import Mathlib.Data.List.Basic

/-!
# Maps in insertion order

A map is the list of its entries in the order their keys were first set.
Setting a key that is there replaces its value where it stands; a key that was
removed and is set again goes to the end.
-/
namespace Kronos.Lib.OrderedMap

variable {K V : Type} [DecidableEq K]

def get (k : K) : List (K × V) → Option V
  | [] => none
  | entry :: entries => if entry.1 = k then some entry.2 else get k entries

def set (k : K) (v : V) : List (K × V) → List (K × V)
  | [] => [(k, v)]
  | entry :: entries => if entry.1 = k then (k, v) :: entries else entry :: set k v entries

def delete (k : K) (entries : List (K × V)) : List (K × V) :=
  entries.filter fun entry => entry.1 ≠ k

theorem get_set_self (k : K) (v : V) (entries : List (K × V)) :
    get k (set k v entries) = some v := by
  induction entries with
  | nil => simp [set, get]
  | cons entry entries ih =>
      by_cases heq : entry.1 = k
      · simp [set, get, heq]
      · simpa [set, get, heq] using ih

theorem get_set_of_ne {k l : K} (hne : l ≠ k) (v : V) (entries : List (K × V)) :
    get l (set k v entries) = get l entries := by
  induction entries with
  | nil => simp [set, get, hne.symm]
  | cons entry entries ih =>
      by_cases heq : entry.1 = k
      · simp [set, get, heq, hne.symm]
      · simp only [set, get, heq, if_false]
        rw [ih]

/-- A key that is set has the new value, every other key its old one. -/
theorem get_set_cases {k l : K} {v w : V} {entries : List (K × V)}
    (h : get l (set k v entries) = some w) : (l = k ∧ w = v) ∨
    (l ≠ k ∧ get l entries = some w) := by
  rcases eq_or_ne l k with rfl | hne
  · rw [get_set_self] at h
    exact .inl ⟨rfl, (Option.some.inj h).symm⟩
  · rw [get_set_of_ne hne] at h
    exact .inr ⟨hne, h⟩

theorem mem_of_get {k : K} {v : V} {entries : List (K × V)} (h : get k entries = some v) :
    (k, v) ∈ entries := by
  induction entries with
  | nil => cases h
  | cons entry entries ih =>
      by_cases heq : entry.1 = k
      · simp only [get, heq, if_true, Option.some.injEq] at h
        rw [← heq, ← h]
        exact List.mem_cons_self
      · simp only [get, heq, if_false] at h
        exact List.mem_cons_of_mem _ (ih h)

theorem keys_set_subset {k : K} {v : V} {entries : List (K × V)} {l : K}
    (h : l ∈ (set k v entries).map Prod.fst) : l = k ∨ l ∈ entries.map Prod.fst := by
  induction entries with
  | nil => exact .inl (by simpa [set] using h)
  | cons entry entries ih =>
      by_cases heq : entry.1 = k
      · simp only [set, heq, if_true, List.map_cons, List.mem_cons] at h ⊢
        rcases h with h | h
        · exact .inl h
        · exact .inr (.inr h)
      · simp only [set, heq, if_false, List.map_cons, List.mem_cons] at h ⊢
        rcases h with h | h
        · exact .inr (.inl h)
        · rcases ih h with h | h
          · exact .inl h
          · exact .inr (.inr h)

/-- A key has one entry. -/
theorem nodup_keys_set {k : K} {v : V} {entries : List (K × V)}
    (h : (entries.map Prod.fst).Nodup) : ((set k v entries).map Prod.fst).Nodup := by
  induction entries with
  | nil => simp [set]
  | cons entry entries ih =>
      rw [List.map_cons, List.nodup_cons] at h
      by_cases heq : entry.1 = k
      · simp only [set, heq, if_true, List.map_cons, List.nodup_cons]
        exact ⟨heq ▸ h.1, h.2⟩
      · simp only [set, heq, if_false, List.map_cons, List.nodup_cons]
        refine ⟨?_, ih h.2⟩
        intro hmem
        rcases keys_set_subset hmem with hsame | hin
        · exact heq hsame
        · exact h.1 hin

/-- Setting a key that is there keeps the keys. -/
theorem keys_set_of_get {k : K} {v w : V} {entries : List (K × V)} (h : get k entries = some v) :
    (set k w entries).map Prod.fst = entries.map Prod.fst := by
  induction entries with
  | nil => cases h
  | cons entry entries ih =>
      by_cases heq : entry.1 = k
      · simp [set, heq]
      · simp only [get, heq, if_false] at h
        simp [set, heq, ih h]

theorem get_eq_none_of_not_mem {k : K} {entries : List (K × V)}
    (h : k ∉ entries.map Prod.fst) : get k entries = none := by
  cases hget : get k entries with
  | none => rfl
  | some v => exact absurd (List.mem_map_of_mem (mem_of_get hget)) h

theorem get_of_mem {k : K} {v : V} {entries : List (K × V)} (hnodup : (entries.map Prod.fst).Nodup)
    (h : (k, v) ∈ entries) : get k entries = some v := by
  induction entries with
  | nil => cases h
  | cons entry entries ih =>
      rw [List.map_cons, List.nodup_cons] at hnodup
      rcases List.mem_cons.mp h with heq | hmem
      · simp [get, ← heq]
      · have hne : entry.1 ≠ k := by
          intro hsame
          exact hnodup.1 (hsame ▸ List.mem_map_of_mem (f := Prod.fst) hmem)
        simp only [get, hne, if_false]
        exact ih hnodup.2 hmem

/-- A new key goes to the end. -/
theorem set_of_not_mem {k : K} {entries : List (K × V)} (h : k ∉ entries.map Prod.fst) (v : V) :
    set k v entries = entries ++ [(k, v)] := by
  induction entries with
  | nil => rfl
  | cons entry entries ih =>
      rw [List.map_cons, List.mem_cons, not_or] at h
      rw [set, if_neg (Ne.symm h.1), ih h.2, List.cons_append]

/-- Entries under different keys, set one after the other. -/
theorem foldl_set {entries : List (K × V)} (before : List (K × V))
    (h : ((before ++ entries).map Prod.fst).Nodup) :
    entries.foldl (fun out entry => set entry.1 entry.2 out) before = before ++ entries := by
  induction entries generalizing before with
  | nil => exact (List.append_nil before).symm
  | cons entry entries ih =>
      rw [← List.singleton_append, ← List.append_assoc] at h
      have hnew : entry.1 ∉ before.map Prod.fst := by
        rw [List.map_append, List.map_append, List.append_assoc, List.nodup_append] at h
        intro hmem
        exact h.2.2 _ hmem entry.1 (by simp) rfl
      rw [List.foldl_cons, set_of_not_mem hnew, ih _ h, List.append_assoc, List.singleton_append]

theorem get_delete_self (k : K) (entries : List (K × V)) : get k (delete k entries) = none := by
  induction entries with
  | nil => rfl
  | cons entry entries ih =>
      by_cases heq : entry.1 = k
      · simpa [delete, heq] using ih
      · simpa [delete, get, heq] using ih

theorem get_delete_of_ne {k l : K} (hne : l ≠ k) (entries : List (K × V)) :
    get l (delete k entries) = get l entries := by
  induction entries with
  | nil => rfl
  | cons entry entries ih =>
      by_cases heq : entry.1 = k
      · simpa [delete, get, heq, hne.symm] using ih
      · by_cases hl : entry.1 = l
        · subst hl
          simp [delete, get, heq]
        · simpa [delete, get, heq, hl] using ih

/-- What is left after a removal was there before, under another key. -/
theorem get_delete_cases {k l : K} {w : V} {entries : List (K × V)}
    (h : get l (delete k entries) = some w) : l ≠ k ∧ get l entries = some w := by
  have hne : l ≠ k := by
    rintro rfl
    rw [get_delete_self] at h
    cases h
  rw [get_delete_of_ne hne] at h
  exact ⟨hne, h⟩

theorem delete_eq_self {k : K} {entries : List (K × V)} (h : get k entries = none) :
    delete k entries = entries := by
  induction entries with
  | nil => rfl
  | cons entry entries ih =>
      by_cases heq : entry.1 = k
      · simp [get, heq] at h
      · simp only [get, heq, if_false] at h
        calc delete k (entry :: entries)
          _ = entry :: delete k entries := by simp [delete, heq]
          _ = entry :: entries := by rw [ih h]

theorem nodup_keys_delete {k : K} {entries : List (K × V)} (h : (entries.map Prod.fst).Nodup) :
    ((delete k entries).map Prod.fst).Nodup :=
  h.sublist (List.filter_sublist.map Prod.fst)

/-- Mapping the values maps what a key gives. -/
theorem get_map {W : Type} (f : V → W) (k : K) (entries : List (K × V)) :
    get k (entries.map fun entry => (entry.1, f entry.2)) = (get k entries).map f := by
  induction entries with
  | nil => rfl
  | cons entry entries ih =>
      by_cases heq : entry.1 = k
      · simp [get, heq]
      · simpa [get, heq] using ih

/-- The entries under the keys that `keep` accepts. -/
def restrict (keep : K → Bool) (entries : List (K × V)) : List (K × V) :=
  entries.filter fun entry => keep entry.1

section Restrict
variable {keep : K → Bool} {k : K}

theorem get_restrict (hk : keep k = true) (entries : List (K × V)) :
    get k (restrict keep entries) = get k entries := by
  induction entries with
  | nil => rfl
  | cons entry entries ih =>
      by_cases heq : entry.1 = k
      · simp [restrict, get, heq, hk]
      · cases hkeep : keep entry.1 with
        | true => simpa [restrict, get, hkeep, heq] using ih
        | false => simpa [restrict, get, hkeep, heq] using ih

theorem restrict_set_of_kept (hk : keep k = true) (v : V) (entries : List (K × V)) :
    restrict keep (set k v entries) = set k v (restrict keep entries) := by
  induction entries with
  | nil => simp [restrict, set, hk]
  | cons entry entries ih =>
      by_cases heq : entry.1 = k
      · simp [restrict, set, heq, hk]
      · cases hkeep : keep entry.1 with
        | true => simpa [restrict, set, hkeep, heq] using ih
        | false => simpa [restrict, set, hkeep, heq] using ih

theorem restrict_set_of_dropped (hk : keep k = false) (v : V) (entries : List (K × V)) :
    restrict keep (set k v entries) = restrict keep entries := by
  induction entries with
  | nil => simp [restrict, set, hk]
  | cons entry entries ih =>
      by_cases heq : entry.1 = k
      · simp [restrict, set, heq, hk]
      · cases hkeep : keep entry.1 with
        | true => simpa [restrict, set, hkeep, heq] using ih
        | false => simpa [restrict, set, hkeep, heq] using ih

theorem restrict_delete (k : K) (entries : List (K × V)) :
    restrict keep (delete k entries) = delete k (restrict keep entries) := by
  simp only [restrict, delete, List.filter_filter, Bool.and_comm]

theorem restrict_delete_of_dropped (hk : keep k = false) (entries : List (K × V)) :
    restrict keep (delete k entries) = restrict keep entries := by
  rw [restrict, delete, List.filter_filter]
  apply List.filter_congr
  intro entry _
  by_cases heq : entry.1 = k
  · rw [heq, hk]
    rfl
  · simp [heq]

end Restrict

end Kronos.Lib.OrderedMap
