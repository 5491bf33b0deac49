import Kronos.RabbitMq.SubscriberRegistry

/-!
# What one instance has to say

The messages of an instance about one of its subscriptions come down to the last of
them. What an instance still has to publish ends in what it claims now; before it is
connected that is all it has to say.
-/
namespace Kronos.RabbitMq.SubscriberRegistry
open Kronos.Lib

section Words
variable {I X R : Type} [DecidableEq X]

/-- What a message of `i` says about a subscription: nothing, that it is released, or
its record and owner. -/
def say (i : I) (x : X) : GossipEnvelope X R → Option (Option (R × I))
  | .claim subId record => if subId = x then some (some (record, i)) else none
  | .release subId => if subId = x then some none else none
  | .syncRequest => none

/-- The last word of some messages. -/
def word (i : I) (x : X) : List (GossipEnvelope X R) → Option (Option (R × I))
  | [] => none
  | envelope :: envelopes => (word i x envelopes).or (say i x envelope)

/-- The mirror of an instance that has received a message of `i`. -/
def hear (i : I) (mirror : List (X × R × I)) : GossipEnvelope X R → List (X × R × I)
  | .claim subId record => OrderedMap.set subId (record, i) mirror
  | .release subId => OrderedMap.delete subId mirror
  | .syncRequest => mirror

def hearAll (i : I) (mirror : List (X × R × I)) (envelopes : List (GossipEnvelope X R)) :
    List (X × R × I) :=
  envelopes.foldl (hear i) mirror

variable {i : I} {x : X} {mirror : List (X × R × I)}

theorem word_append (envelopes later : List (GossipEnvelope X R)) :
    word i x (envelopes ++ later) = (word i x later).or (word i x envelopes) := by
  induction envelopes with
  | nil => exact (Option.or_none).symm
  | cons envelope envelopes ih =>
      rw [List.cons_append, word, ih, word, Option.or_assoc]

theorem get_hear (envelope : GossipEnvelope X R) :
    OrderedMap.get x (hear i mirror envelope) =
      (say i x envelope).getD (OrderedMap.get x mirror) := by
  cases envelope with
  | claim subId record =>
      by_cases heq : subId = x
      · subst heq
        simp [hear, say, OrderedMap.get_set_self]
      · simp [hear, say, heq, OrderedMap.get_set_of_ne (Ne.symm heq)]
  | release subId =>
      by_cases heq : subId = x
      · subst heq
        simp [hear, say, OrderedMap.get_delete_self]
      · simp [hear, say, heq, OrderedMap.get_delete_of_ne (Ne.symm heq)]
  | syncRequest => rfl

/-- A mirror that has received everything holds the last word. -/
theorem get_hearAll (envelopes : List (GossipEnvelope X R)) :
    OrderedMap.get x (hearAll i mirror envelopes) =
      (word i x envelopes).getD (OrderedMap.get x mirror) := by
  induction envelopes generalizing mirror with
  | nil => rfl
  | cons envelope envelopes ih =>
      rw [hearAll, List.foldl_cons]
      refine ih.trans ?_
      rw [get_hear, word, Option.getD_or]

/-- The messages of `i` are about subscriptions of `i`. -/
def Tells (origin : X → I) (i : I) (envelope : GossipEnvelope X R) : Prop :=
  ∀ x, say i x envelope ≠ none → origin x = i

theorem say_eq_none {origin : X → I} {envelope : GossipEnvelope X R} (h : Tells origin i envelope)
    (hx : origin x ≠ i) : say i x envelope = none := by
  by_contra hsaid
  exact hx (h x hsaid)

theorem tells_claim {origin : X → I} {subId : X} (h : origin subId = i) (record : R) :
    Tells origin i (.claim subId record) := by
  intro x hsaid
  by_cases heq : subId = x
  · exact heq ▸ h
  · exact absurd (if_neg heq) hsaid

theorem tells_release {origin : X → I} {subId : X} (h : origin subId = i) :
    Tells origin i (.release subId : GossipEnvelope X R) := by
  intro x hsaid
  by_cases heq : subId = x
  · exact heq ▸ h
  · exact absurd (if_neg heq) hsaid

end Words

variable {I X R : Type} [DecidableEq X]

/-- What `i` claims now. -/
def current (i : I) (mine : Instance I X R) (x : X) : Option (R × I) :=
  (OrderedMap.get x mine.claimed).map fun record => (record, i)

/-! ## One instance -/

structure Local (origin : X → I) (i : I) (mine : Instance I X R) : Prop where
  sound : mine.failure = true → mine.closed = true
  handlers : ∀ {x}, x ∈ mine.localOwnedHandlers → origin x = i
  claimed : ∀ {x record}, OrderedMap.get x mine.claimed = some record → origin x = i
  owned : mine.closed = false → ∀ x,
    x ∈ mine.locallyOwnedSubIds ↔ (OrderedMap.get x mine.claimed).isSome = true
  own : mine.closed = false → ∀ {x}, origin x = i →
    OrderedMap.get x mine.mirror = current i mine x
  foreign : ∀ {x record k}, OrderedMap.get x mine.mirror = some (record, k) → origin x = k
  outbox : ∀ envelope ∈ mine.outbox, Tells origin i envelope
  inbox : ∀ k, ∀ envelope ∈ mine.inbox k, Tells origin k envelope
  gone : mine.closed = true → mine.claimed = [] ∧ mine.outbox = []
  /-- What waits to be published ends in what is claimed. -/
  truth : ∀ x, word i x mine.outbox = none ∨ word i x mine.outbox = some (current i mine x)
  /-- Before the instance is connected, all of it waits. -/
  unsaid : mine.phase ≠ .connected → ∀ x, (word i x mine.outbox).getD none = current i mine x
  fresh : mine.phase = .away → (∀ k, mine.inbox k = []) ∧
    ∀ x, origin x ≠ i → OrderedMap.get x mine.mirror = none

theorem local_initial (origin : X → I) (i : I) : Local origin i (initial I X R i) where
  sound := nofun
  handlers := nofun
  claimed := nofun
  owned := fun _ x => by simp [initial, OrderedMap.get]
  own := fun _ _ _ => rfl
  foreign := nofun
  outbox := nofun
  inbox := fun _ => nofun
  gone := fun _ => ⟨rfl, rfl⟩
  truth := fun _ => .inl rfl
  unsaid := fun _ _ => rfl
  fresh := fun _ => ⟨fun _ => rfl, fun _ _ => rfl⟩

section Local
variable {origin : X → I} {i k : I} {mine after : Instance I X R} {envelope : GossipEnvelope X R}

theorem Local.phase (h : Local origin i mine) {phase : Phase} (hbound : phase ≠ .away)
    (hconnected : phase ≠ .connected → mine.phase ≠ .connected) :
    Local origin i { mine with phase := phase } :=
  { h with
    unsaid := fun hne => h.unsaid (hconnected hne)
    fresh := fun haway => absurd haway hbound }

theorem Local.inbox_update [DecidableEq I] (h : Local origin i mine) (hbound : mine.phase ≠ .away)
    {envelopes : List (GossipEnvelope X R)}
    (htells : ∀ envelope ∈ envelopes, Tells origin k envelope) :
    Local origin i { mine with inbox := Function.update mine.inbox k envelopes } :=
  { h with
    inbox := by
      intro l envelope hmem
      have hmem : envelope ∈ Function.update mine.inbox k envelopes l := hmem
      rcases eq_or_ne l k with rfl | hne
      · rw [Function.update_self] at hmem
        exact htells envelope hmem
      · rw [Function.update_of_ne hne] at hmem
        exact h.inbox l envelope hmem
    fresh := fun haway => absurd haway hbound }

/-- A message of another instance is received. -/
theorem Local.receive (h : Local origin i mine) (hbound : mine.phase ≠ .away) (hne : k ≠ i)
    (htells : Tells origin k envelope) :
    Local origin i { mine with mirror := hear k mine.mirror envelope } :=
  { h with
    own := by
      intro hopen x hx
      rw [get_hear, say_eq_none htells (by rw [hx]; exact hne.symm)]
      exact h.own hopen hx
    foreign := by
      intro x record l hget
      rw [get_hear] at hget
      cases hsaid : say k x envelope with
      | none =>
          rw [hsaid] at hget
          exact h.foreign hget
      | some said =>
          rw [hsaid] at hget
          have hx : origin x = k := htells x (by rw [hsaid]; nofun)
          rw [hx]
          cases envelope with
          | claim subId claimed =>
              simp only [say] at hsaid
              split_ifs at hsaid
              cases hsaid
              cases hget
              rfl
          | release subId =>
              simp only [say] at hsaid
              split_ifs at hsaid
              cases hsaid
              cases hget
          | syncRequest => cases hsaid
    fresh := fun haway => absurd haway hbound }

/-- The next message of the outbox is published. -/
theorem Local.published (h : Local origin i mine) {outbox : List (GossipEnvelope X R)}
    (houtbox : mine.outbox = envelope :: outbox) (hconnected : mine.phase = .connected) :
    Local origin i { mine with outbox := outbox } :=
  { h with
    outbox := by
      intro later hmem
      refine h.outbox later ?_
      rw [houtbox]
      exact List.mem_cons_of_mem _ hmem
    gone := by
      intro hclosed
      have hnone : mine.outbox = [] := (h.gone hclosed).2
      rw [houtbox] at hnone
      cases hnone
    truth := by
      intro x
      have htruth := h.truth x
      rw [houtbox, word] at htruth
      cases hword : word i x outbox with
      | none => exact .inl rfl
      | some said =>
          rw [hword, Option.some_or] at htruth
          rcases htruth with hnone | hsome
          · cases hnone
          · exact .inr hsome
    unsaid := fun hne => absurd hconnected hne }

/-- The instance claims or releases one of its subscriptions. -/
theorem Local.tell (h : Local origin i mine) (htells : Tells origin i envelope)
    (hfailure : after.failure = mine.failure) (hclosed : after.closed = false)
    (hphase : after.phase = mine.phase) (hinbox : after.inbox = mine.inbox)
    (hmirror : after.mirror = hear i mine.mirror envelope)
    (houtbox : after.outbox = mine.outbox ++ [envelope])
    (hcurrent : ∀ x, current i after x = (say i x envelope).getD (current i mine x))
    (hopen : mine.closed = false)
    (hhandlers : ∀ {x}, x ∈ after.localOwnedHandlers → origin x = i)
    (hclaimed : ∀ {x record}, OrderedMap.get x after.claimed = some record → origin x = i)
    (howned : ∀ x, x ∈ after.locallyOwnedSubIds ↔ (OrderedMap.get x after.claimed).isSome = true)
    (hforeign : ∀ {x record k}, OrderedMap.get x after.mirror = some (record, k) → origin x = k) :
    Local origin i after where
  sound := by
    intro hfailed
    rw [hfailure] at hfailed
    rw [h.sound hfailed] at hopen
    cases hopen
  handlers := hhandlers
  claimed := hclaimed
  owned := fun _ => howned
  own := by
    intro _ x hx
    rw [hmirror, get_hear, hcurrent, h.own hopen hx]
  foreign := hforeign
  outbox := by
    intro later hmem
    rw [houtbox] at hmem
    rcases List.mem_append.mp hmem with hold | hnew
    · exact h.outbox later hold
    · rw [List.mem_singleton.mp hnew]
      exact htells
  inbox := by
    rw [hinbox]
    exact h.inbox
  gone := by
    intro hshut
    rw [hclosed] at hshut
    cases hshut
  truth := by
    intro x
    have hword : word i x [envelope] = say i x envelope := rfl
    rw [houtbox, word_append, hcurrent, hword]
    cases say i x envelope with
    | none =>
        rw [Option.none_or]
        exact h.truth x
    | some said => exact .inr rfl
  unsaid := by
    intro hne x
    rw [hphase] at hne
    rw [houtbox, word_append, Option.getD_or, h.unsaid hne, hcurrent]
    rfl
  fresh := by
    intro haway
    rw [hphase] at haway
    rw [hinbox]
    refine ⟨(h.fresh haway).1, ?_⟩
    intro x hx
    rw [hmirror, get_hear, say_eq_none htells hx]
    exact (h.fresh haway).2 x hx

/-- What an operation of the bus says to the others. -/
structure Speaks (origin : X → I) (i : I) (mine after : Instance I X R)
    (said : List (GossipEnvelope X R)) : Prop where
  phase : after.phase = mine.phase
  closed : after.closed = mine.closed
  inbox : after.inbox = mine.inbox
  outbox : after.outbox = mine.outbox ++ said
  current : ∀ x, current i after x = (word i x said).getD (current i mine x)
  mirror : ∀ x, origin x ≠ i → OrderedMap.get x after.mirror = OrderedMap.get x mine.mirror

/-- Only the bus's subscriptions change. -/
theorem Local.handlers_only (h : Local origin i mine) {handlers : List X}
    (hhandlers : ∀ {x}, x ∈ handlers → origin x = i) :
    Local origin i { mine with localOwnedHandlers := handlers } ∧
      Speaks origin i mine { mine with localOwnedHandlers := handlers } [] := by
  refine ⟨{ h with handlers := hhandlers }, rfl, rfl, rfl, (List.append_nil _).symm, fun _ => rfl,
    fun _ _ => rfl⟩

theorem Local.claim (h : Local origin i mine) {subId : X} (horigin : origin subId = i)
    (record : R) :
    ∃ said, Local origin i (mine.claim i subId record) ∧
      Speaks origin i mine (mine.claim i subId record) said := by
  have hhandlers : ∀ {x}, x ∈ mine.localOwnedHandlers ++ [subId] → origin x = i := by
    intro x hx
    rcases List.mem_append.mp hx with hold | hnew
    · exact h.handlers hold
    · rw [List.mem_singleton.mp hnew]
      exact horigin
  unfold Instance.claim
  split
  · exact ⟨[], h.handlers_only h.handlers⟩
  dsimp only
  split
  case isTrue => exact ⟨[], h.handlers_only hhandlers⟩
  case isFalse hopen =>
    simp only [Bool.or_eq_true, not_or] at hopen
    have hclosed : mine.closed = false := Bool.eq_false_iff.mpr hopen.1.1
    have htells : Tells origin i (.claim subId record : GossipEnvelope X R) :=
      tells_claim horigin record
    have hmirror : ∀ x, OrderedMap.get x (OrderedMap.set subId (record, i) mine.mirror) =
        (say i x (.claim subId record : GossipEnvelope X R)).getD (OrderedMap.get x mine.mirror) :=
      fun x => get_hear (.claim subId record)
    have hcurrent : ∀ x, (OrderedMap.get x (OrderedMap.set subId record mine.claimed)).map
        (fun record => (record, i)) =
          (say i x (.claim subId record : GossipEnvelope X R)).getD (current i mine x) := by
      intro x
      by_cases heq : subId = x
      · subst heq
        simp [say, OrderedMap.get_set_self]
      · simp [current, say, heq, OrderedMap.get_set_of_ne (Ne.symm heq)]
    refine ⟨[.claim subId record],
      h.tell htells rfl hclosed rfl rfl rfl rfl hcurrent hclosed hhandlers ?_ ?_ ?_,
      rfl, rfl, rfl, rfl, hcurrent, ?_⟩
    · intro x other hget
      rcases OrderedMap.get_set_cases hget with ⟨rfl, -⟩ | ⟨-, hold⟩
      · exact horigin
      · exact h.claimed hold
    · intro x
      rcases eq_or_ne x subId with rfl | hne
      · rw [OrderedMap.get_set_self]
        split_ifs with hmem
        · simp [hmem]
        · simp
      · rw [OrderedMap.get_set_of_ne hne, ← h.owned hclosed x]
        split_ifs
        · rfl
        · simp [hne]
    · intro x other k hget
      rcases OrderedMap.get_set_cases hget with ⟨rfl, hmine⟩ | ⟨-, hold⟩
      · cases hmine
        exact horigin
      · exact h.foreign hold
    · intro x hx
      rw [hmirror, say_eq_none htells hx]
      rfl

/-- An operation of the bus keeps the records of the others. -/
theorem get_delete_of_others {subId x : X} (horigin : origin subId = i) (hx : origin x ≠ i) :
    OrderedMap.get x (OrderedMap.delete subId mine.mirror) = OrderedMap.get x mine.mirror := by
  refine OrderedMap.get_delete_of_ne ?_ _
  rintro rfl
  exact hx horigin

/-- Released after the close: nobody is told. -/
theorem Local.release_closed (h : Local origin i mine) (hclosed : mine.closed = true) {subId : X}
    (hmem : subId ∈ mine.localOwnedHandlers) :
    Local origin i (mine.release subId) ∧ Speaks origin i mine (mine.release subId) [] := by
  obtain ⟨hclaimed, houtbox⟩ := h.gone hclosed
  have horigin : origin subId = i := h.handlers hmem
  have hnone : OrderedMap.delete subId mine.claimed = [] := by
    rw [hclaimed]
    rfl
  rw [Instance.release, if_pos hmem, hclosed, Bool.true_or, if_pos rfl, hnone]
  refine ⟨?_, rfl, hclosed.symm, rfl, (List.append_nil _).symm, fun x => ?_,
    fun _ => get_delete_of_others horigin⟩
  · exact
      { h with
        sound := fun _ => rfl
        handlers := fun hx => h.handlers (List.mem_of_mem_erase hx)
        claimed := nofun
        owned := nofun
        own := nofun
        foreign := fun hget => h.foreign (OrderedMap.get_delete_cases hget).2
        gone := fun _ => ⟨rfl, houtbox⟩
        truth := fun x => by
          rw [houtbox]
          exact .inl rfl
        unsaid := fun _ x => by
          rw [houtbox]
          rfl
        fresh := fun haway => ⟨(h.fresh haway).1, fun x hx => by
          rw [get_delete_of_others horigin hx]
          exact (h.fresh haway).2 x hx⟩ }
  · rw [current, current, hclaimed]
    rfl

theorem Local.release_open (h : Local origin i mine) (hclosed : mine.closed = false) {subId : X}
    (hmem : subId ∈ mine.localOwnedHandlers) :
    Local origin i (mine.release subId) ∧
      Speaks origin i mine (mine.release subId) [.release subId] := by
  have horigin : origin subId = i := h.handlers hmem
  have htells : Tells origin i (.release subId : GossipEnvelope X R) := tells_release horigin
  have hsound : mine.failure = false := by
    cases hfailure : mine.failure with
    | false => rfl
    | true =>
        rw [h.sound hfailure] at hclosed
        cases hclosed
  have hcurrent : ∀ x, (OrderedMap.get x (OrderedMap.delete subId mine.claimed)).map
      (fun record => (record, i)) =
        (say i x (.release subId : GossipEnvelope X R)).getD (current i mine x) := by
    intro x
    by_cases heq : subId = x
    · subst heq
      simp [say, OrderedMap.get_delete_self]
    · simp [current, say, heq, OrderedMap.get_delete_of_ne (Ne.symm heq)]
  have howned : ∀ x, (x ∈ mine.locallyOwnedSubIds.filter fun owned => owned ≠ subId) ↔
      (OrderedMap.get x (OrderedMap.delete subId mine.claimed)).isSome := by
    intro x
    rcases eq_or_ne x subId with rfl | hne
    · rw [OrderedMap.get_delete_self]
      simp
    · rw [OrderedMap.get_delete_of_ne hne, ← h.owned hclosed x]
      simp [hne]
  rw [Instance.release, if_pos hmem, hclosed, hsound, Bool.or_self, if_neg Bool.false_ne_true]
  exact ⟨h.tell htells hsound.symm rfl rfl rfl rfl rfl hcurrent hclosed
      (fun hx => h.handlers (List.mem_of_mem_erase hx))
      (fun hget => h.claimed (OrderedMap.get_delete_cases hget).2) howned
      (fun hget => h.foreign (OrderedMap.get_delete_cases hget).2),
    rfl, hclosed.symm, rfl, rfl, hcurrent, fun _ => get_delete_of_others horigin⟩

theorem Local.release (h : Local origin i mine) (subId : X) :
    ∃ said, Local origin i (mine.release subId) ∧
      Speaks origin i mine (mine.release subId) said := by
  by_cases hmem : subId ∈ mine.localOwnedHandlers
  · cases hclosed : mine.closed with
    | true => exact ⟨[], h.release_closed hclosed hmem⟩
    | false => exact ⟨_, h.release_open hclosed hmem⟩
  · rw [Instance.release, if_neg hmem]
    exact ⟨[], h.handlers_only h.handlers⟩

theorem Local.close (h : Local origin i mine) : Local origin i mine.close where
  sound := fun _ => rfl
  handlers := fun hx => h.handlers (List.mem_filter.mp hx).1
  claimed := nofun
  owned := nofun
  own := nofun
  foreign := nofun
  outbox := nofun
  inbox := h.inbox
  gone := fun _ => ⟨rfl, rfl⟩
  truth := fun _ => .inl rfl
  unsaid := fun _ _ => rfl
  fresh := fun haway => ⟨(h.fresh haway).1, fun _ _ => rfl⟩

/-- An instance that is asked tells what it claims now. -/
theorem Local.word_ownClaims (h : Local origin i mine) (hopen : mine.closed = false) {x : X}
    (hx : origin x = i) : word i x mine.ownClaims = (current i mine x).map some := by
  have hlist : ∀ owned : List X,
      word i x (owned.filterMap fun subId =>
        (OrderedMap.get subId mine.mirror).map fun record =>
          (.claim subId record.1 : GossipEnvelope X R)) =
        if x ∈ owned then (current i mine x).map some else none := by
    intro owned
    induction owned with
    | nil => rfl
    | cons subId owned ih =>
        rcases eq_or_ne subId x with rfl | hne
        · have hmine := h.own hopen hx
          cases hget : OrderedMap.get subId mine.mirror with
          | none =>
              rw [hget] at hmine
              rw [List.filterMap_cons, hget, Option.map_none, ih, ← hmine]
              simp
          | some record =>
              rw [hget] at hmine
              obtain ⟨claimed, -, hrecord⟩ := Option.map_eq_some_iff.mp hmine.symm
              rw [List.filterMap_cons, hget, Option.map_some, word, ih, ← hmine, ← hrecord]
              by_cases hin : subId ∈ owned
              · simp [hin]
              · simp [hin, say]
        · rw [List.filterMap_cons]
          cases OrderedMap.get subId mine.mirror with
          | none =>
              rw [Option.map_none, ih]
              simp [hne.symm]
          | some record =>
              rw [Option.map_some, word, ih]
              simp [say, hne, hne.symm]
  rw [Instance.ownClaims, hlist]
  split_ifs with hmem
  · rfl
  · rw [h.owned hopen] at hmem
    rw [current, Option.not_isSome_iff_eq_none.mp hmem]
    rfl

theorem Local.tells_ownClaims (h : Local origin i mine) (hopen : mine.closed = false) :
    ∀ envelope ∈ mine.ownClaims, Tells origin i envelope := by
  intro envelope hmem
  obtain ⟨subId, howned, hclaim⟩ := List.mem_filterMap.mp hmem
  obtain ⟨record, -, rfl⟩ := Option.map_eq_some_iff.mp hclaim
  obtain ⟨claimed, hclaimed⟩ := Option.isSome_iff_exists.mp ((h.owned hopen subId).mp howned)
  exact tells_claim (h.claimed hclaimed) record.1

end Local

end Kronos.RabbitMq.SubscriberRegistry
