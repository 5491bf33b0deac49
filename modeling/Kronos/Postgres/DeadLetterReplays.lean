import Mathlib.Data.List.TakeWhile
import Kronos.Postgres.DeadLetterLeases

/-!
# Many replayers on one lane

A lease is live until `claimDurationMs` after its value. A letter has at most
one live holder, and while it lives its row carries that very value, so nobody
else can claim the letter or clear the lease. A walk under a live lease starts
at the head of the lane: letters are parked behind all others, and only the
holder of the head's lease takes a letter away.

The second fact needs letters to be parked at the end. `enqueueIfPresent` reads
the last index and inserts later; two of them that overlap can park a letter in
front of one that was there before.
-/
namespace Kronos.Postgres.DeadLetters
open Kronos.Lib.Slots Kronos.Lib.Transition

variable {config : Config} {clock : ℕ} {parked lane : List Letter}

def ids (lane : List Letter) : List ℕ := lane.map Letter.id

/-- The lease has not yet been up for `claimDurationMs`. -/
def Held.Live (config : Config) (clock : ℕ) (held : Held) : Prop :=
  clock < held.lease + config.claimDurationMs

/-- A letter that is gone or leads the lane. -/
def AtHead (lane : List Letter) (id : ℕ) : Prop :=
  id ∉ ids lane ∨ ∃ letter rest, lane = letter::rest ∧ letter.id = id

/-- The letter after the one at hand. -/
def Follows (rows : List Letter) (id : ℕ) : Prop :=
  ∃ letter following rest, rows = letter::following::rest ∧ following.id = id

structure Walk (config : Config) (clock : ℕ) (parked lane rows : List Letter)
    (held : Held) : Prop where
  distinct : (ids rows).Nodup
  apart : held.id ∉ ids rows.tail
  known : ∀ letter ∈ rows, letter ∈ parked
  holds : held.id ∈ ids parked
  head : held.Live config clock →
    ∃ letter rest later, rows = letter::rest ∧ letter.id = held.id ∧ lane = rows ++ later

/-- What is known of a call at each of its stages. -/
def Standing (config : Config) (clock : ℕ) (parked lane : List Letter) (lease : ℕ) : Stage → Prop
  | .started => True
  | .candidate id => id ∈ ids parked ∧ AtHead lane id
  | .claimed id => id ∈ ids parked ∧ AtHead lane id ∧
      (Held.Live config clock ⟨id, lease⟩ → id ∈ ids lane)
  | .replaying rows held => Walk config clock parked lane rows held
  | .claiming rows held following since =>
      Walk config clock parked lane rows held ∧ since ≤ clock ∧ Follows rows following
  | .handed rows held next =>
      Walk config clock parked lane rows held ∧ ∀ n ∈ next, Follows rows n.id
  | .evicted rows held next =>
      Walk config clock parked lane rows held ∧ ∀ n ∈ next, Follows rows n.id
  | .failed held => held.id ∈ ids parked
  | .releasing leases => (leases.map Held.id).Nodup ∧ ∀ held ∈ leases, held.id ∈ ids parked
  | .finished => True

/-- The leases a call may still use or clear. -/
def Replayer.records (replayer : Replayer) : List Held :=
  match replayer.stage with
  | .claimed id => [⟨id, replayer.lease⟩]
  | .replaying _ held => [held]
  | .claiming _ held _ _ => [held]
  | .handed _ held next => held::next.toList
  | .evicted _ held next => held::next.toList
  | .failed held => [held]
  | .releasing leases => leases
  | _ => []

/-! ## What other steps leave of it -/

theorem Held.Live.earlier {held : Held} {later : ℕ} (hle : clock ≤ later)
    (h : held.Live config later) : held.Live config clock :=
  Nat.lt_of_le_of_lt hle h

theorem Walk.later {rows : List Letter} {held : Held} {later : ℕ} (hle : clock ≤ later)
    (h : Walk config clock parked lane rows held) : Walk config later parked lane rows held :=
  ⟨h.distinct, h.apart, h.known, h.holds, fun hlive => h.head (hlive.earlier hle)⟩

theorem Standing.later {lease later : ℕ} {stage : Stage} (hle : clock ≤ later)
    (h : Standing config clock parked lane lease stage) :
    Standing config later parked lane lease stage := by
  cases stage with
  | started => exact h
  | candidate id => exact h
  | claimed id => exact ⟨h.1, h.2.1, fun hlive => h.2.2 (hlive.earlier hle)⟩
  | replaying rows held => exact Walk.later hle h
  | claiming rows held following since =>
      exact ⟨h.1.later hle, h.2.1.trans hle, h.2.2⟩
  | handed rows held next => exact ⟨h.1.later hle, h.2⟩
  | evicted rows held next => exact ⟨h.1.later hle, h.2⟩
  | failed held => exact h
  | releasing leases => exact h
  | finished => exact h

theorem ids_append (lane own : List Letter) : ids (lane ++ own) = ids lane ++ ids own :=
  List.map_append

theorem mem_ids_append_left {own : List Letter} {id : ℕ} (h : id ∈ ids lane) :
    id ∈ ids (lane ++ own) := by
  rw [ids_append]
  exact List.mem_append_left _ h

theorem Walk.append {rows own : List Letter} {held : Held}
    (h : Walk config clock parked lane rows held) :
    Walk config clock (parked ++ own) (lane ++ own) rows held where
  distinct := h.distinct
  apart := h.apart
  known := fun letter hletter => List.mem_append_left _ (h.known letter hletter)
  holds := mem_ids_append_left h.holds
  head := by
    intro hlive
    obtain ⟨letter, rest, later, hrows, hid, hlane⟩ := h.head hlive
    exact ⟨letter, rest, later ++ own, hrows, hid, by rw [hlane, List.append_assoc]⟩

theorem AtHead.append {own : List Letter} {id : ℕ} (hid : id ∉ ids own) (h : AtHead lane id) :
    AtHead (lane ++ own) id := by
  rcases h with hgone | ⟨letter, rest, rfl, heq⟩
  · left
    rw [ids_append, List.mem_append]
    rintro (hlane | hown)
    · exact hgone hlane
    · exact hid hown
  · exact .inr ⟨letter, rest ++ own, rfl, heq⟩

/-- Letters are parked behind the lane, under ids of their own. -/
theorem Standing.append {own : List Letter} {lease : ℕ} {stage : Stage}
    (hnew : ∀ id ∈ ids parked, id ∉ ids own) (h : Standing config clock parked lane lease stage) :
    Standing config clock (parked ++ own) (lane ++ own) lease stage := by
  cases stage with
  | started => exact h
  | candidate id => exact ⟨mem_ids_append_left h.1, h.2.append (hnew id h.1)⟩
  | claimed id =>
      exact ⟨mem_ids_append_left h.1, h.2.1.append (hnew id h.1),
        fun hlive => mem_ids_append_left (h.2.2 hlive)⟩
  | replaying rows held => exact Walk.append h
  | claiming rows held following since => exact ⟨h.1.append, h.2⟩
  | handed rows held next => exact ⟨h.1.append, h.2⟩
  | evicted rows held next => exact ⟨h.1.append, h.2⟩
  | failed held => exact mem_ids_append_left h
  | releasing leases => exact ⟨h.1, fun held hheld => mem_ids_append_left (h.2 held hheld)⟩
  | finished => exact h

theorem AtHead.evict {letter : Letter} {rest : List Letter} {id : ℕ}
    (hnodup : (ids (letter::rest)).Nodup) (h : AtHead (letter::rest) id) : AtHead rest id := by
  left
  intro hrest
  rcases h with hgone | ⟨first, others, heq, hid⟩
  · exact hgone (List.mem_cons_of_mem _ hrest)
  · cases heq
    rw [← hid] at hrest
    exact (List.nodup_cons.mp hnodup).1 hrest

/-- A walk that has no live lease on the head does not depend on the lane. -/
theorem Walk.evict {letter : Letter} {rest rows : List Letter} {held : Held}
    (hdead : held.id = letter.id → ¬ held.Live config clock)
    (h : Walk config clock parked (letter::rest) rows held) :
    Walk config clock parked rest rows held where
  distinct := h.distinct
  apart := h.apart
  known := h.known
  holds := h.holds
  head := by
    intro hlive
    obtain ⟨first, others, later, hrows, hid, hlane⟩ := h.head hlive
    rw [hrows] at hlane
    cases hlane
    exact absurd hlive (hdead hid.symm)

/-- The head of the lane is taken away by somebody else. -/
theorem Standing.evict {replayer : Replayer} {letter : Letter} {rest : List Letter}
    (hnodup : (ids (letter::rest)).Nodup)
    (hdead : ∀ held ∈ replayer.records, held.id = letter.id → ¬ held.Live config clock)
    (h : Standing config clock parked (letter::rest) replayer.lease replayer.stage) :
    Standing config clock parked rest replayer.lease replayer.stage := by
  unfold Replayer.records at hdead
  cases hstage : replayer.stage with
  | started => trivial
  | candidate id =>
      rw [hstage] at h
      exact ⟨h.1, h.2.evict hnodup⟩
  | claimed id =>
      rw [hstage] at h hdead
      refine ⟨h.1, h.2.1.evict hnodup, fun hlive => ?_⟩
      rcases h.2.1 with hgone | ⟨first, others, heq, hid⟩
      · exact absurd (h.2.2 hlive) hgone
      · cases heq
        exact absurd hlive (hdead _ List.mem_cons_self hid.symm)
  | replaying rows held =>
      rw [hstage] at h hdead
      exact Walk.evict (hdead held List.mem_cons_self) h
  | claiming rows held following since =>
      rw [hstage] at h hdead
      exact ⟨h.1.evict (hdead held List.mem_cons_self), h.2⟩
  | handed rows held next =>
      rw [hstage] at h hdead
      exact ⟨h.1.evict (hdead held List.mem_cons_self), h.2⟩
  | evicted rows held next =>
      rw [hstage] at h hdead
      exact ⟨h.1.evict (hdead held List.mem_cons_self), h.2⟩
  | failed held =>
      rw [hstage] at h
      exact h
  | releasing leases =>
      rw [hstage] at h
      exact h
  | finished => trivial

theorem Follows.mem_tail {rows : List Letter} {id : ℕ} (h : Follows rows id) :
    id ∈ ids rows.tail := by
  obtain ⟨letter, following, rest, rfl, rfl⟩ := h
  exact List.mem_cons_self

theorem Follows.mem_parked {rows : List Letter} {held : Held} {id : ℕ} (h : Follows rows id)
    (hwalk : Walk config clock parked lane rows held) : id ∈ ids parked := by
  obtain ⟨letter, following, rest, rfl, rfl⟩ := h
  exact List.mem_map_of_mem
    (hwalk.known following (List.mem_cons_of_mem _ List.mem_cons_self))

theorem Walk.records {rows : List Letter} {held : Held} {next : Option Held}
    (hwalk : Walk config clock parked lane rows held) (hnext : ∀ n ∈ next, Follows rows n.id) :
    ((held::next.toList).map Held.id).Nodup ∧ ∀ h ∈ held::next.toList, h.id ∈ ids parked := by
  cases next with
  | none =>
      refine ⟨List.nodup_singleton _, ?_⟩
      intro h hh
      rw [List.mem_singleton.mp hh]
      exact hwalk.holds
  | some n =>
      have hfollows := hnext n rfl
      constructor
      · change [held.id, n.id].Nodup
        rw [List.nodup_cons, List.mem_singleton]
        refine ⟨?_, List.nodup_singleton _⟩
        intro heq
        apply hwalk.apart
        rw [heq]
        exact hfollows.mem_tail
      · intro h hh
        rcases List.mem_cons.mp hh with rfl | hh
        · exact hwalk.holds
        · rw [List.mem_singleton.mp hh]
          exact hfollows.mem_parked hwalk

/-- A call's leases are on different letters, all of them parked. -/
theorem Standing.records {replayer : Replayer}
    (h : Standing config clock parked lane replayer.lease replayer.stage) :
    (replayer.records.map Held.id).Nodup ∧ ∀ held ∈ replayer.records, held.id ∈ ids parked := by
  have hsingle : ∀ held : Held, held.id ∈ ids parked →
      ([held].map Held.id).Nodup ∧ ∀ h ∈ [held], h.id ∈ ids parked := by
    intro held hheld
    refine ⟨List.nodup_singleton _, ?_⟩
    intro h hh
    rw [List.mem_singleton.mp hh]
    exact hheld
  have hnone : (([] : List Held).map Held.id).Nodup ∧ ∀ h ∈ ([] : List Held),
      h.id ∈ ids parked := by
    refine ⟨List.nodup_nil, ?_⟩
    intro h hh
    cases hh
  unfold Replayer.records
  cases hstage : replayer.stage with
  | started => exact hnone
  | candidate id => exact hnone
  | claimed id =>
      rw [hstage] at h
      exact hsingle ⟨id, replayer.lease⟩ h.1
  | replaying rows held =>
      rw [hstage] at h
      exact hsingle held (Walk.holds h)
  | claiming rows held following since =>
      rw [hstage] at h
      exact hsingle held h.1.holds
  | handed rows held next =>
      rw [hstage] at h
      exact h.1.records h.2
  | evicted rows held next =>
      rw [hstage] at h
      exact h.1.records h.2
  | failed held =>
      rw [hstage] at h
      exact hsingle held h
  | releasing leases =>
      rw [hstage] at h
      exact h
  | finished => exact hnone

/-! ## The whole lane -/

/-- A transaction that has read the lane's last index, or parked something. -/
def Enqueuer.Engaged (enqueuer : Enqueuer) : Prop :=
  enqueuer.ended = false ∧ (enqueuer.planned.isSome ∨ enqueuer.own ≠ [])

/-- What a transaction parks comes behind everything parked before. -/
structure Fresh (world : World) (enqueuer : Enqueuer) : Prop where
  below : ∀ letter ∈ enqueuer.own, letter.id < world.nextId
  new : ∀ id ∈ ids world.parked, id ∉ ids enqueuer.own
  distinct : (ids enqueuer.own).Nodup
  behind : ∀ letter ∈ world.parked, ∀ own ∈ enqueuer.own, letter.index < own.index
  sorted : enqueuer.own.Pairwise fun a b => a.index < b.index
  planned : ∀ index, enqueuer.planned = some index →
    ∀ letter ∈ world.parked ++ enqueuer.own, letter.index < index

structure Inv (config : Config) (world : World) : Prop where
  history : world.replayed ++ letters world.rows = world.parked
  sorted : world.parked.Pairwise fun a b => a.index < b.index
  distinct : (ids world.parked).Nodup
  below : ∀ letter ∈ world.parked, letter.id < world.nextId
  failed : ∀ letter ∈ world.failed, letter ∈ world.parked
  since : ∀ (r : ℕ) (p : Replayer), world.replayers[r]? = some p → p.lease ≤ world.clock
  standing : ∀ (r : ℕ) (p : Replayer), world.replayers[r]? = some p →
    Standing config world.clock world.parked (letters world.rows) p.lease p.stage
  leased : ∀ (r : ℕ) (p : Replayer), world.replayers[r]? = some p → ∀ held ∈ p.records,
    held.Live config world.clock → ∀ row ∈ world.rows, row.letter.id = held.id →
    row.lease = some held.lease
  unique : ∀ (r s : ℕ) (p q : Replayer), world.replayers[r]? = some p →
    world.replayers[s]? = some q → ∀ h ∈ p.records, ∀ k ∈ q.records, h.id = k.id →
    h.Live config world.clock → k.Live config world.clock → r = s
  fresh : ∀ (e : ℕ) (q : Enqueuer), world.enqueuers[e]? = some q → q.ended = false → Fresh world q
  alone : ∀ (e f : ℕ) (q u : Enqueuer), world.enqueuers[e]? = some q →
    world.enqueuers[f]? = some u →
    q.Engaged → u.Engaged → e = f

variable {world after : World} {r : ℕ} {p : Replayer}

/-- One call moves on and the rows change with it. -/
theorem Inv.update (hI : Inv config world) (hp : world.replayers[r]? = some p) {stage : Stage}
    {rows : List Row} {replayed failed : List Letter}
    (hhistory : replayed ++ letters rows = world.parked)
    (hfailed : ∀ letter ∈ failed, letter ∈ world.parked)
    (hmine : Standing config world.clock world.parked (letters rows) p.lease stage)
    (hothers : ∀ (s : ℕ) (q : Replayer), s ≠ r → world.replayers[s]? = some q →
      Standing config world.clock world.parked (letters rows) q.lease q.stage)
    (hmyLeases : ∀ held ∈ Replayer.records ⟨p.lease, stage⟩, held.Live config world.clock →
      ∀ row ∈ rows, row.letter.id = held.id → row.lease = some held.lease)
    (hleases : ∀ (s : ℕ) (q : Replayer), s ≠ r → world.replayers[s]? = some q →
      ∀ held ∈ q.records, held.Live config world.clock → ∀ row ∈ rows, row.letter.id = held.id →
      row.lease = some held.lease)
    (hunique : ∀ held ∈ Replayer.records ⟨p.lease, stage⟩, held.Live config world.clock →
      ∀ (s : ℕ) (q : Replayer), s ≠ r → world.replayers[s]? = some q →
      ∀ other ∈ q.records, held.id = other.id → ¬ other.Live config world.clock) :
    Inv config { world.stage r p stage with rows := rows, replayed := replayed, failed := failed }
      where
  history := hhistory
  sorted := hI.sorted
  distinct := hI.distinct
  below := hI.below
  failed := hfailed
  since := by
    intro s q hq
    rcases getElem?_set_cases hq with ⟨-, rfl⟩ | ⟨-, hold⟩
    · exact hI.since r p hp
    · exact hI.since s q hold
  standing := by
    intro s q hq
    rcases getElem?_set_cases hq with ⟨-, rfl⟩ | ⟨hne, hold⟩
    · exact hmine
    · exact hothers s q hne hold
  leased := by
    intro s q hq
    rcases getElem?_set_cases hq with ⟨-, rfl⟩ | ⟨hne, hold⟩
    · exact hmyLeases
    · exact hleases s q hne hold
  unique := by
    intro s t q u hq hu h hh k hk heq hlive hlive'
    rcases getElem?_set_cases hq with ⟨hsr, rfl⟩ | ⟨hsr, hqold⟩
    · rcases getElem?_set_cases hu with ⟨htr, rfl⟩ | ⟨htr, huold⟩
      · rw [hsr, htr]
      · exact absurd hlive' (hunique h hh hlive t u htr huold k hk heq)
    · rcases getElem?_set_cases hu with ⟨htr, rfl⟩ | ⟨htr, huold⟩
      · exact absurd hlive (hunique k hk hlive' s q hsr hqold h hh heq.symm)
      · exact hI.unique s t q u hqold huold h hh k hk heq hlive hlive'
  fresh := fun e q hq hactive =>
    let hfresh := hI.fresh e q hq hactive
    ⟨hfresh.below, hfresh.new, hfresh.distinct, hfresh.behind, hfresh.sorted, hfresh.planned⟩
  alone := hI.alone

/-- Leases a call keeps are nobody else's. -/
theorem Inv.unique_of_records (hI : Inv config world) (hp : world.replayers[r]? = some p)
    {held : Held} (hheld : held ∈ p.records) (hlive : held.Live config world.clock) (s : ℕ)
    (q : Replayer) (hne : s ≠ r) (hq : world.replayers[s]? = some q) (other : Held)
    (hother : other ∈ q.records) (heq : held.id = other.id) : ¬ other.Live config world.clock :=
  fun hlive' => hne (hI.unique r s p q hp hq held hheld other hother heq hlive hlive').symm

/-- A call moves on and keeps some of its leases. -/
theorem Inv.restage (hI : Inv config world) (hp : world.replayers[r]? = some p) {stage : Stage}
    {failed : List Letter} (hfailed : ∀ letter ∈ failed, letter ∈ world.parked)
    (hmine : Standing config world.clock world.parked (letters world.rows) p.lease stage)
    (hkept : ∀ held ∈ Replayer.records ⟨p.lease, stage⟩, held ∈ p.records) :
    Inv config { world.stage r p stage with failed := failed } :=
  hI.update hp hI.history hfailed hmine (fun s q _ hq => hI.standing s q hq)
    (fun held hheld => hI.leased r p hp held (hkept held hheld))
    (fun s q _ hq => hI.leased s q hq)
    (fun held hheld hlive s q => hI.unique_of_records hp (hkept held hheld) hlive s q)

/-! Claims -/

theorem letters_map_lease (f : Row → Row) (hf : ∀ row, (f row).letter = row.letter)
    (rows : List Row) : letters (rows.map f) = letters rows := by
  unfold letters
  rw [List.map_map]
  exact List.map_congr_left fun row _ => hf row

theorem claim_eq_some {id lease : ℕ} {skipped : Bool} {rows : List Row}
    (h : world.claim config r id lease skipped = some rows) :
    (∃ row ∈ world.rows, row.letter.id = id ∧ row.free config lease = true) ∧
    rows = world.rows.map fun row =>
      if row.letter.id = id then { row with lease := some lease } else row := by
  unfold World.claim at h
  split_ifs at h with hguard
  rw [Bool.and_eq_true] at hguard
  obtain ⟨row, hrow, hfree⟩ := List.any_eq_true.mp hguard.2
  rw [Bool.and_eq_true, beq_iff_eq] at hfree
  exact ⟨⟨row, hrow, hfree⟩, (Option.some.inj h).symm⟩

/-- A letter with a live lease cannot be claimed. -/
theorem Inv.no_live_of_free (hI : Inv config world) {id lease : ℕ} (hle : lease ≤ world.clock)
    {row : Row} (hrow : row ∈ world.rows) (hid : row.letter.id = id)
    (hfree : row.free config lease = true) {s : ℕ} {q : Replayer}
    (hq : world.replayers[s]? = some q) {held : Held} (hheld : held ∈ q.records)
    (heq : held.id = id) : ¬ held.Live config world.clock := by
  intro hlive
  have hleased := hI.leased s q hq held hheld hlive row hrow (hid.trans heq.symm)
  unfold Row.free at hfree
  rw [hleased] at hfree
  have hexpired : held.lease + config.claimDurationMs ≤ lease := of_decide_eq_true hfree
  unfold Held.Live at hlive
  omega

/-- A claim that works gives the call a lease nobody else has. -/
theorem Inv.claimed (hI : Inv config world) (hp : world.replayers[r]? = some p) {stage : Stage}
    {id lease : ℕ} {skipped : Bool} {rows : List Row} (hle : lease ≤ world.clock)
    (hclaim : world.claim config r id lease skipped = some rows)
    (hmine : Standing config world.clock world.parked (letters world.rows) p.lease stage)
    (hkept : ∀ held ∈ Replayer.records ⟨p.lease, stage⟩, held = ⟨id, lease⟩ ∨ held ∈ p.records) :
    Inv config { world.stage r p stage with rows := rows } := by
  obtain ⟨⟨row, hrow, hid, hfree⟩, rfl⟩ := claim_eq_some hclaim
  have hdead : ∀ (s : ℕ) (q : Replayer), world.replayers[s]? = some q → ∀ held ∈ q.records,
      held.id = id → ¬ held.Live config world.clock :=
    fun s q hq held hheld heq => hI.no_live_of_free hle hrow hid hfree hq hheld heq
  have hsame := letters_map_lease
    (fun row => if row.letter.id = id then { row with lease := some lease } else row)
    (fun row => by split_ifs <;> rfl) world.rows
  have hkeeps : ∀ (s : ℕ) (q : Replayer), world.replayers[s]? = some q → ∀ held ∈ q.records,
      held.Live config world.clock → ∀ row ∈ world.rows.map (fun row =>
        if row.letter.id = id then { row with lease := some lease } else row),
      row.letter.id = held.id → row.lease = some held.lease := by
    intro s q hq held hheld hlive changed hchanged hletter
    obtain ⟨old, hold, rfl⟩ := List.mem_map.mp hchanged
    split_ifs at hletter ⊢ with hthis
    · exact absurd hlive (hdead s q hq held hheld (hletter.symm.trans hthis))
    · exact hI.leased s q hq held hheld hlive old hold hletter
  refine hI.update hp (by rw [hsame]; exact hI.history) hI.failed (by rw [hsame]; exact hmine)
    ?_ ?_ (fun s q _ hq => hkeeps s q hq) ?_
  · intro s q _ hq
    rw [hsame]
    exact hI.standing s q hq
  · intro held hheld hlive
    rcases hkept held hheld with rfl | hold
    · intro changed hchanged hletter
      obtain ⟨old, hold, rfl⟩ := List.mem_map.mp hchanged
      split_ifs at hletter ⊢ with hthis
      · rfl
      · exact absurd hletter hthis
    · exact hkeeps r p hp held hold hlive
  · intro held hheld hlive s q hne hq other hother heq
    rcases hkept held hheld with rfl | hold
    · exact hdead s q hq other hother heq.symm
    · exact hI.unique_of_records hp hold hlive s q hne hq other hother heq

/-- A lease is cleared only where it is still the one the call took. -/
theorem Inv.cleared (hI : Inv config world) (hp : world.replayers[r]? = some p) {stage : Stage}
    {held : Held} (hheld : held ∈ p.records)
    (hmine : Standing config world.clock world.parked (letters world.rows) p.lease stage)
    (hkept : ∀ other ∈ Replayer.records ⟨p.lease, stage⟩, other ∈ p.records ∧ other.id ≠ held.id) :
    Inv config { world.stage r p stage with rows := clear held world.rows } := by
  have hsame : letters (clear held world.rows) = letters world.rows :=
    letters_map_lease _ (fun row => by split_ifs <;> rfl) world.rows
  have hkeeps : ∀ (s : ℕ) (q : Replayer), world.replayers[s]? = some q → ∀ other ∈ q.records,
      (s ≠ r ∨ other.id ≠ held.id) → other.Live config world.clock →
      ∀ row ∈ clear held world.rows, row.letter.id = other.id → row.lease = some other.lease := by
    intro s q hq other hother hnot hlive changed hchanged hletter
    obtain ⟨old, hold, rfl⟩ := List.mem_map.mp hchanged
    split_ifs at hletter ⊢ with hthis
    · have hleased := hI.leased s q hq other hother hlive old hold hletter
      have hvalue : other.lease = held.lease := by
        rw [hleased] at hthis
        exact Option.some.inj hthis.2
      have hid : other.id = held.id := hletter.symm.trans hthis.1
      have hheldLive : held.Live config world.clock := by
        unfold Held.Live at hlive ⊢
        rw [← hvalue]
        exact hlive
      rcases hnot with hne | hne
      · exact absurd (hI.unique s r q p hq hp other hother held hheld hid hlive hheldLive) hne
      · exact absurd hid hne
    · exact hI.leased s q hq other hother hlive old hold hletter
  refine hI.update hp (by rw [hsame]; exact hI.history) hI.failed (by rw [hsame]; exact hmine)
    ?_ ?_ ?_ ?_
  · intro s q _ hq
    rw [hsame]
    exact hI.standing s q hq
  · intro other hother hlive
    exact hkeeps r p hp other (hkept other hother).1 (.inr (hkept other hother).2) hlive
  · intro s q hne hq other hother hlive
    exact hkeeps s q hq other hother (.inl hne) hlive
  · intro other hother hlive
    exact hI.unique_of_records hp (hkept other hother).1 hlive

/-! ## The steps of a call -/

theorem Inv.mem_parked (hI : Inv config world) {letter : Letter} (h : letter ∈ letters world.rows) :
    letter ∈ world.parked := by
  rw [← hI.history]
  exact List.mem_append_right _ h

theorem Inv.lane_distinct (hI : Inv config world) : (ids (letters world.rows)).Nodup := by
  have hdistinct := hI.distinct
  rw [← hI.history, ids_append] at hdistinct
  exact (List.nodup_append.mp hdistinct).2.1

theorem Inv.readHead {wanted : Bool} (hI : Inv config world) (hp : world.replayers[r]? = some p)
    (h : world.readHead config r p wanted = some after) : Inv config after := by
  unfold World.readHead at h
  split at h
  case h_2 => cases h
  case h_1 hstage =>
    have hfinished : Inv config (world.stage r p .finished) :=
      hI.restage hp hI.failed trivial (by intro held hheld; cases hheld)
    split at h
    case h_2 =>
      cases h
      exact hfinished
    case h_1 row rows hrows =>
      split_ifs at h
      · cases h
        have hmem : row.letter ∈ letters world.rows := by
          rw [hrows]
          exact List.mem_cons_self
        refine hI.restage hp hI.failed ⟨?_, .inr ⟨row.letter, letters rows, ?_, rfl⟩⟩
          (by intro held hheld; cases hheld)
        · exact List.mem_map_of_mem (hI.mem_parked hmem)
        · rw [hrows]
          rfl
      · cases h
        exact hfinished

theorem Inv.claimFirst {skipped : Bool} (hI : Inv config world) (hp : world.replayers[r]? = some p)
    (h : world.claimFirst config r p skipped = some after) : Inv config after := by
  unfold World.claimFirst at h
  split at h
  case h_2 => cases h
  case h_1 id hstage =>
    have hstanding := hI.standing r p hp
    rw [hstage] at hstanding
    split at h
    case h_1 rows hclaim =>
      cases h
      obtain ⟨⟨row, hrow, hid, -⟩, -⟩ := claim_eq_some hclaim
      have hpresent : id ∈ ids (letters world.rows) := by
        rw [← hid]
        exact List.mem_map_of_mem (List.mem_map_of_mem hrow)
      refine hI.claimed hp (hI.since r p hp) hclaim ⟨hstanding.1, hstanding.2, fun _ => hpresent⟩ ?_
      intro held hheld
      exact .inl (List.mem_singleton.mp hheld)
    case h_2 =>
      cases h
      exact hI.restage hp hI.failed trivial (by intro held hheld; cases hheld)

/-- Under a live lease the lane that is read starts with the claimed letter. -/
theorem Inv.walk_of_claimed (hI : Inv config world) {id lease : ℕ}
    (hclaimed : Standing config world.clock world.parked (letters world.rows) lease (.claimed id)) :
    Walk config world.clock world.parked (letters world.rows) (letters world.rows) ⟨id, lease⟩ where
  distinct := hI.lane_distinct
  apart := by
    intro hmem
    rcases hclaimed.2.1 with hgone | ⟨letter, rest, hlane, hid⟩
    · exact hgone (List.mem_of_mem_tail (by rw [ids, ← List.map_tail]; exact hmem))
    · have hdistinct := hI.lane_distinct
      rw [hlane] at hdistinct hmem
      rw [← show letter.id = id from hid] at hmem
      exact (List.nodup_cons.mp hdistinct).1 hmem
  known := fun letter hletter => hI.mem_parked hletter
  holds := hclaimed.1
  head := by
    intro hlive
    rcases hclaimed.2.1 with hgone | ⟨letter, rest, hlane, hid⟩
    · exact absurd (hclaimed.2.2 hlive) hgone
    · exact ⟨letter, rest, [], hlane, hid, (List.append_nil _).symm⟩

theorem records_of_stage {stage : Stage} (hstage : p.stage = stage) :
    p.records = Replayer.records ⟨p.lease, stage⟩ := by
  subst hstage
  rfl

theorem Inv.readLane {passes : Bool} (hI : Inv config world) (hp : world.replayers[r]? = some p)
    (h : world.readLane r p passes = some after) : Inv config after := by
  unfold World.readLane at h
  split at h
  case h_2 => cases h
  case h_1 id hstage =>
    have hstanding := hI.standing r p hp
    have hrecords := records_of_stage hstage
    rw [hstage] at hstanding
    split_ifs at h
    · cases h
      refine hI.restage hp hI.failed (hI.walk_of_claimed hstanding) ?_
      intro held hheld
      rw [hrecords]
      exact hheld
    · cases h
      refine hI.restage hp hI.failed ⟨List.nodup_singleton _, ?_⟩ ?_
      · intro held hheld
        rw [List.mem_singleton.mp hheld]
        exact hstanding.1
      · intro held hheld
        rw [hrecords]
        exact hheld

theorem Inv.decided {shouldEnqueue : Bool} (hI : Inv config world)
    (hp : world.replayers[r]? = some p) (h : world.decided r p shouldEnqueue = some after) :
    Inv config after := by
  unfold World.decided at h
  split at h
  case h_2 => cases h
  case h_1 letter rows held hstage =>
    have hwalk := hI.standing r p hp
    have hrecords := records_of_stage hstage
    rw [hstage] at hwalk
    have hkept : ∀ other ∈ [held], other ∈ p.records := by
      intro other hother
      rw [hrecords]
      exact hother
    split_ifs at h
    · cases h
      refine hI.restage hp ?_ (Walk.holds hwalk) hkept
      intro failed hfailed
      rcases List.mem_append.mp hfailed with hold | hnew
      · exact hI.failed failed hold
      · rw [List.mem_singleton.mp hnew]
        exact Walk.known hwalk letter List.mem_cons_self
    · split at h
      · cases h
        refine hI.restage hp hI.failed ⟨hwalk, ?_⟩ hkept
        intro n hn
        cases hn
      · rename_i following rest
        cases h
        exact hI.restage hp hI.failed
          ⟨hwalk, Nat.le_refl _, letter, following, rest, rfl, rfl⟩ hkept

theorem Inv.claimNext {skipped : Bool} (hI : Inv config world) (hp : world.replayers[r]? = some p)
    (h : world.claimNext config r p skipped = some after) : Inv config after := by
  unfold World.claimNext at h
  split at h
  case h_2 => cases h
  case h_1 rows held following lease hstage =>
    have hstanding := hI.standing r p hp
    have hrecords := records_of_stage hstage
    rw [hstage] at hstanding
    obtain ⟨hwalk, hle, hfollows⟩ := hstanding
    split at h
    case h_1 claimed hclaim =>
      cases h
      refine hI.claimed hp hle hclaim ⟨hwalk, ?_⟩ ?_
      · intro n hn
        cases hn
        exact hfollows
      · intro other hother
        rw [hrecords]
        rcases List.mem_cons.mp hother with rfl | hnext
        · exact .inr List.mem_cons_self
        · exact .inl (List.mem_singleton.mp hnext)
    case h_2 =>
      cases h
      refine hI.restage hp hI.failed ⟨hwalk, ?_⟩ ?_
      · intro n hn
        cases hn
      · intro other hother
        rw [hrecords]
        exact hother

theorem Inv.evict (hI : Inv config world) (hp : world.replayers[r]? = some p)
    (h : world.evict r p = some after) : Inv config after := by
  unfold World.evict at h
  split at h
  case h_2 => cases h
  case h_1 letter rows held next hstage =>
    have hstanding := hI.standing r p hp
    have hrecords := records_of_stage hstage
    rw [hstage] at hstanding
    split_ifs at h
    cases h
    refine hI.restage hp hI.failed hstanding ?_
    intro other hother
    rw [hrecords]
    exact hother

theorem letters_filter (id : ℕ) (rows : List Row) :
    letters (rows.filter fun row => row.letter.id != id) =
      (letters rows).filter fun letter => letter.id != id := by
  unfold letters
  rw [List.filter_map]
  rfl

theorem filter_head {letter : Letter} {rest : List Letter} (h : (ids (letter::rest)).Nodup) :
    (letter::rest).filter (fun other => other.id != letter.id) = rest := by
  rw [List.filter_cons_of_neg (by simp), List.filter_eq_self]
  intro other hother
  have hnot := (List.nodup_cons.mp h).1
  have hne : other.id ≠ letter.id := by
    intro heq
    apply hnot
    rw [← heq]
    exact List.mem_map_of_mem hother
  simpa using hne

/-- A commit under a live lease takes the head of the lane away. -/
theorem Inv.commit {reported : Bool} (hI : Inv config world) (hp : world.replayers[r]? = some p)
    (htimely : ∀ rows held next, p.stage = .evicted rows held next → held.Live config world.clock)
    (h : world.commit r p reported = some after) : Inv config after := by
  unfold World.commit at h
  split at h
  case h_2 => cases h
  case h_1 letter rows held next hstage =>
    have hstanding := hI.standing r p hp
    have hrecords := records_of_stage hstage
    rw [hstage] at hstanding
    obtain ⟨hwalk, hnext⟩ := hstanding
    have hlive := htimely _ _ _ hstage
    have hheld : held ∈ p.records := by
      rw [hrecords]
      exact List.mem_cons_self
    obtain ⟨first, rest, later, heq, hid, hlane⟩ := hwalk.head hlive
    cases heq
    have hdistinct := hI.lane_distinct
    have hlane' : letters (world.rows.filter fun row => row.letter.id != letter.id) =
        rows ++ later := by
      rw [letters_filter, hlane, List.cons_append]
      rw [hlane, List.cons_append] at hdistinct
      exact filter_head hdistinct
    cases h
    generalize hmoved : (if reported = true then _ else Stage.releasing (held::next.toList)) = stage
    have hkept : ∀ other ∈ Replayer.records ⟨p.lease, stage⟩, other ∈ p.records := by
      intro other hother
      rw [hrecords]
      rw [← hmoved] at hother
      cases reported with
      | false => exact hother
      | true =>
          cases next with
          | none => cases hother
          | some n => exact List.mem_cons_of_mem _ hother
    refine hI.update hp ?_ hI.failed ?_ ?_ ?_ ?_ ?_
    · rw [hlane', List.append_assoc, List.singleton_append, ← List.cons_append, ← hlane]
      exact hI.history
    · rw [hlane', ← hmoved]
      split_ifs
      · cases next with
        | none => trivial
        | some n =>
            obtain ⟨first, following, rest, heq, hfollowing⟩ := hnext n rfl
            cases heq
            have hrows := (List.nodup_cons.mp hwalk.distinct).2
            exact {
              distinct := hrows
              apart := by
                intro hmem
                rw [← hfollowing] at hmem
                exact (List.nodup_cons.mp hrows).1 hmem
              known := fun l hl => hwalk.known l (List.mem_cons_of_mem _ hl)
              holds := (hnext n rfl).mem_parked hwalk
              head := fun _ => ⟨following, rest, later, rfl, hfollowing, rfl⟩ }
      · exact hwalk.records hnext
    · intro s q hne hq
      rw [hlane']
      have hother := hI.standing s q hq
      rw [hlane, List.cons_append] at hother hdistinct
      refine Standing.evict hdistinct ?_ hother
      intro other hmem hsame
      exact hI.unique_of_records hp hheld hlive s q hne hq other hmem (hid.symm.trans hsame.symm)
    · intro other hother hother_live row hrow
      exact hI.leased r p hp other (hkept other hother) hother_live row (List.mem_filter.mp hrow).1
    · intro s q _ hq other hother hother_live row hrow
      exact hI.leased s q hq other hother hother_live row (List.mem_filter.mp hrow).1
    · exact fun other hother => hI.unique_of_records hp (hkept other hother)

/-- The leases a walk releases when its unit of work fails are all it has. -/
theorem Standing.unitOfWork {rows : List Letter} {leases : List Held}
    (h : Standing config clock parked lane p.lease p.stage)
    (hopen : p.stage.unitOfWork = some (rows, leases)) :
    p.records = leases ∧ ∀ letter ∈ rows, letter ∈ parked := by
  unfold Replayer.records
  cases hstage : p.stage with
  | replaying letters held =>
      rw [hstage] at h hopen
      cases hopen
      exact ⟨rfl, Walk.known h⟩
  | claiming letters held following since =>
      rw [hstage] at h hopen
      cases hopen
      exact ⟨rfl, h.1.known⟩
  | handed letters held next =>
      rw [hstage] at h hopen
      cases hopen
      exact ⟨rfl, h.1.known⟩
  | evicted letters held next =>
      rw [hstage] at h hopen
      cases hopen
      exact ⟨rfl, h.1.known⟩
  | started => rw [hstage] at hopen; cases hopen
  | candidate id => rw [hstage] at hopen; cases hopen
  | claimed id => rw [hstage] at hopen; cases hopen
  | failed held => rw [hstage] at hopen; cases hopen
  | releasing leases => rw [hstage] at hopen; cases hopen
  | finished => rw [hstage] at hopen; cases hopen

/-- The letter at hand of a walk that did not commit is a parked one. -/
theorem Inv.failed_concat (hI : Inv config world) {rows : List Letter}
    (hrows : ∀ letter ∈ rows, letter ∈ world.parked) :
    ∀ letter ∈ world.failed ++ rows.take 1, letter ∈ world.parked := by
  intro letter hletter
  rcases List.mem_append.mp hletter with hold | hnew
  · exact hI.failed letter hold
  · exact hrows letter (List.mem_of_mem_take hnew)

theorem Inv.rollback (hI : Inv config world) (hp : world.replayers[r]? = some p)
    (h : world.rollback r p = some after) : Inv config after := by
  unfold World.rollback at h
  split at h
  case h_2 => cases h
  case h_1 rows leases hopen =>
    cases h
    have hstanding := hI.standing r p hp
    obtain ⟨hrecords, hrows⟩ := hstanding.unitOfWork hopen
    refine hI.restage hp (hI.failed_concat hrows) ?_ ?_
    · rw [← hrecords]
      exact hstanding.records
    · intro held hheld
      rw [hrecords]
      exact hheld

theorem Inv.requeue (hI : Inv config world) (hp : world.replayers[r]? = some p)
    (h : world.requeue r p = some after) : Inv config after := by
  unfold World.requeue at h
  split at h
  case h_2 => cases h
  case h_1 held hstage =>
    split_ifs at h
    cases h
    refine hI.cleared hp ?_ trivial ?_
    · rw [records_of_stage hstage]
      exact List.mem_cons_self
    · intro other hother
      cases hother

theorem Inv.requeueFails (hI : Inv config world) (hp : world.replayers[r]? = some p)
    (h : world.requeueFails r p = some after) : Inv config after := by
  unfold World.requeueFails at h
  split at h
  case h_2 => cases h
  case h_1 held hstage =>
    cases h
    have hstanding := hI.standing r p hp
    have hrecords := records_of_stage hstage
    have hboth := hstanding.records
    rw [hrecords] at hboth
    refine hI.restage hp hI.failed hboth ?_
    intro other hother
    rw [hrecords]
    exact hother

theorem Inv.release {works : Bool} (hI : Inv config world) (hp : world.replayers[r]? = some p)
    (h : world.release r p works = some after) : Inv config after := by
  unfold World.release at h
  split at h
  case h_2 => cases h
  case h_1 held leases hstage =>
    have hboth := (hI.standing r p hp).records
    have hrecords : p.records = held::leases := records_of_stage hstage
    rw [hrecords, List.map_cons, List.nodup_cons] at hboth
    obtain ⟨⟨hnot, hnodup⟩, hparked⟩ := hboth
    have hrest : Standing config world.clock world.parked (letters world.rows) p.lease
        (.releasing leases) :=
      ⟨hnodup, fun other hother => hparked other (List.mem_cons_of_mem _ hother)⟩
    split_ifs at h
    · cases h
      refine hI.cleared hp ?_ hrest ?_
      · rw [hrecords]
        exact List.mem_cons_self
      · intro other hother
        refine ⟨?_, ?_⟩
        · rw [hrecords]
          exact List.mem_cons_of_mem _ hother
        · intro heq
          apply hnot
          rw [← heq]
          exact List.mem_map_of_mem hother
    · cases h
      refine hI.restage hp hI.failed hrest ?_
      intro other hother
      rw [hrecords]
      exact List.mem_cons_of_mem _ hother

theorem Inv.crash (hI : Inv config world) (hp : world.replayers[r]? = some p) :
    Inv config (world.crash r p) := by
  have hnone : ∀ held ∈ Replayer.records ⟨p.lease, .finished⟩, held ∈ p.records := by
    intro held hheld
    cases hheld
  unfold World.crash
  split
  case h_1 rows leases hopen =>
    obtain ⟨-, hrows⟩ := (hI.standing r p hp).unitOfWork hopen
    exact hI.restage hp (hI.failed_concat hrows) trivial hnone
  case h_2 => exact hI.restage hp hI.failed trivial hnone

/-! ## The steps of a live batch -/

variable {e : ℕ} {q : Enqueuer}

/-- One transaction moves on; the lane does not change. -/
theorem Inv.setEnqueuer (hI : Inv config world) {next : Enqueuer} {nextId : ℕ}
    (hle : world.nextId ≤ nextId)
    (hfresh : next.ended = false → Fresh { world with nextId := nextId } next)
    (halone : next.Engaged → ∀ (f : ℕ) (u : Enqueuer), f ≠ e → world.enqueuers[f]? = some u →
      ¬ u.Engaged) :
    Inv config { world.setEnqueuer e next with nextId := nextId } where
  history := hI.history
  sorted := hI.sorted
  distinct := hI.distinct
  below := fun letter hletter => Nat.lt_of_lt_of_le (hI.below letter hletter) hle
  failed := hI.failed
  since := hI.since
  standing := hI.standing
  leased := hI.leased
  unique := hI.unique
  fresh := by
    intro f u hu hactive
    rcases getElem?_set_cases hu with ⟨-, rfl⟩ | ⟨-, hold⟩
    · have h := hfresh hactive
      exact ⟨h.below, h.new, h.distinct, h.behind, h.sorted, h.planned⟩
    · have h := hI.fresh f u hold hactive
      exact ⟨fun letter hletter => Nat.lt_of_lt_of_le (h.below letter hletter) hle, h.new,
        h.distinct,
        h.behind, h.sorted, h.planned⟩
  alone := by
    intro f g u v hu hv hfu hgv
    rcases getElem?_set_cases hu with ⟨hfe, rfl⟩ | ⟨hfe, huold⟩
    · rcases getElem?_set_cases hv with ⟨hge, rfl⟩ | ⟨hge, hvold⟩
      · rw [hfe, hge]
      · exact absurd hgv (halone hfu g v hge hvold)
    · rcases getElem?_set_cases hv with ⟨hge, rfl⟩ | ⟨hge, hvold⟩
      · exact absurd hfu (halone hgv f u hfe huold)
      · exact hI.alone f g u v huold hvold hfu hgv

theorem not_engaged_of_ended {enqueuer : Enqueuer} (h : enqueuer.ended = true) :
    ¬ enqueuer.Engaged := by
  rintro ⟨hactive, -⟩
  rw [h] at hactive
  cases hactive

theorem Inv.endBatch (hI : Inv config world) (enqueuer : Enqueuer)
    (hended : enqueuer.ended = true) :
    Inv config (world.setEnqueuer e enqueuer) :=
  hI.setEnqueuer (Nat.le_refl _)
    (by intro hactive; rw [hended] at hactive; cases hactive)
    (fun hengaged => absurd hengaged (not_engaged_of_ended hended))

/-- Every letter of the lane's history is below the index after its last one. -/
theorem Inv.planned_behind (hI : Inv config world) (hfresh : Fresh world q) {last : ℕ}
    (hmax : ((letters world.rows ++ q.own).map Letter.index).max? = some last) :
    ∀ letter ∈ world.parked ++ q.own, letter.index < last + 1 := by
  obtain ⟨hmem, hle⟩ := List.max?_eq_some_iff.mp hmax
  have hseen : ∀ letter ∈ letters world.rows ++ q.own, letter.index < last + 1 :=
    fun letter hletter => Nat.lt_succ_of_le (hle _ (List.mem_map_of_mem hletter))
  intro letter hletter
  rw [← hI.history, List.append_assoc, List.mem_append] at hletter
  rcases hletter with hgone | hthere
  · obtain ⟨other, hother, hindex⟩ := List.mem_map.mp hmem
    have hbefore : letter.index < other.index := by
      rcases List.mem_append.mp hother with hrow | hown
      · have hsorted := hI.sorted
        rw [← hI.history] at hsorted
        exact (List.pairwise_append.mp hsorted).2.2 letter hgone other hrow
      · refine hfresh.behind letter ?_ other hown
        rw [← hI.history]
        exact List.mem_append_left _ hgone
    exact hbefore.trans (hseen other hother)
  · exact hseen letter hthere

theorem Inv.laneStats (hI : Inv config world) (hq : world.enqueuers[e]? = some q)
    (hapart : ∀ (f : ℕ) (u : Enqueuer), f ≠ e → world.enqueuers[f]? = some u → ¬ u.Engaged)
    (h : world.laneStats config e q = some after) : Inv config after := by
  unfold World.laneStats at h
  split at h
  case h_2 => cases h
  case h_1 hactive hnone =>
    have hfresh := hI.fresh e q hq hactive
    simp only at h
    split at h
    case h_1 =>
      cases h
      exact hI
    case h_2 last hmax =>
      split_ifs at h
      · cases h
        exact hI.endBatch _ rfl
      · cases h
        refine hI.setEnqueuer (Nat.le_refl _) (fun _ => ?_) (fun _ => hapart)
        refine ⟨hfresh.below, hfresh.new, hfresh.distinct, hfresh.behind, hfresh.sorted, ?_⟩
        intro index hindex
        cases hindex
        exact hI.planned_behind hfresh hmax

theorem Inv.insertLetter (hI : Inv config world) (hq : world.enqueuers[e]? = some q)
    (h : world.insertLetter e q = some after) : Inv config after := by
  unfold World.insertLetter at h
  split at h
  case h_2 => cases h
  case h_1 index hactive hplanned =>
    cases h
    have hfresh := hI.fresh e q hq hactive
    have hbehind := hfresh.planned index hplanned
    refine hI.setEnqueuer (Nat.le_succ _) (fun _ => ?_) ?_
    · constructor
      case below =>
        intro letter hletter
        rcases List.mem_append.mp hletter with hold | hnew
        · exact Nat.lt_succ_of_lt (hfresh.below letter hold)
        · rw [List.mem_singleton.mp hnew]
          exact Nat.lt_succ_self _
      case new =>
        intro id hid hown
        rw [ids_append, List.mem_append] at hown
        rcases hown with hold | hnew
        · exact hfresh.new id hid hold
        · obtain ⟨letter, hletter, rfl⟩ := List.mem_map.mp hid
          have hlt := hI.below letter hletter
          have heq : letter.id = world.nextId := List.mem_singleton.mp hnew
          omega
      case distinct =>
        rw [ids_append]
        refine List.nodup_append.mpr ⟨hfresh.distinct, List.nodup_singleton _, ?_⟩
        intro a ha b hb hab
        obtain ⟨letter, hletter, rfl⟩ := List.mem_map.mp ha
        have hlt := hfresh.below letter hletter
        have heq : b = world.nextId := List.mem_singleton.mp hb
        omega
      case behind =>
        intro letter hletter own hown
        rcases List.mem_append.mp hown with hold | hnew
        · exact hfresh.behind letter hletter own hold
        · rw [List.mem_singleton.mp hnew]
          exact hbehind letter (List.mem_append_left _ hletter)
      case sorted =>
        refine List.pairwise_append.mpr ⟨hfresh.sorted, List.pairwise_singleton _ _, ?_⟩
        intro a ha b hb
        rw [List.mem_singleton.mp hb]
        exact hbehind a (List.mem_append_right _ ha)
      case planned =>
        intro next hnext
        cases hnext
    · intro _ f u hne hu hengaged
      have hmine : q.Engaged := ⟨hactive, .inl (by rw [hplanned]; rfl)⟩
      exact hne (hI.alone f e u q hu hq hengaged hmine)

theorem insertRow_behind {letter : Letter} {rows : List Row}
    (h : ∀ row ∈ rows, row.letter.index < letter.index) :
    insertRow letter rows = rows ++ [⟨letter, none⟩] := by
  unfold insertRow
  have hall : ∀ row ∈ rows, decide (row.letter.index ≤ letter.index) = true :=
    fun row hrow => decide_eq_true (Nat.le_of_lt (h row hrow))
  rw [List.takeWhile_eq_self_iff.mpr hall, List.dropWhile_eq_nil_iff.mpr hall]

theorem foldl_insertRow {own : List Letter} {rows : List Row}
    (hbehind : ∀ row ∈ rows, ∀ letter ∈ own, row.letter.index < letter.index)
    (hsorted : own.Pairwise fun a b => a.index < b.index) :
    own.foldl (fun rows letter => insertRow letter rows) rows =
      rows ++ own.map fun letter => ⟨letter, none⟩ := by
  induction own generalizing rows with
  | nil => simp
  | cons letter own ih =>
      obtain ⟨hfirst, hrest⟩ := List.pairwise_cons.mp hsorted
      rw [List.foldl_cons,
        insertRow_behind fun row hrow => hbehind row hrow letter List.mem_cons_self,
        ih _ hrest, List.map_cons, List.append_assoc, List.singleton_append]
      intro row hrow other hother
      rcases List.mem_append.mp hrow with hold | hnew
      · exact hbehind row hold other (List.mem_cons_of_mem _ hother)
      · rw [List.mem_singleton.mp hnew]
        exact hfirst other hother

theorem Inv.commitBatch (hI : Inv config world) (hq : world.enqueuers[e]? = some q)
    (h : world.commitBatch e q = some after) : Inv config after := by
  unfold World.commitBatch at h
  split at h
  case h_2 => cases h
  case h_1 hactive hnone =>
    cases h
    have hfresh := hI.fresh e q hq hactive
    have hrows : q.own.foldl (fun rows letter => insertRow letter rows) world.rows =
        world.rows ++ q.own.map fun letter => ⟨letter, none⟩ := by
      apply foldl_insertRow _ hfresh.sorted
      intro row hrow letter hletter
      exact hfresh.behind row.letter (hI.mem_parked (List.mem_map_of_mem hrow)) letter hletter
    have hlane : letters (world.rows ++ q.own.map fun letter => ⟨letter, none⟩) =
        letters world.rows ++ q.own := by
      simp [letters, Function.comp_def]
    rw [hrows]
    constructor
    case history =>
      rw [hlane, ← List.append_assoc]
      exact congrArg (· ++ q.own) hI.history
    case sorted => exact List.pairwise_append.mpr ⟨hI.sorted, hfresh.sorted, hfresh.behind⟩
    case distinct =>
      change (ids (world.parked ++ q.own)).Nodup
      rw [ids_append]
      refine List.nodup_append.mpr ⟨hI.distinct, hfresh.distinct, ?_⟩
      intro a ha b hb hab
      rw [← hab] at hb
      exact hfresh.new a ha hb
    case below =>
      intro letter hletter
      rcases List.mem_append.mp hletter with hold | hnew
      · exact hI.below letter hold
      · exact hfresh.below letter hnew
    case failed => exact fun letter hletter => List.mem_append_left _ (hI.failed letter hletter)
    case since => exact hI.since
    case standing =>
      intro r p hp
      rw [hlane]
      exact (hI.standing r p hp).append hfresh.new
    case leased =>
      intro r p hp held hheld hlive row hrow hid
      rcases List.mem_append.mp hrow with hold | hnew
      · exact hI.leased r p hp held hheld hlive row hold hid
      · obtain ⟨letter, hletter, rfl⟩ := List.mem_map.mp hnew
        have hparked := (hI.standing r p hp).records.2 held hheld
        rw [← show letter.id = held.id from hid] at hparked
        exact absurd (List.mem_map_of_mem hletter) (hfresh.new _ hparked)
    case unique => exact hI.unique
    case fresh =>
      intro f u hu hopen
      rcases getElem?_set_cases hu with ⟨-, rfl⟩ | ⟨hne, hold⟩
      · cases hopen
      · have hother := hI.fresh f u hold hopen
        by_cases hengaged : u.Engaged
        · -- two engaged transactions would be one, so this one has parked nothing
          have hown : q.own = [] := by
            by_contra hown
            exact hne (hI.alone f e u q hold hq hengaged ⟨hactive, .inr hown⟩)
          refine ⟨hother.below, ?_, hother.distinct, ?_, hother.sorted, ?_⟩
          · simpa [hown] using hother.new
          · simpa [hown] using hother.behind
          · simpa [hown] using hother.planned
        · have hidle : u.planned = none ∧ u.own = [] := by
            constructor
            · by_contra hplanned
              exact hengaged ⟨hopen, .inl (Option.isSome_iff_ne_none.mpr hplanned)⟩
            · by_contra hown
              exact hengaged ⟨hopen, .inr hown⟩
          obtain ⟨hplanned, hown⟩ := hidle
          constructor
          all_goals simp [hown, hplanned, ids]
    case alone =>
      intro f g u v hu hv hfu hgv
      rcases getElem?_set_cases hu with ⟨-, rfl⟩ | ⟨-, huold⟩
      · exact absurd hfu (not_engaged_of_ended rfl)
      · rcases getElem?_set_cases hv with ⟨-, rfl⟩ | ⟨-, hvold⟩
        · exact absurd hgv (not_engaged_of_ended rfl)
        · exact hI.alone f g u v huold hvold hfu hgv

/-! ## Runs -/

/-- A replay commits before its lease has been up for `claimDurationMs`. -/
def timely (config : Config) (world : World) : Action → Bool
  | .commit r _ =>
      match world.replayers[r]? with
      | some ⟨_, .evicted _ held _⟩ => decide (world.clock < held.lease + config.claimDurationMs)
      | _ => true
  | _ => true

/-- `laneStats` is read while no other transaction that has read it is open. -/
def apart (world : World) : Action → Bool
  | .laneStats e => !anyOther world.enqueuers e fun other =>
      !other.ended && (other.planned.isSome || !other.own.isEmpty)
  | _ => true

theorem live_of_timely {reported : Bool} (h : timely config world (.commit r reported) = true)
    (hp : world.replayers[r]? = some p) (rows : List Letter) (held : Held) (next : Option Held)
    (hstage : p.stage = .evicted rows held next) : held.Live config world.clock := by
  obtain ⟨lease, stage⟩ := p
  cases hstage
  simp only [timely, hp, decide_eq_true_eq] at h
  exact h

theorem not_engaged_of_apart {e : ℕ} (h : apart world (.laneStats e) = true) (f : ℕ) (u : Enqueuer)
    (hne : f ≠ e) (hu : world.enqueuers[f]? = some u) : ¬ u.Engaged := by
  unfold apart at h
  have hnot := anyOther_eq_false (by simpa using h) hu hne
  rintro ⟨hactive, hbusy⟩
  rw [hactive] at hnot
  rcases hbusy with hplanned | hown
  · simp [hplanned] at hnot
  · simp [hown] at hnot

theorem Inv.wait (hI : Inv config world) (ms : ℕ) :
    Inv config { world with clock := world.clock + ms } where
  history := hI.history
  sorted := hI.sorted
  distinct := hI.distinct
  below := hI.below
  failed := hI.failed
  since := fun r p hp => (hI.since r p hp).trans (Nat.le_add_right _ _)
  standing := fun r p hp => (hI.standing r p hp).later (Nat.le_add_right _ _)
  leased := fun r p hp held hheld hlive =>
    hI.leased r p hp held hheld (hlive.earlier (Nat.le_add_right _ _))
  unique := fun r s p q hp hq h hh k hk heq hlive hlive' =>
    hI.unique r s p q hp hq h hh k hk heq (hlive.earlier (Nat.le_add_right _ _))
      (hlive'.earlier (Nat.le_add_right _ _))
  fresh := fun e q hq hactive =>
    let h := hI.fresh e q hq hactive
    ⟨h.below, h.new, h.distinct, h.behind, h.sorted, h.planned⟩
  alone := hI.alone

theorem Inv.process (hI : Inv config world) :
    Inv config { world with replayers := world.replayers ++ [⟨world.clock, .started⟩] } where
  history := hI.history
  sorted := hI.sorted
  distinct := hI.distinct
  below := hI.below
  failed := hI.failed
  since := by
    intro s q hq
    rcases getElem?_concat_cases hq with ⟨-, rfl⟩ | hold
    · exact Nat.le_refl _
    · exact hI.since s q hold
  standing := by
    intro s q hq
    rcases getElem?_concat_cases hq with ⟨-, rfl⟩ | hold
    · trivial
    · exact hI.standing s q hold
  leased := by
    intro s q hq held hheld
    rcases getElem?_concat_cases hq with ⟨-, rfl⟩ | hold
    · cases hheld
    · exact hI.leased s q hold held hheld
  unique := by
    intro s t q u hq hu h hh k hk
    rcases getElem?_concat_cases hq with ⟨-, rfl⟩ | hqold
    · cases hh
    · rcases getElem?_concat_cases hu with ⟨-, rfl⟩ | huold
      · cases hk
      · exact hI.unique s t q u hqold huold h hh k hk
  fresh := fun e q hq hactive =>
    let h := hI.fresh e q hq hactive
    ⟨h.below, h.new, h.distinct, h.behind, h.sorted, h.planned⟩
  alone := hI.alone

theorem not_engaged_begun : ¬ Enqueuer.Engaged ⟨false, none, []⟩ := by
  rintro ⟨-, hplanned | hown⟩
  · cases hplanned
  · exact hown rfl

theorem Inv.batch (hI : Inv config world) :
    Inv config { world with enqueuers := world.enqueuers ++ [⟨false, none, []⟩] } where
  history := hI.history
  sorted := hI.sorted
  distinct := hI.distinct
  below := hI.below
  failed := hI.failed
  since := hI.since
  standing := hI.standing
  leased := hI.leased
  unique := hI.unique
  fresh := by
    intro e q hq hactive
    rcases getElem?_concat_cases hq with ⟨-, rfl⟩ | hold
    · constructor
      all_goals simp [ids]
    · have h := hI.fresh e q hold hactive
      exact ⟨h.below, h.new, h.distinct, h.behind, h.sorted, h.planned⟩
  alone := by
    intro f g u v hu hv hfu hgv
    rcases getElem?_concat_cases hu with ⟨-, rfl⟩ | huold
    · exact absurd hfu not_engaged_begun
    · rcases getElem?_concat_cases hv with ⟨-, rfl⟩ | hvold
      · exact absurd hgv not_engaged_begun
      · exact hI.alone f g u v huold hvold hfu hgv

theorem Inv.step {action : Action} (hI : Inv config world)
    (htimely : timely config world action = true) (hapart : apart world action = true)
    (hstep : step config world action = some after) : Inv config after := by
  cases action with
  | wait ms =>
      cases hstep
      exact hI.wait ms
  | process =>
      cases hstep
      exact hI.process
  | readHead r wanted =>
      obtain ⟨p, hp, h⟩ := Option.bind_eq_some_iff.mp hstep
      exact hI.readHead hp h
  | claimFirst r skipped =>
      obtain ⟨p, hp, h⟩ := Option.bind_eq_some_iff.mp hstep
      exact hI.claimFirst hp h
  | readLane r passes =>
      obtain ⟨p, hp, h⟩ := Option.bind_eq_some_iff.mp hstep
      exact hI.readLane hp h
  | decided r shouldEnqueue =>
      obtain ⟨p, hp, h⟩ := Option.bind_eq_some_iff.mp hstep
      exact hI.decided hp h
  | claimNext r skipped =>
      obtain ⟨p, hp, h⟩ := Option.bind_eq_some_iff.mp hstep
      exact hI.claimNext hp h
  | evict r =>
      obtain ⟨p, hp, h⟩ := Option.bind_eq_some_iff.mp hstep
      exact hI.evict hp h
  | commit r reported =>
      obtain ⟨p, hp, h⟩ := Option.bind_eq_some_iff.mp hstep
      exact hI.commit hp (live_of_timely htimely hp) h
  | rollback r =>
      obtain ⟨p, hp, h⟩ := Option.bind_eq_some_iff.mp hstep
      exact hI.rollback hp h
  | requeue r =>
      obtain ⟨p, hp, h⟩ := Option.bind_eq_some_iff.mp hstep
      exact hI.requeue hp h
  | requeueFails r =>
      obtain ⟨p, hp, h⟩ := Option.bind_eq_some_iff.mp hstep
      exact hI.requeueFails hp h
  | release r works =>
      obtain ⟨p, hp, h⟩ := Option.bind_eq_some_iff.mp hstep
      exact hI.release hp h
  | crash r =>
      obtain ⟨p, hp, rfl⟩ := Option.map_eq_some_iff.mp hstep
      exact hI.crash hp
  | batch =>
      cases hstep
      exact hI.batch
  | laneStats e =>
      obtain ⟨q, hq, h⟩ := Option.bind_eq_some_iff.mp hstep
      exact hI.laneStats hq (not_engaged_of_apart hapart) h
  | insertLetter e =>
      obtain ⟨q, hq, h⟩ := Option.bind_eq_some_iff.mp hstep
      exact hI.insertLetter hq h
  | commitBatch e =>
      obtain ⟨q, hq, h⟩ := Option.bind_eq_some_iff.mp hstep
      exact hI.commitBatch hq h
  | rollbackBatch e =>
      obtain ⟨q, hq, rfl⟩ := Option.map_eq_some_iff.mp hstep
      exact hI.endBatch _ rfl

theorem Inv.initial {indices : List ℕ} (h : indices.Pairwise (· < ·)) :
    Inv config (World.initial indices) := by
  have hlane : letters (World.initial indices).rows = numbered indices := by
    simp [World.initial, letters, Function.comp_def]
  have hids : ids (numbered indices) = List.range' 0 indices.length := by
    rw [ids, numbered, List.map_map]
    exact List.zipIdx_map_snd 0 indices
  have hindices : (numbered indices).map Letter.index = indices := by
    rw [numbered, List.map_map]
    exact List.zipIdx_map_fst 0 indices
  constructor
  case history => exact hlane
  case sorted =>
    have hsorted : ((numbered indices).map Letter.index).Pairwise (· < ·) := by
      rw [hindices]
      exact h
    exact List.pairwise_map.mp hsorted
  case distinct =>
    change (ids (numbered indices)).Nodup
    rw [hids]
    exact List.nodup_range'
  case below =>
    intro letter hletter
    have hmem : letter.id ∈ ids (numbered indices) := List.mem_map_of_mem hletter
    rw [hids, List.mem_range'_1, Nat.zero_add] at hmem
    exact hmem.2
  case failed =>
    intro letter hletter
    cases hletter
  case since =>
    intro r p hp
    cases hp
  case standing =>
    intro r p hp
    cases hp
  case leased =>
    intro r p hp
    cases hp
  case unique =>
    intro r s p q hp
    cases hp
  case fresh =>
    intro e q hq
    cases hq
  case alone =>
    intro e f q u hq
    cases hq

/-- The letters of a lane that have not been replayed, in their order. -/
def unreplayed (world : World) : List Letter :=
  world.parked.filter fun letter => decide (letter ∉ world.replayed)

theorem Inv.letters_eq (hI : Inv config world) : letters world.rows = unreplayed world := by
  have hdistinct : world.parked.Nodup := List.Nodup.of_map _ hI.distinct
  rw [← hI.history] at hdistinct
  obtain ⟨-, -, hapart⟩ := List.nodup_append.mp hdistinct
  unfold unreplayed
  rw [← hI.history, List.filter_append]
  have hgone : world.replayed.filter (fun letter => decide (letter ∉ world.replayed)) = [] := by
    rw [List.filter_eq_nil_iff]
    intro letter hletter
    simpa using hletter
  have hthere : (letters world.rows).filter (fun letter => decide (letter ∉ world.replayed)) =
      letters world.rows := by
    rw [List.filter_eq_self]
    intro letter hletter
    apply decide_eq_true
    intro hreplayed
    exact hapart letter hreplayed letter hletter rfl
  rw [hgone, hthere, List.nil_append]

/-- In every run whose replays commit in time and whose `enqueueIfPresent`
transactions do not overlap, each letter's replay commits at most once, the
replays commit in the order of the indices, and the lane holds exactly the
letters not replayed, in their order; a letter whose replay failed or was rolled
back is among them until a later replay of it commits. -/
theorem replays_leave_lane_in_order {indices : List ℕ} (hindices : indices.Pairwise (· < ·))
    (h : Reach (step config)
      (fun world action => timely config world action = true ∧ apart world action = true)
      (World.initial indices) world) :
    (ids world.replayed).Nodup ∧
    (world.replayed.map Letter.index).Pairwise (· < ·) ∧
    letters world.rows = unreplayed world ∧
    ∀ letter ∈ world.failed, letter ∉ world.replayed → letter ∈ letters world.rows := by
  have hI : Inv config world := h.invariant (I := Inv config) (Inv.initial hindices)
    fun _ _ _ _ hI hok hstep => hI.step hok.1 hok.2 hstep
  have hsorted := hI.sorted
  have hdistinct := hI.distinct
  rw [← hI.history] at hsorted hdistinct
  rw [ids_append] at hdistinct
  refine ⟨(List.nodup_append.mp hdistinct).1, ?_, hI.letters_eq, ?_⟩
  · exact List.pairwise_map.mpr (List.pairwise_append.mp hsorted).1
  · intro letter hfailed hnot
    have hparked := hI.failed letter hfailed
    rw [← hI.history, List.mem_append] at hparked
    exact hparked.resolve_left hnot

/-- A lane of two letters, the first of which fails once; one replayer crashes,
and a live event is parked behind them meanwhile. -/
def retried : List Action :=
  [.process, .readHead 0 true, .claimFirst 0 false, .readLane 0 true, .decided 0 true, .requeue 0,
    .process, .process, .readHead 1 true, .readHead 2 true, .claimFirst 1 false,
      .claimFirst 2 false,
    .readLane 1 true, .batch, .laneStats 0, .decided 1 false, .claimNext 1 false, .insertLetter 0,
    .evict 1, .commit 1 true, .commitBatch 0, .crash 1, .wait 30000, .process, .readHead 3 true,
    .claimFirst 3 false, .readLane 3 true, .decided 3 false, .claimNext 3 false, .evict 3,
    .commit 3 true]

theorem replays_leave_lane_retried :
    ∃ world : World, Reach (step ⟨30000, 1024⟩)
        (fun world action => timely ⟨30000, 1024⟩ world action = true ∧ apart world action = true)
        (World.initial [0, 1]) world ∧
      world.failed ≠ [] ∧ world.replayed.length = 2 ∧ (ids world.replayed).Nodup ∧
      letters world.rows = unreplayed world := by
  obtain ⟨world, hreach, hfailed, hlength⟩ := reach_guarded_any
    (show ((exec (guarded (step ⟨30000, 1024⟩) fun world action =>
        timely ⟨30000, 1024⟩ world action = true ∧ apart world action = true)
      (World.initial [0, 1]) retried).any fun world => decide
        (world.failed ≠ [] ∧ world.replayed.length = 2)) = true by decide +kernel)
  obtain ⟨honce, -, hlane, -⟩ := replays_leave_lane_in_order (by decide) hreach
  exact ⟨world, hreach, hfailed, hlength, honce, hlane⟩

/-- Three live events are parked while one letter is replayed. The first of the
three transactions has read the last index before the second and commits after
the third: its letter lands in front of one that a replayer has just claimed. -/
def overlapping : List Action :=
  [.batch, .laneStats 0, .batch, .laneStats 1, .insertLetter 1, .commitBatch 1,
    .process, .readHead 0 true, .claimFirst 0 false, .readLane 0 true,
    .batch, .laneStats 2, .insertLetter 2, .commitBatch 2,
    .decided 0 false, .claimNext 0 false, .evict 0, .commit 0 true,
    .decided 0 false, .evict 0, .commit 0 true,
    .wait 1, .process, .readHead 1 true, .claimFirst 1 false, .insertLetter 0, .commitBatch 0,
    .readLane 1 true,
    .wait 1, .process, .readHead 2 true, .claimFirst 2 false, .readLane 2 true,
    .decided 1 false, .claimNext 1 false, .evict 1, .commit 1 true,
    .decided 2 false, .claimNext 2 false, .evict 2, .commit 2 true]

theorem letter_replayed_twice :
    ¬ ∀ (config : Config) (indices : List ℕ) (world : World), indices.Pairwise (· < ·) →
      Reach (step config) (fun world action => timely config world action = true)
        (World.initial indices) world →
      (ids world.replayed).Nodup ∧ (world.replayed.map Letter.index).Pairwise (· < ·) := by
  intro hclaim
  obtain ⟨world, hreach, htwice⟩ := reach_guarded_any
    (show ((exec (guarded (step ⟨30000, 1024⟩) fun world action =>
        timely ⟨30000, 1024⟩ world action = true)
      (World.initial [0]) overlapping).any fun world => decide
        (¬ (ids world.replayed).Nodup)) = true by decide +kernel)
  exact htwice (hclaim ⟨30000, 1024⟩ [0] world (by decide) hreach).1

end Kronos.Postgres.DeadLetters
