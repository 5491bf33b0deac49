import Mathlib.Logic.Relation
import Kronos.Postgres.AppendConsistency

/-!
# What the advisory locks give, and when they deadlock

Writers of one tag take turns: a transaction holds the leaf lock of every tag it
writes from before its first insert until after it has decided. So the committed
events of a tag are always a prefix of those that are inserted and not rolled
back (`committed_tag_prefix`).

One acquisition takes its leaf locks in the order of their keys, and the intent
locks are only ever shared. A transaction that appends once therefore never waits
below a key it holds. One that appends again may: the second acquisition is
sorted by itself, not against the first. Without that, the key a transaction
waits for rises along every chain of waits, and there is no cycle.
-/
namespace Kronos.Postgres.EventStore
open Kronos.Lib.Transition Kronos.Lib.Window Kronos.EventSourcing

variable {P : Type} {s s' : State P}

theorem inv_of_reach (hs : Reach step always initial s) : Inv s :=
  hs.invariant inv_initial fun _ _ _ _ hi _ hstep => hi.step hstep

/-- The inserted rows of a tag whose transaction has one of the given states. -/
def State.tagged (s : State P) (tag : Tag) (p : Status → Bool) : List (Row P) :=
  s.rows.filter fun r => decide (tag ∈ r.event.tags) && p (s.status r.transaction)

theorem Row.locks_of_tag {r : Row P} {tag : Tag} (h : tag ∈ r.event.tags) :
    r.Locks (leafKey "" (encodeTag tag.key tag.value)) :=
  ⟨_, List.mem_map.mpr ⟨tag, h, rfl⟩, rfl⟩

/-- At every moment the committed events of a tag are a prefix, in the order of
their positions, of its inserted events that are not rolled back. -/
theorem committed_tag_prefix (hs : Reach step always initial s) (tag : Tag) :
    Ordered Row.sequencePosition s.rows ∧
      s.tagged tag (fun status => decide (status = .committed)) <+:
        s.tagged tag (fun status => decide (status ≠ .aborted)) := by
  have hinv := inv_of_reach hs
  refine ⟨hinv.ordered, filter_prefix_filter ?_ ?_⟩
  · intro r _ hr
    simp only [Bool.and_eq_true, decide_eq_true_eq] at hr ⊢
    refine ⟨hr.1, ?_⟩
    rw [hr.2]
    decide
  · refine hinv.ordered.imp_of_mem ?_
    intro r m hr hm hlt hq hp
    simp only [Bool.and_eq_true, decide_eq_true_eq] at hq hp ⊢
    refine ⟨hq.1, ?_⟩
    by_cases hsame : r.transaction = m.transaction
    · rw [hsame]
      exact hp.2
    · have hturn := hinv.turns r hr m hm hlt hsame _ (Row.locks_of_tag hq.1) (Row.locks_of_tag hp.1)
      cases hst : s.status r.transaction with
      | active => exact absurd hst hturn
      | committed => rfl
      | aborted => exact absurd hst hq.2

/-- A writer of the tag that commits, and a second one that was waiting for it and
has inserted. -/
def oneAfterTheOther : List (Action Unit) :=
  [.transaction, .transaction, .append 0 [enrolled] none [], .append 1 [enrolled] none [],
    .acquire 0, .acquire 0, .acquire 0, .acquire 0, .check 0, .insert 0, .commit 0, .release 0,
    .acquire 1, .acquire 1, .acquire 1, .acquire 1, .check 1, .insert 1]

theorem committed_tag_prefix_oneAfterTheOther :
    ∃ s : State Unit, Reach step always initial s ∧
      (s.tagged ⟨"course", "c1"⟩ fun status => decide (status = .committed)).length = 1 ∧
      (s.tagged ⟨"course", "c1"⟩ fun status => decide (status ≠ .aborted)).length = 2 ∧
      s.tagged ⟨"course", "c1"⟩ (fun status => decide (status = .committed)) <+:
        s.tagged ⟨"course", "c1"⟩ (fun status => decide (status ≠ .aborted)) := by
  have hs := reach_exec_get
    (show (exec step (initial : State Unit) oneAfterTheOther).isSome = true by decide +kernel)
  obtain ⟨-, hfirst⟩ := committed_tag_prefix hs ⟨"course", "c1"⟩
  exact ⟨_, hs, by decide +kernel, by decide +kernel, hfirst⟩

/-- `t` waits for a lock that `u` holds. -/
def State.waitsFor (s : State P) (t u : ℕ) : Bool :=
  match (s.transactions t).phase with
  | .locking (lock::_) _ =>
      decide (t ≠ u) && decide (s.status t = .active) &&
        (s.transactions u).held.any fun other => lock.conflicts other
  | _ => false

/-- A key of the leaf keyspace: not one of the two intent keys. -/
def isLeaf (key : ℤ) : Bool := decide (key ≠ typeIntentKey "") && decide (key ≠ globalIntentKey)

/-- The append asks for no leaf lock below one its transaction already holds,
unless it holds that one too. The keys of its tags do not collide with the intent
keys. -/
def locksInOrder (s : State P) : Action P → Bool
  | .append t events condition _ =>
      match lockTargetsFor condition events with
      | .error _ => true
      | .ok targets => targets.all fun tag =>
          isLeaf (leafKey "" tag) &&
            ((s.transactions t).held.contains ⟨leafKey "" tag, true⟩ ||
              (s.transactions t).held.all fun lock =>
                !lock.exclusive || decide (lock.key < leafKey "" tag))
  | _ => true

/-- Leaf locks are exclusive, intent locks are shared. -/
def Lock.Sound (lock : Lock) : Prop := lock.exclusive = isLeaf lock.key

/-- The lock is held already, or lies above every exclusive lock that is. -/
def Above (held : List Lock) (lock : Lock) : Prop :=
  lock ∈ held ∨ ∀ other ∈ held, other.exclusive = true → other.key < lock.key

/-- A transaction that takes its leaf locks upwards. -/
structure Upwards (tx : Transaction P) : Prop where
  held : ∀ lock ∈ tx.held, lock.Sound
  todo : ∀ todo a, tx.phase = .locking todo a →
    todo.Pairwise (fun l m => l.exclusive = true → m.exclusive = true → l.key < m.key) ∧
    ∀ lock ∈ todo, lock.Sound ∧ (lock.exclusive = true → Above tx.held lock)

section Upwards
variable {tx tx' : Transaction P}

/-- Outside an acquisition nothing is asked for. -/
theorem Upwards.rest (h : Upwards tx) (hheld : ∀ lock ∈ tx'.held, lock ∈ tx.held)
    (hphase : ∀ todo a, tx'.phase ≠ .locking todo a) : Upwards tx' :=
  ⟨fun lock hl => h.held lock (hheld lock hl), fun todo a hp => absurd hp (hphase todo a)⟩

theorem not_isLeaf_typeIntentKey : isLeaf (typeIntentKey "") = false := by simp [isLeaf]

theorem not_isLeaf_globalIntentKey : isLeaf globalIntentKey = false := by simp [isLeaf]

theorem nodup_eraseDups (n : ℕ) (keys : List ℤ) (h : keys.length ≤ n) : keys.eraseDups.Nodup := by
  induction n generalizing keys with
  | zero =>
      rw [List.eq_nil_of_length_eq_zero (Nat.le_zero.mp h)]
      exact List.nodup_nil
  | succ n ih =>
      cases keys with
      | nil => exact List.nodup_nil
      | cons k keys =>
          have hlen := List.length_filter_le (fun b => !b == k) keys
          rw [List.length_cons] at h
          rw [List.eraseDups_cons, List.nodup_cons, List.mem_eraseDups]
          refine ⟨by simp, ih _ (by omega)⟩

theorem uniqueSorted_sorted (keys : List ℤ) : (uniqueSorted keys).Pairwise (· < ·) := by
  have hle : (uniqueSorted keys).Pairwise (· ≤ ·) := List.pairwise_insertionSort _ _
  have hnodup : (uniqueSorted keys).Nodup :=
    (List.perm_insertionSort _ _).nodup_iff.mpr (nodup_eraseDups _ _ le_rfl)
  refine (hle.and hnodup).imp ?_
  intro a b h
  exact lt_of_le_of_ne h.1 h.2

/-- The locks of one acquisition: sorted leaf locks, then the intent locks. -/
theorem writeLocks_upwards {targets : List String} {held : List Lock}
    (h : ∀ tag ∈ targets, isLeaf (leafKey "" tag) = true ∧ Above held ⟨leafKey "" tag, true⟩) :
    (writeLocks targets).Pairwise
        (fun l m => l.exclusive = true → m.exclusive = true → l.key < m.key) ∧
      ∀ lock ∈ writeLocks targets, lock.Sound ∧ (lock.exclusive = true → Above held lock) := by
  unfold writeLocks
  split_ifs with hempty
  · refine ⟨List.pairwise_singleton _ _, ?_⟩
    intro lock hl
    rw [List.mem_singleton.mp hl]
    exact ⟨not_isLeaf_globalIntentKey.symm, fun hx => by cases hx⟩
  · constructor
    · rw [List.pairwise_append]
      refine ⟨?_, ?_, ?_⟩
      · rw [List.pairwise_map]
        refine (uniqueSorted_sorted _).imp ?_
        intro a b hab _ _
        exact hab
      · simp
      · intro l _ m hm _ hx
        rcases List.mem_cons.mp hm with rfl | hm
        · cases hx
        · rw [List.mem_singleton.mp hm] at hx
          cases hx
    · intro lock hl
      rcases List.mem_append.mp hl with hl | hl
      · obtain ⟨k, hk, rfl⟩ := List.mem_map.mp hl
        rw [uniqueSorted, List.mem_insertionSort, List.mem_eraseDups] at hk
        obtain ⟨tag, htag, rfl⟩ := List.mem_map.mp hk
        exact ⟨(h tag htag).1.symm, fun _ => (h tag htag).2⟩
      · rcases List.mem_cons.mp hl with rfl | hl
        · exact ⟨not_isLeaf_typeIntentKey.symm, fun hx => by cases hx⟩
        · rw [List.mem_singleton.mp hl]
          exact ⟨not_isLeaf_globalIntentKey.symm, fun hx => by cases hx⟩

/-- The first lock asked for is granted: the others lie above it. -/
theorem Upwards.acquire {lock : Lock} {todo : List Lock} {a : Append P} (h : Upwards tx)
    (hphase : tx.phase = .locking (lock::todo) a) :
    Upwards { tx with phase := .locking todo a, held := tx.held ++ [lock] } := by
  obtain ⟨hsorted, hall⟩ := h.todo _ a hphase
  rw [List.pairwise_cons] at hsorted
  refine ⟨?_, ?_⟩
  · intro other ho
    rcases List.mem_append.mp ho with ho | ho
    · exact h.held other ho
    · rw [List.mem_singleton.mp ho]
      exact (hall lock List.mem_cons_self).1
  · intro todo' a' hp
    cases hp
    refine ⟨hsorted.2, fun m hm => ?_⟩
    obtain ⟨hsound, habove⟩ := hall m (List.mem_cons_of_mem lock hm)
    refine ⟨hsound, fun hx => ?_⟩
    rcases habove hx with hheld | hlt
    · exact Or.inl (List.mem_append_left _ hheld)
    · refine Or.inr fun other ho hox => ?_
      rcases List.mem_append.mp ho with ho | ho
      · exact hlt other ho hox
      · rw [List.mem_singleton.mp ho] at hox ⊢
        exact hsorted.1 m hm hox hx

end Upwards

theorem locksInOrder_append {t : ℕ} {events : List (EventMessage P)}
    {condition : Option AppendCondition} {reads : List ℕ} {targets : List String}
    (h : locksInOrder s (.append t events condition reads) = true)
    (htargets : lockTargetsFor condition events = .ok targets) :
    ∀ tag ∈ targets, isLeaf (leafKey "" tag) = true ∧
      Above (s.transactions t).held ⟨leafKey "" tag, true⟩ := by
  intro tag htag
  unfold locksInOrder at h
  simp only [htargets] at h
  have htag' := List.all_eq_true.mp h tag htag
  simp only [Bool.and_eq_true, Bool.or_eq_true, List.contains_iff_mem, List.all_eq_true,
    Bool.not_eq_true', decide_eq_true_eq] at htag'
  refine ⟨htag'.1, htag'.2.imp_right fun hall other ho hx => ?_⟩
  rcases hall other ho with hno | hlt
  · rw [hno] at hx
    cases hx
  · exact hlt

theorem upwards_step {a : Action P} (h : ∀ t, Upwards (s.transactions t))
    (hok : locksInOrder s a = true) (hstep : step s a = some s') (u : ℕ) :
    Upwards (s'.transactions u) := by
  have hset {t : ℕ} {tx : Transaction P} (htx : Upwards tx) :
      Upwards ((s.setTransaction t tx).transactions u) := by
    rw [State.transactions_set]
    split_ifs
    · exact htx
    · exact h u
  cases a with
  | source query start =>
      simp only [EventStore.step] at hstep
      split at hstep <;> cases hstep <;> exact h u
  | transaction =>
      cases hstep
      exact h u
  | append t events condition reads =>
      simp only [EventStore.step] at hstep
      split at hstep
      · by_cases hact : t < s.begun ∧ s.status t = .active
        · rw [if_pos hact] at hstep
          split at hstep
          · cases hstep
            exact hset ((h t).rest (fun _ hl => hl) fun _ _ hp => by cases hp)
          · rename_i targets htargets
            cases hstep
            refine hset ⟨(h t).held, fun todo a hp => ?_⟩
            cases hp
            exact writeLocks_upwards (locksInOrder_append hok htargets)
        · rw [if_neg hact] at hstep
          cases hstep
      · cases hstep
  | acquire t =>
      simp only [EventStore.step] at hstep
      split at hstep
      · cases hstep
        exact hset ((h t).rest (fun _ hl => hl) fun _ _ hp => by cases hp)
      · rename_i lock todo a hphase
        split_ifs at hstep
        cases hstep
        exact hset ((h t).acquire hphase)
      · cases hstep
  | check t =>
      simp only [EventStore.step] at hstep
      split at hstep
      · split at hstep
        · cases hstep
          exact hset ((h t).rest (fun _ hl => hl) fun _ _ hp => by cases hp)
        · split_ifs at hstep <;> cases hstep <;>
            exact hset ((h t).rest (fun _ hl => hl) fun _ _ hp => by cases hp)
      · cases hstep
  | insert t =>
      simp only [EventStore.step] at hstep
      split at hstep
      · cases hstep
        refine hset ((h t).rest (fun _ hl => hl) fun _ _ hp => ?_)
        simp only at hp
        split_ifs at hp
      · cases hstep
  | commit t =>
      simp only [EventStore.step] at hstep
      split at hstep
      · rename_i hphase
        split_ifs at hstep
        cases hstep
        refine hset ((h t).rest (fun _ hl => hl) fun _ _ hp => ?_)
        rw [hphase] at hp
        cases hp
      · cases hstep
  | rollback t =>
      simp only [EventStore.step] at hstep
      split_ifs at hstep
      cases hstep
      exact hset ((h t).rest (fun _ hl => hl) fun _ _ hp => by cases hp)
  | release t =>
      simp only [EventStore.step] at hstep
      split_ifs at hstep
      cases hstep
      refine hset ⟨fun lock hl => (by cases hl), fun todo a hp => ?_⟩
      obtain ⟨hsorted, hall⟩ := (h t).todo todo a hp
      refine ⟨hsorted, fun lock hl => ⟨(hall lock hl).1, fun _ => Or.inr fun _ ho => by cases ho⟩⟩

/-- The key a transaction waits for. -/
def State.wanted (s : State P) (t : ℕ) : ℤ :=
  match (s.transactions t).phase with
  | .locking (lock::_) _ => lock.key
  | _ => 0

theorem waitsFor_iff {t u : ℕ} : s.waitsFor t u = true ↔
    ∃ lock todo a, (s.transactions t).phase = .locking (lock::todo) a ∧ t ≠ u ∧
      s.status t = .active ∧ ∃ other ∈ (s.transactions u).held, lock.conflicts other = true := by
  unfold State.waitsFor
  constructor
  · intro h
    split at h
    · rename_i lock todo a hphase
      simp only [Bool.and_eq_true, decide_eq_true_eq, List.any_eq_true] at h
      exact ⟨lock, todo, a, hphase, h.1.1, h.1.2, h.2⟩
    · cases h
  · rintro ⟨lock, todo, a, hphase, hne, hact, hheld⟩
    rw [hphase]
    simp only [Bool.and_eq_true, decide_eq_true_eq, List.any_eq_true]
    exact ⟨⟨hne, hact⟩, hheld⟩

/-- A conflict is over a leaf key that both lock exclusively. -/
theorem conflicts_exclusive {lock other : Lock} (hl : lock.Sound) (ho : other.Sound)
    (h : lock.conflicts other = true) :
    lock.exclusive = true ∧ other.exclusive = true ∧ lock.key = other.key := by
  unfold Lock.conflicts at h
  unfold Lock.Sound at hl ho
  rw [Bool.and_eq_true, decide_eq_true_eq, Bool.or_eq_true] at h
  rw [← h.2] at ho
  rw [ho, ← hl] at h ⊢
  rw [or_self] at h
  exact ⟨h.1, h.1, h.2⟩

/-- Along a chain of waits the wanted key rises. -/
theorem wanted_lt (hinv : Inv s) (hup : ∀ t, Upwards (s.transactions t)) {t u v : ℕ}
    (htu : s.waitsFor t u = true) (huv : s.waitsFor u v = true) : s.wanted t < s.wanted u := by
  obtain ⟨lock, todo, a, hphase, -, -, other, hother, hconf⟩ := waitsFor_iff.mp htu
  obtain ⟨lock', todo', a', hphase', hne', -, other', hother', hconf'⟩ := waitsFor_iff.mp huv
  have hmine := (hup t).todo _ a hphase
  have htheirs := (hup u).todo _ a' hphase'
  obtain ⟨-, hox, hkey⟩ := conflicts_exclusive (hmine.2 lock List.mem_cons_self).1
    ((hup u).held other hother) hconf
  obtain ⟨hx', hox', hkey'⟩ := conflicts_exclusive (htheirs.2 lock' List.mem_cons_self).1
    ((hup v).held other' hother') hconf'
  have hwant : s.wanted t = lock.key := by
    unfold State.wanted
    rw [hphase]
  have hwant' : s.wanted u = lock'.key := by
    unfold State.wanted
    rw [hphase']
  rw [hwant, hwant', hkey]
  rcases (htheirs.2 lock' List.mem_cons_self).2 hx' with hheld | habove
  · -- What a transaction holds itself nobody else holds, so it would not wait.
    have hu : (s.transactions u).Holds lock'.key := by
      rw [Transaction.Holds, ← hx']
      exact hheld
    have hv : (s.transactions v).Holds lock'.key := by
      rw [Transaction.Holds, hkey', ← hox']
      exact hother'
    exact absurd (hinv.exclusive u v _ hu hv) hne'
  · exact habove other hother hox

/-- When no append asks for a leaf lock below one its transaction holds, no
reachable state has a cycle of waits. -/
theorem locks_deadlock_free (hs : Reach step (fun s a => locksInOrder s a = true) initial s)
    (t : ℕ) : ¬ Relation.TransGen (fun t u => s.waitsFor t u = true) t t := by
  have hinv : Inv s := inv_of_reach (hs.weaken fun _ _ _ => trivial)
  have hup : ∀ t, Upwards (s.transactions t) := by
    refine hs.invariant (I := fun s => ∀ t, Upwards (s.transactions t)) ?_ ?_
    · intro t
      exact ⟨fun lock hl => (by cases hl), fun todo a hp => (by cases hp)⟩
    · intro s a s' _ hi hok hstep
      exact upwards_step hi hok hstep
  have hrises : ∀ u, Relation.TransGen (fun t u => s.waitsFor t u = true) t u →
      (∃ v, s.waitsFor u v = true) → s.wanted t < s.wanted u := by
    intro u hchain
    induction hchain with
    | single h =>
        rintro ⟨v, hv⟩
        exact wanted_lt hinv hup h hv
    | tail _ h ih =>
        rintro ⟨v, hv⟩
        exact (ih ⟨_, h⟩).trans (wanted_lt hinv hup h hv)
  intro hcycle
  have hnext : ∃ v, s.waitsFor t v = true := by
    obtain ⟨v, hv, -⟩ := Relation.TransGen.head'_iff.mp hcycle
    exact ⟨v, hv⟩
  exact lt_irrefl _ (hrises t hcycle hnext)

def firstCourse : EventMessage Unit := ⟨⟨"course", "Opened"⟩, [⟨"course", "c1"⟩], ()⟩

def secondCourse : EventMessage Unit := ⟨⟨"course", "Opened"⟩, [⟨"course", "c2"⟩], ()⟩

def bothCourses : EventMessage Unit :=
  ⟨⟨"course", "Merged"⟩, [⟨"course", "c1"⟩, ⟨"course", "c2"⟩], ()⟩

/-- Two appends of both tags: the second waits for the first. -/
def oneWaits : List (Action Unit) :=
  [.transaction, .transaction, .append 0 [bothCourses] none [], .append 1 [bothCourses] none [],
    .acquire 0, .acquire 0]

theorem locks_deadlock_free_oneWaits :
    ∃ s : State Unit, Reach step (fun s a => locksInOrder s a = true) initial s ∧
      s.waitsFor 1 0 = true ∧
      ¬ Relation.TransGen (fun t u => s.waitsFor t u = true) 1 1 := by
  have hs := reach_guarded_get (show (exec (guarded step fun s a => locksInOrder s a = true)
    (initial : State Unit) oneWaits).isSome = true by decide +kernel)
  exact ⟨_, hs, by decide +kernel, locks_deadlock_free hs 1⟩

/-- A scheduling tick appends its two due events in turn, the one with the higher
key first; another append takes the lower key in between. -/
def tickAgainstAppend : List (Action Unit) :=
  [.transaction, .transaction, .append 0 [firstCourse] none [], .acquire 0, .acquire 0, .acquire 0,
    .acquire 0, .check 0, .insert 0, .append 1 [bothCourses] none [], .acquire 1,
    .append 0 [secondCourse] none []]

/-- The two transactions wait for each other. -/
theorem tick_deadlocks :
    ∃ s : State Unit, Reach step always initial s ∧
      s.waitsFor 0 1 = true ∧ s.waitsFor 1 0 = true ∧
      Relation.TransGen (fun t u => s.waitsFor t u = true) 0 0 := by
  have hs := reach_exec_get
    (show (exec step (initial : State Unit) tickAgainstAppend).isSome = true by decide +kernel)
  have h₁ : ((exec step (initial : State Unit) tickAgainstAppend).get (by decide +kernel)).waitsFor
      0 1 = true := by decide +kernel
  have h₂ : ((exec step (initial : State Unit) tickAgainstAppend).get (by decide +kernel)).waitsFor
      1 0 = true := by decide +kernel
  exact ⟨_, hs, h₁, h₂, .tail (.single h₁) h₂⟩

end Kronos.Postgres.EventStore
