import Kronos.Lib.Window
import Kronos.EventSourcing.DecisionConsistency
import Kronos.Postgres.EventStore

/-!
# Decisions on Postgres

Two transactions that write a common tag take turns: the second inserts only
when the first has decided. So of two rows with a common lock key the earlier
one is decided before the later one exists, and a read that sees the later one
sees the earlier one if it ever commits. When every two items of a query have a
key in common, the read therefore misses nothing at or below its marker; and
since the append that is conditioned on it holds the same keys from before its
check, nothing appears above the marker unseen.
-/
namespace Kronos.Postgres.EventStore
open Kronos.Lib.Transition Kronos.Lib.Window Kronos.EventSourcing

variable {P : Type} {event : EventMessage P} {query : EventQuery} {s s' : State P}

/-- The tags an item that compiles is locked by. -/
theorem compileItem_tags {item : QueryItem} {criteria : EventCriteria}
    (h : compileItem item = .ok criteria) : extractCriteriaTags criteria = itemTags item := by
  obtain ⟨tags, htags, hcases⟩ := compileItem_eq_ok h
  have hmap : tags.map (fun t => encodeTag t.key t.value) = itemTags item := by
    rw [tagsFromRecord_eq_ok htags, List.map_map]
    rfl
  rcases hcases with ⟨rfl, -⟩ | ⟨t, types, -, rfl⟩
  · exact hmap
  · exact hmap

/-- A match of an item carries all its tags. -/
theorem compileItem_where {item : QueryItem} {criteria : EventCriteria}
    (h : compileItem item = .ok criteria) (hm : matchesWhere event criteria = true) :
    ∀ t ∈ itemTags item, t ∈ encodedTagsOf event := by
  intro t ht
  rw [← compileItem_tags h] at ht
  obtain ⟨tags, -, hcases⟩ := compileItem_eq_ok h
  have hinner : matchesWhere event (.tags tags) = true → t ∈ extractCriteriaTags (.tags tags) →
      t ∈ encodedTagsOf event := by
    intro hm ht
    obtain ⟨tag, htag, rfl⟩ := List.mem_map.mp ht
    rw [matchesWhere, List.all_eq_true] at hm
    exact List.contains_iff_mem.mp (hm tag htag)
  rcases hcases with ⟨rfl, -⟩ | ⟨_, types, -, rfl⟩
  · exact hinner hm ht
  · rw [matchesWhere, Bool.and_eq_true] at hm
    exact hinner hm.1 ht

theorem mem_extractTags {criteria : List EventCriteria} {c : EventCriteria} {t : String}
    (hc : c ∈ criteria) (ht : t ∈ extractCriteriaTags c) : t ∈ extractTags criteria := by
  induction criteria with
  | nil => cases hc
  | cons d criteria ih =>
      rw [extractTags, List.mem_append]
      rcases List.mem_cons.mp hc with rfl | hc
      · exact Or.inl ht
      · exact Or.inr (ih hc)

theorem matchesSome_iff {criteria : List EventCriteria} :
    matchesSome event criteria = true ↔ ∃ c ∈ criteria, matchesWhere event c = true := by
  induction criteria with
  | nil => simp [matchesSome]
  | cons d criteria ih => simp [matchesSome, ih]

/-- The tags of all items of a query are locked. -/
theorem compileQuery_tags {criteria : EventCriteria} (h : compileQuery query = .ok criteria) :
    ∃ items, queryItems query = .ok items ∧
      ∀ item ∈ items, ∀ t ∈ itemTags item, t ∈ extractCriteriaTags criteria := by
  obtain ⟨items, hitems, ⟨item, rfl, hitem⟩ | ⟨cs, hall, rfl⟩⟩ := compileQuery_cases h
  · refine ⟨_, hitems, ?_⟩
    intro x hx t ht
    rw [List.mem_singleton.mp hx] at ht
    rw [compileItem_tags hitem]
    exact ht
  · refine ⟨items, hitems, ?_⟩
    intro item hitem t ht
    obtain ⟨c, hc, hok⟩ := exists_of_mem_source hall hitem
    rw [extractCriteriaTags]
    apply mem_extractTags hc
    rw [compileItem_tags hok]
    exact ht

/-- A match of a query carries all the tags of one of its items. -/
theorem compileQuery_where {criteria : EventCriteria} (h : compileQuery query = .ok criteria)
    (hm : matchesWhere event criteria = true) :
    ∃ items, queryItems query = .ok items ∧
      ∃ item ∈ items, ∀ t ∈ itemTags item, t ∈ encodedTagsOf event := by
  obtain ⟨items, hitems, ⟨item, rfl, hitem⟩ | ⟨cs, hall, rfl⟩⟩ := compileQuery_cases h
  · exact ⟨_, hitems, item, List.mem_singleton_self item, compileItem_where hitem hm⟩
  · rw [matchesWhere, matchesSome_iff] at hm
    obtain ⟨c, hc, hmatch⟩ := hm
    obtain ⟨item, hitem, hok⟩ := exists_of_mem_result hall hc
    exact ⟨items, hitems, item, hitem, compileItem_where hok hmatch⟩

/-- The key of one of a row's tags. -/
def Row.Locks (r : Row P) (k : ℤ) : Prop := ∃ t ∈ encodedTagsOf r.event, leafKey "" t = k

/-- A key of one of a query's tags. -/
def QueryLocks (query : EventQuery) (k : ℤ) : Prop :=
  ∃ items, queryItems query = .ok items ∧ ∃ item ∈ items, ∃ t ∈ itemTags item, leafKey "" t = k

theorem matchesQuery_iff : matchesQuery event query = true ↔
    ∃ criteria, compileQuery query = .ok criteria ∧ matchesWhere event criteria = true := by
  unfold matchesQuery
  cases h : compileQuery query with
  | error e => simp
  | ok criteria => simp

/-- Two matches of a linked query lock a common key, which the query locks too. -/
theorem Linked.common (h : Linked query) {r m : Row P} (hr : matchesQuery r.event query = true)
    (hm : matchesQuery m.event query = true) :
    ∃ k, r.Locks k ∧ m.Locks k ∧ QueryLocks query k := by
  obtain ⟨criteria, hquery, hwr⟩ := matchesQuery_iff.mp hr
  obtain ⟨criteria', hquery', hwm⟩ := matchesQuery_iff.mp hm
  cases hquery.symm.trans hquery'
  obtain ⟨items, hitems, i, hi, hti⟩ := compileQuery_where hquery hwr
  obtain ⟨items', hitems', j, hj, htj⟩ := compileQuery_where hquery hwm
  cases hitems.symm.trans hitems'
  obtain ⟨a, ha, b, hb, hab⟩ := h items hitems i hi j hj
  exact ⟨leafKey "" b, ⟨a, hti a ha, hab⟩, ⟨b, htj b hb, rfl⟩, items, hitems, j, hj, b, hb, rfl⟩

/-- The keys an append needs: those of its events and of the reads it is conditioned on. -/
def Append.Needs (a : Append P) (k : ℤ) : Prop :=
  (∃ e ∈ a.events, ∃ t ∈ encodedTagsOf e, leafKey "" t = k) ∨ ∃ r ∈ a.reads, QueryLocks r.query k

theorem mem_writeLocks {targets : List String} {t : String} (h : t ∈ targets) :
    (⟨leafKey "" t, true⟩ : Lock) ∈ writeLocks targets := by
  have hne : targets.isEmpty = false := by
    cases targets with
    | nil => cases h
    | cons x targets => rfl
  rw [writeLocks, hne]
  apply List.mem_append_left
  apply List.mem_map.mpr
  refine ⟨leafKey "" t, ?_, rfl⟩
  rw [uniqueSorted, List.mem_insertionSort, List.mem_eraseDups]
  exact List.mem_map.mpr ⟨t, h, rfl⟩

theorem mem_of_covers {part : EventQuery} {all items : List QueryItem}
    (h : covers query part = true) (hall : queryItems query = .ok all)
    (hitems : queryItems part = .ok items) : ∀ item ∈ items, item ∈ all := by
  unfold covers at h
  rw [hall, hitems] at h
  simpa using h

/-- The condition a flush builds from reads is one on those reads. -/
theorem conditionedOn_flushCondition {reads : List (Read P)} {condition : Option AppendCondition}
    (h : flushCondition (reads.map fun r => (⟨r.query, r.marker, r.rows.map Row.event⟩ :
      SourcingInfo P)) none = .ok condition) : conditionedOn reads condition = true := by
  cases condition with
  | none => simpa [conditionedOn] using flushCondition_eq_none h
  | some condition =>
      obtain ⟨items, hitems, hquery, -, hreads⟩ := flushCondition_eq_some h
      rw [conditionedOn, Bool.and_eq_true, decide_eq_true_eq, List.all_eq_true]
      constructor
      · rw [checkedReads, hreads, Option.getD_some, List.map_map, List.map_map]
        rfl
      · intro r hr
        obtain ⟨its, hits, hq⟩ := exists_of_mem_source
          (f := fun s : SourcingInfo P => queryItems s.query) hitems
          (List.mem_map.mpr ⟨r, hr, rfl⟩)
        have hne : items.flatten ≠ [] := by
          obtain ⟨item, hitem⟩ := List.exists_mem_of_ne_nil _ (queryItems_ne_nil hq)
          exact List.ne_nil_of_mem (List.mem_flatten.mpr ⟨its, hits, hitem⟩)
        rw [covers, hquery, queryItems_of_ne_nil hne, hq]
        simp only [List.all_eq_true, decide_eq_true_eq]
        intro item hitem
        exact List.mem_flatten.mpr ⟨its, hits, hitem⟩

/-- The reads an append keeps are among those it was given. -/
theorem mem_of_mem_conditioned {reads : List (Read P)} {condition : Option AppendCondition}
    {read : Read P} (h : read ∈ if conditionedOn reads condition then reads else []) :
    read ∈ reads := by
  split_ifs at h
  · exact h
  · cases h

theorem conditionedOn_of_mem {reads : List (Read P)} {condition : Option AppendCondition}
    {read : Read P} (h : read ∈ if conditionedOn reads condition then reads else []) :
    conditionedOn (if conditionedOn reads condition then reads else []) condition = true := by
  split_ifs at h ⊢ with hcond
  · exact hcond
  · cases h

/-- The condition's tags cover those of the reads it is on. -/
theorem mem_readTags {reads : List (Read P)} {condition : Option AppendCondition}
    {tags : List String} {r : Read P} {items : List QueryItem} {item : QueryItem} {t : String}
    (htags : readTags condition = .ok tags) (hcond : conditionedOn reads condition = true)
    (hr : r ∈ reads) (hitems : queryItems r.query = .ok items) (hitem : item ∈ items)
    (ht : t ∈ itemTags item) : t ∈ tags := by
  cases condition with
  | none =>
      rw [conditionedOn, List.isEmpty_iff] at hcond
      rw [hcond] at hr
      cases hr
  | some condition =>
      rw [conditionedOn, Bool.and_eq_true, List.all_eq_true] at hcond
      rw [readTags] at htags
      cases hquery : compileQuery condition.query with
      | error e =>
          rw [hquery] at htags
          cases htags
      | ok criteria =>
          rw [hquery] at htags
          cases htags
          obtain ⟨all, hall, hlocked⟩ := compileQuery_tags hquery
          exact hlocked item (mem_of_covers (hcond.2 r hr) hall hitems item hitem) t ht

/-- The locks an append asks for are all it needs. -/
theorem needs_writeLocks {a : Append P} {targets : List String} {k : ℤ}
    (htargets : lockTargetsFor a.condition a.events = .ok targets)
    (hcond : ∀ read ∈ a.reads, conditionedOn a.reads a.condition = true) (hk : a.Needs k) :
    (⟨k, true⟩ : Lock) ∈ writeLocks targets := by
  unfold lockTargetsFor at htargets
  cases htags : readTags a.condition with
  | error e =>
      rw [htags] at htargets
      cases htargets
  | ok tags =>
      rw [htags] at htargets
      cases htargets
      rcases hk with ⟨e, he, t, ht, rfl⟩ | ⟨r, hr, items, hitems, item, hitem, t, ht, rfl⟩
      · apply mem_writeLocks
        rw [List.mem_eraseDups]
        exact List.mem_append_right _ (List.mem_flatMap.mpr ⟨e, he, ht⟩)
      · apply mem_writeLocks
        rw [List.mem_eraseDups]
        exact List.mem_append_left _ (mem_readTags htags (hcond r hr) hr hitems hitem ht)

def Transaction.Holds (tx : Transaction P) (k : ℤ) : Prop := (⟨k, true⟩ : Lock) ∈ tx.held

/-- Nobody but `t` has a match above the marker that is or may become visible. -/
def Quiet (s : State P) (t : ℕ) (read : Read P) : Prop :=
  ∀ r ∈ s.rows, r.transaction ≠ t → s.status r.transaction ≠ .aborted →
    matchesQuery r.event read.query = true → (r.sequencePosition : ℤ) ≤ read.marker

/-- A transaction has the locks its phase needs, and keeps those of the checks it passed. -/
structure TransactionInv (s : State P) (t : ℕ) (tx : Transaction P) : Prop where
  begun : ∀ lock ∈ tx.held, t < s.begun
  locking : ∀ todo a, tx.phase = .locking todo a → tx.status = .active ∧ t < s.begun ∧
    (∀ read ∈ a.reads, conditionedOn a.reads a.condition = true) ∧
    (∀ read ∈ a.reads, read ∈ s.reads) ∧ ∀ k, a.Needs k → tx.Holds k ∨ (⟨k, true⟩ : Lock) ∈ todo
  checking : ∀ a, tx.phase = .checking a → tx.status = .active ∧
    (∀ read ∈ a.reads, conditionedOn a.reads a.condition = true) ∧
    (∀ read ∈ a.reads, read ∈ s.reads) ∧ ∀ k, a.Needs k → tx.Holds k
  inserting : ∀ events, tx.phase = .inserting events → tx.status = .active ∧
    ∀ e ∈ events, ∀ t ∈ encodedTagsOf e, tx.Holds (leafKey "" t)
  passed : ∀ read ∈ tx.passed, read ∈ s.reads ∧ (tx.status = .active → Linked read.query →
    (∀ k, QueryLocks read.query k → tx.Holds k) ∧ Quiet s t read)

/-- Up to its marker a read of a linked query misses nothing that is or may
become visible. -/
structure ReadInv (s : State P) (read : Read P) : Prop where
  marker : read.marker < s.nextPosition ∨ read.marker < read.start
  seen : Linked read.query → ∀ r ∈ s.rows, s.status r.transaction ≠ .aborted →
    matchesQuery r.event read.query = true → read.start ≤ r.sequencePosition →
    (r.sequencePosition : ℤ) ≤ read.marker → r ∈ read.rows

/-- What is claimed of an append that committed. -/
def Decision.Consistent (d : Decision P) : Prop :=
  Linked d.read.query → ∀ r ∈ d.before, matchesQuery r.event d.read.query = true →
    d.read.start ≤ r.sequencePosition → r ∈ d.read.rows

structure Inv (s : State P) : Prop where
  ordered : Ordered Row.sequencePosition s.rows
  bound : ∀ r ∈ s.rows, r.sequencePosition < s.nextPosition
  exclusive : ∀ t u k, (s.transactions t).Holds k → (s.transactions u).Holds k → t = u
  written : ∀ r ∈ s.rows, s.status r.transaction = .active → ∀ k, r.Locks k →
    (s.transactions r.transaction).Holds k
  turns : ∀ r ∈ s.rows, ∀ m ∈ s.rows, r.sequencePosition < m.sequencePosition →
    r.transaction ≠ m.transaction → ∀ k, r.Locks k → m.Locks k → s.status r.transaction ≠ .active
  reads : ∀ read ∈ s.reads, ReadInv s read
  transactions : ∀ t, TransactionInv s t (s.transactions t)
  decisions : ∀ d ∈ s.decisions, d.Consistent

theorem Quiet.mono {t : ℕ} {read : Read P} (h : Quiet s t read) (hrows : s'.rows = s.rows)
    (haborted : ∀ u, s.status u = .aborted → s'.status u = .aborted) : Quiet s' t read := by
  intro r hr hne hab
  rw [hrows] at hr
  exact h r hr hne fun h => hab (haborted _ h)

/-- A transaction's invariant when the table stays and others decide. -/
theorem TransactionInv.mono {t : ℕ} {tx : Transaction P} (h : TransactionInv s t tx)
    (hrows : s'.rows = s.rows) (hreads : ∀ read ∈ s.reads, read ∈ s'.reads)
    (haborted : ∀ u, s.status u = .aborted → s'.status u = .aborted)
    (hbegun : s.begun ≤ s'.begun) : TransactionInv s' t tx where
  begun lock hl := (h.begun lock hl).trans_le hbegun
  locking todo a hp := by
    obtain ⟨hact, hlt, hcond, hin, hneeds⟩ := h.locking todo a hp
    exact ⟨hact, hlt.trans_le hbegun, hcond, fun read hr => hreads read (hin read hr), hneeds⟩
  checking a hp := by
    obtain ⟨hact, hcond, hin, hneeds⟩ := h.checking a hp
    exact ⟨hact, hcond, fun read hr => hreads read (hin read hr), hneeds⟩
  inserting := h.inserting
  passed read hr := by
    obtain ⟨hin, hquiet⟩ := h.passed read hr
    refine ⟨hreads read hin, fun hact hlinked => ?_⟩
    exact ⟨(hquiet hact hlinked).1, (hquiet hact hlinked).2.mono hrows haborted⟩

theorem ReadInv.mono {read : Read P} (h : ReadInv s read) (hrows : s'.rows = s.rows)
    (hnext : s'.nextPosition = s.nextPosition)
    (haborted : ∀ u, s.status u = .aborted → s'.status u = .aborted) : ReadInv s' read where
  marker := by
    rw [hnext]
    exact h.marker
  seen hlinked r hr hab hm hstart hle := by
    rw [hrows] at hr
    exact h.seen hlinked r hr (fun h => hab (haborted _ h)) hm hstart hle

theorem State.transactions_set (t u : ℕ) (tx : Transaction P) :
    (s.setTransaction t tx).transactions u = if u = t then tx else s.transactions u := rfl

theorem State.status_set_of_eq {t : ℕ} {tx : Transaction P} (h : tx.status = s.status t) (u : ℕ) :
    (s.setTransaction t tx).status u = s.status u := by
  rw [State.status, State.transactions_set]
  split_ifs with hu
  · rw [h, hu]
  · rfl

/-- One transaction moves on without deciding: the locks it adds are free. -/
theorem Inv.setTransaction {t : ℕ} {tx : Transaction P} (h : Inv s)
    (hstatus : tx.status = s.status t)
    (hheld : ∀ lock ∈ (s.transactions t).held, lock ∈ tx.held)
    (hfree : ∀ u, u ≠ t → ∀ k, tx.Holds k → ¬ (s.transactions u).Holds k)
    (htx : TransactionInv s t tx) : Inv (s.setTransaction t tx) := by
  have hsame := State.status_set_of_eq hstatus
  have haborted : ∀ u, s.status u = .aborted → (s.setTransaction t tx).status u = .aborted := by
    intro u hu
    rw [hsame u, hu]
  constructor
  · exact h.ordered
  · exact h.bound
  · intro u v k hu hv
    rw [State.transactions_set] at hu hv
    split_ifs at hu hv with hut hvt hvt
    · rw [hut, hvt]
    · exact absurd hv (hfree v hvt k hu)
    · exact absurd hu (hfree u hut k hv)
    · exact h.exclusive u v k hu hv
  · intro r hr hact k hk
    rw [hsame] at hact
    rw [State.transactions_set]
    split_ifs with hrt
    · exact hheld _ (hrt ▸ h.written r hr hact k hk)
    · exact h.written r hr hact k hk
  · intro r hr m hm hlt hne k hrk hmk
    rw [hsame]
    exact h.turns r hr m hm hlt hne k hrk hmk
  · intro read hread
    exact (h.reads read hread).mono rfl rfl haborted
  · intro u
    rw [State.transactions_set]
    split_ifs with hu
    · rw [hu]
      exact htx.mono rfl (fun _ hr => hr) haborted le_rfl
    · exact (h.transactions u).mono rfl (fun _ hr => hr) haborted le_rfl
  · exact h.decisions

/-- A transaction goes on to a phase with the locks it has. -/
theorem Inv.setPhase {t : ℕ} {phase : Phase P} (h : Inv s)
    (htx : TransactionInv s t { s.transactions t with phase := phase }) :
    Inv (s.setPhase t phase) := by
  unfold State.setPhase
  refine h.setTransaction rfl (fun _ hl => hl) ?_ htx
  intro u hu k hk hk'
  exact hu (h.exclusive u t k hk' hk)

/-- A transaction in a phase that needs no locks. -/
theorem TransactionInv.of_resting {t : ℕ} {tx : Transaction P}
    (hphase : tx.phase = .idle ∨ tx.phase = .failed) (hbegun : ∀ lock ∈ tx.held, t < s.begun)
    (hpassed : ∀ read ∈ tx.passed, read ∈ s.reads ∧ (tx.status = .active → Linked read.query →
      (∀ k, QueryLocks read.query k → tx.Holds k) ∧ Quiet s t read)) : TransactionInv s t tx := by
  refine ⟨hbegun, ?_, ?_, ?_, hpassed⟩
  · intro todo a hp
    rw [hp] at hphase
    rcases hphase with hidle | hfailed
    · cases hidle
    · cases hfailed
  · intro a hp
    rw [hp] at hphase
    rcases hphase with hidle | hfailed
    · cases hidle
    · cases hfailed
  · intro events hp
    rw [hp] at hphase
    rcases hphase with hidle | hfailed
    · cases hidle
    · cases hfailed

theorem TransactionInv.rest {t : ℕ} {tx : Transaction P} {phase : Phase P}
    (h : TransactionInv s t tx) (hphase : phase = .idle ∨ phase = .failed) :
    TransactionInv s t { tx with phase := phase } :=
  .of_resting hphase h.begun h.passed

/-- A transaction decides. -/
theorem Inv.decide {t : ℕ} {phase : Phase P} {status : Status} (h : Inv s)
    (hact : s.status t = .active) (hphase : phase = .idle ∨ phase = .failed)
    (hstatus : status ≠ .active) :
    Inv (s.setTransaction t { s.transactions t with phase := phase, status := status }) := by
  have hsame : ∀ u, u ≠ t → (s.setTransaction t { s.transactions t with
      phase := phase, status := status }).status u = s.status u := by
    intro u hu
    rw [State.status, State.transactions_set, if_neg hu]
    rfl
  have hself : (s.setTransaction t { s.transactions t with
      phase := phase, status := status }).status t = status := by
    rw [State.status, State.transactions_set, if_pos rfl]
  have haborted : ∀ u, s.status u = .aborted → (s.setTransaction t { s.transactions t with
      phase := phase, status := status }).status u = .aborted := by
    intro u hu
    rw [hsame u _, hu]
    intro heq
    rw [heq, hact] at hu
    cases hu
  constructor
  · exact h.ordered
  · exact h.bound
  · intro u v k hu hv
    rw [State.transactions_set] at hu hv
    split_ifs at hu hv with hut hvt hvt
    · rw [hut, hvt]
    · exact hut ▸ h.exclusive t v k hu hv
    · exact hvt ▸ h.exclusive u t k hu hv
    · exact h.exclusive u v k hu hv
  · intro r hr hactive k hk
    by_cases hrt : r.transaction = t
    · rw [hrt, hself] at hactive
      exact absurd hactive hstatus
    · rw [hsame _ hrt] at hactive
      rw [State.transactions_set, if_neg hrt]
      exact h.written r hr hactive k hk
  · intro r hr m hm hlt hne k hrk hmk
    by_cases hrt : r.transaction = t
    · rw [hrt, hself]
      exact hstatus
    · rw [hsame _ hrt]
      exact h.turns r hr m hm hlt hne k hrk hmk
  · intro read hread
    exact (h.reads read hread).mono rfl rfl haborted
  · intro u
    rw [State.transactions_set]
    split_ifs with hu
    · rw [hu]
      refine .of_resting hphase (h.transactions t).begun ?_
      intro read hr
      exact ⟨((h.transactions t).passed read hr).1, fun hactive => absurd hactive hstatus⟩
    · exact (h.transactions u).mono rfl (fun _ hr => hr) haborted le_rfl
  · exact h.decisions

/-- A transaction that has decided lets its locks go. -/
theorem Inv.release {t : ℕ} (h : Inv s) (hdecided : s.status t ≠ .active) :
    Inv (s.setTransaction t { s.transactions t with held := [] }) := by
  have hsame : ∀ u, (s.setTransaction t { s.transactions t with held := [] }).status u =
    s.status u :=
    State.status_set_of_eq rfl
  have haborted : ∀ u, s.status u = .aborted →
      (s.setTransaction t { s.transactions t with held := [] }).status u = .aborted := by
    intro u hu
    rw [hsame u, hu]
  constructor
  · exact h.ordered
  · exact h.bound
  · intro u v k hu hv
    rw [State.transactions_set] at hu hv
    split_ifs at hu hv with hut hvt hvt
    · rw [hut, hvt]
    · cases hu
    · cases hv
    · exact h.exclusive u v k hu hv
  · intro r hr hactive k hk
    rw [hsame] at hactive
    have hrt : r.transaction ≠ t := by
      intro heq
      rw [heq] at hactive
      exact hdecided hactive
    rw [State.transactions_set, if_neg hrt]
    exact h.written r hr hactive k hk
  · intro r hr m hm hlt hne k hrk hmk
    rw [hsame]
    exact h.turns r hr m hm hlt hne k hrk hmk
  · intro read hread
    exact (h.reads read hread).mono rfl rfl haborted
  · intro u
    rw [State.transactions_set]
    split_ifs with hu
    · rw [hu]
      have htx := h.transactions t
      refine ⟨?_, ?_, ?_, ?_, ?_⟩
      · intro lock hl
        cases hl
      · intro todo a hp
        exact absurd (htx.locking todo a hp).1 hdecided
      · intro a hp
        exact absurd (htx.checking a hp).1 hdecided
      · intro events hp
        exact absurd (htx.inserting events hp).1 hdecided
      · intro read hr
        exact ⟨(htx.passed read hr).1, fun hactive => absurd hactive hdecided⟩
    · exact (h.transactions u).mono rfl (fun _ hr => hr) haborted le_rfl
  · exact h.decisions

/-- What a read finds: the committed matches from `start` on, and a marker at
the last of them or just below `start`. -/
theorem sourcePlain_eq_ok {start : ℕ} {read : Read P} (h : s.sourcePlain query start = .ok read) :
    read.query = query ∧ read.start = start ∧
      (∀ r, r ∈ read.rows ↔ r ∈ s.rows ∧ s.status r.transaction = .committed ∧
        start ≤ r.sequencePosition ∧ matchesQuery r.event query = true) ∧
      (read.marker = (start : ℤ) - 1 ∨
        ∃ last ∈ read.rows, read.marker = last.sequencePosition) := by
  unfold State.sourcePlain at h
  cases hquery : compileQuery query with
  | error e =>
      rw [hquery] at h
      cases h
  | ok criteria =>
      rw [hquery] at h
      cases h
      refine ⟨rfl, rfl, ?_, ?_⟩
      · intro r
        simp only [State.committedRows, List.mem_filter, Bool.and_eq_true, decide_eq_true_eq,
          matchesQuery, hquery, and_assoc]
      · simp only
        split
        · rename_i last hlast
          exact Or.inr ⟨last, List.mem_of_getLast? hlast, rfl⟩
        · exact Or.inl rfl

/-- A read sees everything that may become visible up to its marker. -/
theorem Inv.source {start : ℕ} {read : Read P} (h : Inv s)
    (hsource : s.sourcePlain query start = .ok read) :
    Inv { s with reads := s.reads ++ [read] } := by
  obtain ⟨rfl, rfl, hrows, hmarker⟩ := sourcePlain_eq_ok hsource
  have hread : ReadInv s read := by
    constructor
    · rcases hmarker with hm | ⟨last, hlast, hm⟩
      · right
        omega
      · left
        have hlt := h.bound last ((hrows last).mp hlast).1
        omega
    · intro hlinked r hr hab hmatch hstart hle
      rcases hmarker with hm | ⟨last, hlast, hm⟩
      · omega
      · obtain ⟨hin, hcommitted, hlstart, hlmatch⟩ := (hrows last).mp hlast
        -- The read saw `last`; a row before it took its turn first.
        have hcase : s.status r.transaction = .committed := by
          by_cases heq : r.transaction = last.transaction
          · rw [heq, hcommitted]
          · have hpos : r.sequencePosition < last.sequencePosition := by
              have hle' : r.sequencePosition ≤ last.sequencePosition := by omega
              rcases hle'.lt_or_eq with hlt | hsame
              · exact hlt
              · exact absurd (congrArg Row.transaction (h.ordered.eq_of_key hr hin hsame)) heq
            obtain ⟨k, hrk, hlk, -⟩ := hlinked.common hmatch hlmatch
            have hnot := h.turns r hr last hin hpos heq k hrk hlk
            cases hst : s.status r.transaction with
            | active => exact absurd hst hnot
            | committed => rfl
            | aborted => exact absurd hst hab
        exact (hrows r).mpr ⟨hr, hcase, hstart, hmatch⟩
  constructor
  · exact h.ordered
  · exact h.bound
  · exact h.exclusive
  · exact h.written
  · exact h.turns
  · intro r hr
    rcases List.mem_append.mp hr with hr | hr
    · exact (h.reads r hr).mono rfl rfl fun _ hu => hu
    · rw [List.mem_singleton.mp hr]
      exact hread.mono rfl rfl fun _ hu => hu
  · intro t
    exact (h.transactions t).mono rfl (fun _ hr => List.mem_append_left _ hr)
      (fun _ hu => hu) le_rfl
  · exact h.decisions

/-- The row's transaction holds its keys, so nobody who holds one of them has it open too. -/
theorem Inv.locked {r : Row P} {t : ℕ} {k : ℤ} (h : Inv s) (hr : r ∈ s.rows)
    (hact : s.status r.transaction = .active) (hk : r.Locks k) (ht : (s.transactions t).Holds k) :
    r.transaction = t :=
  h.exclusive _ _ k (h.written r hr hact k hk) ht

theorem State.insertRow_transactions (t u : ℕ) (event : EventMessage P) (phase : Phase P) :
    (s.insertRow t event phase).transactions u =
      if u = t then { s.transactions t with phase := phase } else s.transactions u := rfl

theorem State.insertRow_status (t u : ℕ) (event : EventMessage P) (phase : Phase P) :
    (s.insertRow t event phase).status u = s.status u := by
  rw [State.status, State.insertRow_transactions]
  split_ifs with hu
  · rw [hu]
    rfl
  · rfl

theorem State.insertRow_holds (t u : ℕ) (event : EventMessage P) (phase : Phase P) (k : ℤ) :
    ((s.insertRow t event phase).transactions u).Holds k ↔ (s.transactions u).Holds k := by
  rw [State.insertRow_transactions]
  split_ifs with hu
  · rw [hu]
    exact Iff.rfl
  · exact Iff.rfl

/-- Nobody who inserts a match holds the keys of a read another transaction passed. -/
theorem Inv.quiet_insertRow {t u : ℕ} {event : EventMessage P} {phase : Phase P} {read : Read P}
    (h : Inv s)
    (hnew : ∀ k, (⟨s.nextPosition, t, event⟩ : Row P).Locks k → (s.transactions t).Holds k)
    (hlinked : Linked read.query)
    (hlocks : ∀ k, QueryLocks read.query k → (s.transactions u).Holds k) (hquiet : Quiet s u read) :
    Quiet (s.insertRow t event phase) u read := by
  intro r hr hne hab hm
  rw [State.insertRow_status] at hab
  rcases List.mem_append.mp hr with hr | hr
  · exact hquiet r hr hne hab hm
  · rw [List.mem_singleton.mp hr] at hne hm
    obtain ⟨k, hrk, -, hqk⟩ := hlinked.common (r := ⟨s.nextPosition, t, event⟩)
      (m := ⟨s.nextPosition, t, event⟩) hm hm
    exact absurd (h.exclusive t u k (hnew k hrk) (hlocks k hqk)) hne

theorem Inv.transactions_insertRow {t u : ℕ} {event : EventMessage P} {phase : Phase P}
    {tx : Transaction P} (h : Inv s)
    (hnew : ∀ k, (⟨s.nextPosition, t, event⟩ : Row P).Locks k → (s.transactions t).Holds k)
    (hheld : tx.held = (s.transactions u).held) (htx : TransactionInv s u tx) :
    TransactionInv (s.insertRow t event phase) u tx := by
  refine ⟨htx.begun, htx.locking, htx.checking, htx.inserting, ?_⟩
  intro read hr
  obtain ⟨hin, hpassed⟩ := htx.passed read hr
  refine ⟨hin, fun hact hlinked => ?_⟩
  obtain ⟨hlocks, hquiet⟩ := hpassed hact hlinked
  refine ⟨hlocks, h.quiet_insertRow hnew hlinked ?_ hquiet⟩
  intro k hk
  have hin' := hlocks k hk
  unfold Transaction.Holds at hin' ⊢
  rw [← hheld]
  exact hin'

/-- A row is inserted by a transaction that holds its keys. -/
theorem Inv.insertRow {t : ℕ} {event : EventMessage P} {rest : List (EventMessage P)}
    {phase : Phase P} (h : Inv s) (hphase : (s.transactions t).phase = .inserting (event::rest))
    (hnext : phase = .idle ∨ phase = .inserting rest) : Inv (s.insertRow t event phase) := by
  obtain ⟨hact, hkeys⟩ := (h.transactions t).inserting _ hphase
  have hnew : ∀ k, (⟨s.nextPosition, t, event⟩ : Row P).Locks k → (s.transactions t).Holds k := by
    intro k hk
    obtain ⟨tag, htag, rfl⟩ := hk
    exact hkeys event List.mem_cons_self tag htag
  have htx : TransactionInv s t { s.transactions t with phase := phase } := by
    rcases hnext with rfl | rfl
    · exact (h.transactions t).rest (Or.inl rfl)
    · refine ⟨(h.transactions t).begun, ?_, ?_, ?_, (h.transactions t).passed⟩
      · intro todo a hp
        cases hp
      · intro a hp
        cases hp
      · intro events hp
        cases hp
        exact ⟨hact, fun e he => hkeys e (List.mem_cons_of_mem _ he)⟩
  constructor
  · apply h.ordered.append (List.pairwise_singleton _ _)
    intro a ha b hb
    rw [List.mem_singleton.mp hb]
    exact h.bound a ha
  · intro r hr
    rcases List.mem_append.mp hr with hr | hr
    · exact (h.bound r hr).trans (Nat.lt_succ_self _)
    · rw [List.mem_singleton.mp hr]
      exact Nat.lt_succ_self _
  · intro u v k hu hv
    rw [State.insertRow_holds] at hu hv
    exact h.exclusive u v k hu hv
  · intro r hr hactive k hk
    rw [State.insertRow_status] at hactive
    rw [State.insertRow_holds]
    rcases List.mem_append.mp hr with hr | hr
    · exact h.written r hr hactive k hk
    · rw [List.mem_singleton.mp hr] at hk ⊢
      exact hnew k hk
  · intro r hr m hm hlt hne k hrk hmk
    rw [State.insertRow_status]
    rcases List.mem_append.mp hr with hr | hr
    · rcases List.mem_append.mp hm with hm | hm
      · exact h.turns r hr m hm hlt hne k hrk hmk
      · rw [List.mem_singleton.mp hm] at hne hmk
        intro hactive
        exact hne (h.locked hr hactive hrk (hnew k hmk))
    · rcases List.mem_append.mp hm with hm | hm
      · rw [List.mem_singleton.mp hr] at hlt
        exact absurd hlt (not_lt.mpr (h.bound m hm).le)
      · rw [List.mem_singleton.mp hr, List.mem_singleton.mp hm] at hlt
        exact absurd hlt (lt_irrefl _)
  · intro read hread
    have hold := h.reads read hread
    constructor
    · rcases hold.marker with hm | hm
      · left
        show read.marker < ((s.nextPosition + 1 : ℕ) : ℤ)
        omega
      · exact Or.inr hm
    · intro hlinked r hr hab hm hstart hle
      rw [State.insertRow_status] at hab
      rcases List.mem_append.mp hr with hr | hr
      · exact hold.seen hlinked r hr hab hm hstart hle
      · rw [List.mem_singleton.mp hr] at hstart hle
        simp only at hstart hle
        have hmarker := hold.marker
        omega
  · intro u
    rw [State.insertRow_transactions]
    split_ifs with hu
    · subst hu
      exact h.transactions_insertRow hnew rfl htx
    · exact h.transactions_insertRow hnew rfl (h.transactions u)
  · exact h.decisions

/-- A check that passes finds no match above the marker of any of its reads. -/
theorem conflictCheck_eq_ok {rows : List (Row P)} {reads : List (Read P)}
    {condition : Option AppendCondition} (h : conflictCheck rows condition = .ok ())
    (hcond : conditionedOn reads condition = true) {read : Read P} (hread : read ∈ reads)
    {r : Row P} (hr : r ∈ rows) (hm : matchesQuery r.event read.query = true) :
    (r.sequencePosition : ℤ) ≤ read.marker := by
  cases condition with
  | none =>
      rw [conditionedOn, List.isEmpty_iff] at hcond
      rw [hcond] at hread
      cases hread
  | some condition =>
      rw [conditionedOn, Bool.and_eq_true, decide_eq_true_eq] at hcond
      have hpair : (read.query, read.marker) ∈
          (checkedReads condition).map fun c => (c.query, c.marker) := by
        rw [hcond.1]
        exact List.mem_map.mpr ⟨read, hread, rfl⟩
      obtain ⟨checked, hchecked, heq⟩ := List.mem_map.mp hpair
      rw [Prod.mk.injEq] at heq
      rw [conflictCheck] at h
      cases hclauses : (checkedReads condition).mapM (fun c => do
          return (← compileQuery c.query, c.marker) : _ → Except String (EventCriteria × ℤ)) with
      | error e =>
          rw [hclauses] at h
          cases h
      | ok clauses =>
          rw [hclauses] at h
          obtain ⟨criteria, hquery, hwhere⟩ := matchesQuery_iff.mp hm
          obtain ⟨clause, hclause, hok⟩ := exists_of_mem_source hclauses hchecked
          simp only [heq.1, heq.2, hquery] at hok
          cases hok
          by_contra hlt
          rw [not_le] at hlt
          have hin : r ∈ rows.filter fun r => clauses.any fun clause =>
              decide (clause.2 < (r.sequencePosition : ℤ)) && matchesWhere r.event clause.1 := by
            refine List.mem_filter.mpr ⟨hr, List.any_eq_true.mpr ⟨_, hclause, ?_⟩⟩
            rw [Bool.and_eq_true, decide_eq_true_eq]
            exact ⟨hlt, hwhere⟩
          have hpos := List.length_pos_of_mem hin
          change (if 0 < List.length _ then _ else _) = _ at h
          rw [if_pos hpos] at h
          cases h

/-- When the check passes, the append's locks keep the reads quiet. -/
theorem Inv.check {t : ℕ} {a : Append P} (h : Inv s)
    (hphase : (s.transactions t).phase = .checking a)
    (hcheck : conflictCheck (s.visibleTo t) a.condition = .ok ()) :
    Inv (s.setTransaction t { s.transactions t with
      phase := .inserting a.events, passed := (s.transactions t).passed ++ a.reads }) := by
  obtain ⟨hact, hcond, hreads, hneeds⟩ := (h.transactions t).checking a hphase
  refine h.setTransaction rfl (fun _ hl => hl) ?_ ?_
  · intro u hu k hk hk'
    exact hu (h.exclusive u t k hk' hk)
  · refine ⟨(h.transactions t).begun, ?_, ?_, ?_, ?_⟩
    · intro todo b hp
      cases hp
    · intro b hp
      cases hp
    · intro events hp
      cases hp
      exact ⟨hact, fun e he tag htag => hneeds _ (Or.inl ⟨e, he, tag, htag, rfl⟩)⟩
    · intro read hread
      rcases List.mem_append.mp hread with hread | hread
      · exact (h.transactions t).passed read hread
      · refine ⟨hreads read hread, fun _ hlinked => ?_⟩
        have hlocks : ∀ k, QueryLocks read.query k → (s.transactions t).Holds k :=
          fun k hk => hneeds k (Or.inr ⟨read, hread, hk⟩)
        refine ⟨hlocks, ?_⟩
        intro r hr hne hab hm
        cases hst : s.status r.transaction with
        | active =>
            obtain ⟨k, hrk, -, hqk⟩ := hlinked.common hm hm
            exact absurd (h.locked hr hst hrk (hlocks k hqk)) hne
        | committed =>
            apply conflictCheck_eq_ok hcheck (hcond read hread) hread _ hm
            refine List.mem_filter.mpr ⟨hr, ?_⟩
            rw [hst]
            simp
        | aborted => exact absurd hst hab

/-- A free lock is held by no other transaction. -/
theorem Inv.free {t u : ℕ} {k : ℤ} (h : Inv s) (hfree : s.free t ⟨k, true⟩ = true) (hu : u ≠ t) :
    ¬ (s.transactions u).Holds k := by
  intro hk
  have hbegun := (h.transactions u).begun _ hk
  have hall := List.all_eq_true.mp hfree u (List.mem_range.mpr hbegun)
  rw [Bool.or_eq_true, decide_eq_true_eq] at hall
  have hnone := List.all_eq_true.mp (hall.resolve_left hu) _ hk
  simp [Lock.conflicts] at hnone

theorem Inv.acquire {t : ℕ} {lock : Lock} {todo : List Lock} {a : Append P} (h : Inv s)
    (hphase : (s.transactions t).phase = .locking (lock::todo) a) (hfree : s.free t lock = true) :
    Inv (s.setTransaction t { s.transactions t with
      phase := .locking todo a, held := (s.transactions t).held ++ [lock] }) := by
  obtain ⟨hact, hbegun, hcond, hreads, hneeds⟩ := (h.transactions t).locking _ a hphase
  refine h.setTransaction rfl (fun _ hl => List.mem_append_left _ hl) ?_ ?_
  · intro u hu k hk hk'
    rcases List.mem_append.mp hk with hk | hk
    · exact hu (h.exclusive u t k hk' hk)
    · rw [← List.mem_singleton.mp hk] at hfree
      exact h.free hfree hu hk'
  · refine ⟨fun _ _ => hbegun, ?_, ?_, ?_, ?_⟩
    · intro todo' b hp
      cases hp
      refine ⟨hact, hbegun, hcond, hreads, ?_⟩
      intro k hk
      rcases hneeds k hk with hheld | hin
      · exact Or.inl (List.mem_append_left _ hheld)
      · rcases List.mem_cons.mp hin with heq | hin
        · exact Or.inl (List.mem_append_right _ (List.mem_singleton.mpr heq))
        · exact Or.inr hin
    · intro b hp
      cases hp
    · intro events hp
      cases hp
    · intro read hread
      obtain ⟨hin, hpassed⟩ := (h.transactions t).passed read hread
      refine ⟨hin, fun hactive hlinked => ?_⟩
      obtain ⟨hlocks, hquiet⟩ := hpassed hactive hlinked
      exact ⟨fun k hk => List.mem_append_left _ (hlocks k hk), hquiet⟩

/-- A commit: each read it was conditioned on saw all matches that are committed. -/
theorem Inv.commit {t : ℕ} (h : Inv s) (hphase : (s.transactions t).phase = .idle)
    (hact : s.status t = .active) :
    Inv { s.setTransaction t { s.transactions t with status := .committed } with
      decisions := s.decisions ++
        (s.transactions t).passed.map fun read => ⟨read, s.committedRows⟩ } := by
  have hdone : Inv (s.setTransaction t { s.transactions t with
      phase := .idle, status := .committed }) :=
    h.decide hact (Or.inl rfl) (by decide)
  rw [← hphase] at hdone
  refine ⟨hdone.ordered, hdone.bound, hdone.exclusive, hdone.written, hdone.turns,
    fun read hr => (hdone.reads read hr).mono rfl rfl fun _ hu => hu,
    fun u => (hdone.transactions u).mono rfl (fun _ hr => hr) (fun _ hu => hu) le_rfl, ?_⟩
  intro d hd
  rcases List.mem_append.mp hd with hd | hd
  · exact h.decisions d hd
  · obtain ⟨read, hread, rfl⟩ := List.mem_map.mp hd
    intro hlinked r hr hm hstart
    obtain ⟨hrow, hcommitted⟩ := List.mem_filter.mp hr
    rw [decide_eq_true_eq] at hcommitted
    have hab : s.status r.transaction ≠ .aborted := by
      rw [hcommitted]
      decide
    have hne : r.transaction ≠ t := by
      intro heq
      rw [heq, hact] at hcommitted
      cases hcommitted
    obtain ⟨hin, hpassed⟩ := (h.transactions t).passed read hread
    have hle := (hpassed hact hlinked).2 r hrow hne hab hm
    exact (h.reads read hin).seen hlinked r hrow hab hm hstart hle

theorem Inv.step {a : Action P} (h : Inv s) (hstep : step s a = some s') : Inv s' := by
  cases a with
  | source query start =>
      simp only [EventStore.step] at hstep
      split at hstep
      · rename_i read hread
        cases hstep
        exact h.source hread
      · cases hstep
        exact h
  | transaction =>
      cases hstep
      exact ⟨h.ordered, h.bound, h.exclusive, h.written, h.turns,
        fun read hr => (h.reads read hr).mono rfl rfl fun _ hu => hu,
        fun t => (h.transactions t).mono rfl (fun _ hr => hr) (fun _ hu => hu) (Nat.le_succ _),
        h.decisions⟩
  | append t events condition reads =>
      simp only [EventStore.step] at hstep
      split at hstep
      · rename_i hphase
        by_cases hok : t < s.begun ∧ s.status t = .active
        · rw [if_pos hok] at hstep
          split at hstep
          · cases hstep
            exact h.setPhase ((h.transactions t).rest (Or.inr rfl))
          · rename_i targets htargets
            cases hstep
            apply h.setPhase
            refine ⟨(h.transactions t).begun, ?_, ?_, ?_, (h.transactions t).passed⟩
            · intro todo a hp
              cases hp
              refine ⟨hok.2, hok.1, fun read hr => conditionedOn_of_mem hr, ?_, ?_⟩
              · intro read hr
                obtain ⟨k, -, hk⟩ := List.mem_filterMap.mp (mem_of_mem_conditioned hr)
                exact List.mem_of_getElem? hk
              · intro k hk
                exact Or.inr (needs_writeLocks htargets (fun read hr => conditionedOn_of_mem hr) hk)
            · intro a hp
              cases hp
            · intro evs hp
              cases hp
        · rw [if_neg hok] at hstep
          cases hstep
      · cases hstep
  | acquire t =>
      simp only [EventStore.step] at hstep
      split at hstep
      · rename_i a hphase
        cases hstep
        obtain ⟨hact, -, hcond, hreads, hneeds⟩ := (h.transactions t).locking _ a hphase
        apply h.setPhase
        refine ⟨(h.transactions t).begun, ?_, ?_, ?_, (h.transactions t).passed⟩
        · intro todo b hp
          cases hp
        · intro b hp
          cases hp
          refine ⟨hact, hcond, hreads, fun k hk => (hneeds k hk).resolve_right (by simp)⟩
        · intro evs hp
          cases hp
      · rename_i lock todo a hphase
        split_ifs at hstep with hok
        cases hstep
        exact h.acquire hphase hok.2
      · cases hstep
  | check t =>
      simp only [EventStore.step] at hstep
      split at hstep
      · rename_i a hphase
        split at hstep
        · cases hstep
          exact h.setPhase ((h.transactions t).rest (Or.inr rfl))
        · rename_i hcheck
          split_ifs at hstep
          · cases hstep
            exact h.setPhase ((h.transactions t).rest (Or.inr rfl))
          · cases hstep
            exact h.check hphase hcheck
      · cases hstep
  | insert t =>
      simp only [EventStore.step] at hstep
      split at hstep
      · rename_i event rest hphase
        cases hstep
        apply h.insertRow hphase
        split_ifs
        · exact Or.inl rfl
        · exact Or.inr rfl
      · cases hstep
  | commit t =>
      simp only [EventStore.step] at hstep
      split at hstep
      · rename_i hphase
        split_ifs at hstep with hok
        cases hstep
        exact h.commit hphase hok.2
      · cases hstep
  | rollback t =>
      simp only [EventStore.step] at hstep
      split_ifs at hstep with hok
      cases hstep
      exact h.decide hok.2 (Or.inr rfl) (by decide)
  | release t =>
      simp only [EventStore.step] at hstep
      split_ifs at hstep with hok
      cases hstep
      exact h.release hok

theorem inv_initial : Inv (initial : State P) := by
  constructor
  · exact List.Pairwise.nil
  · simp [initial]
  · simp [initial, Transaction.Holds]
  · simp [initial]
  · simp [initial]
  · simp [initial]
  · intro t
    constructor <;> simp [initial]
  · simp [initial]

/-- When every two items of a read's query have a lock key in common, an append
conditioned on the read commits only if every matching event that is committed
by then, from where the read started, was among the events it returned. -/
theorem append_decides_on_all_committed {s : State P} (hs : Reach step always initial s)
    {d : Decision P} (hd : d ∈ s.decisions) (hlinked : Linked d.read.query) :
    ∀ r ∈ d.before, matchesQuery r.event d.read.query = true →
      d.read.start ≤ r.sequencePosition → r ∈ d.read.rows := by
  have hinv : Inv s := hs.invariant inv_initial fun _ _ _ _ hi _ hstep => hi.step hstep
  exact hinv.decisions d hd hlinked

def enrolled : EventMessage Unit := ⟨⟨"course", "Enrolled"⟩, [⟨"course", "c1"⟩], ()⟩

def byCourse : EventQuery := .item ⟨some [("course", "c1")], none⟩

/-- One append, a read that sees it, and an append conditioned on the read. -/
def conditioned : List (Action Unit) :=
  [.transaction, .append 0 [enrolled] none [], .acquire 0, .acquire 0, .acquire 0, .acquire 0,
    .check 0, .insert 0, .commit 0, .release 0, .source byCourse 0, .transaction,
    .append 1 [enrolled] (some ⟨byCourse, 1, none⟩) [0], .acquire 1, .acquire 1, .acquire 1,
    .acquire 1, .check 1, .insert 1, .commit 1]

theorem linked_byCourse : Linked byCourse := by
  intro items hitems i hi j hj
  cases hitems
  rw [List.mem_singleton.mp hi, List.mem_singleton.mp hj]
  exact ⟨_, List.mem_cons_self, _, List.mem_cons_self, rfl⟩

theorem append_decides_on_all_committed_conditioned :
    ∃ (s : State Unit), Reach step always initial s ∧ ∃ d ∈ s.decisions, d.before.length = 1 ∧
      ∀ r ∈ d.before, matchesQuery r.event d.read.query = true →
        d.read.start ≤ r.sequencePosition → r ∈ d.read.rows := by
  have hs := reach_exec_get (show (exec step (initial : State Unit) conditioned).isSome = true by
    decide +kernel)
  have hd :
      ∃ d ∈ ((exec step (initial : State Unit) conditioned).get (by decide +kernel)).decisions,
      d.read.query = byCourse ∧ d.before.length = 1 := by
    decide +kernel
  obtain ⟨d, hd, hquery, hlen⟩ := hd
  refine ⟨_, hs, d, hd, hlen, ?_⟩
  apply append_decides_on_all_committed hs hd
  rw [hquery]
  exact linked_byCourse

/-- An untagged event is given position 1 and stays open while another is given
position 2 and commits; a read by type sees only the second. The first commits
below the marker of the read, and the append passes. -/
def unlinked : List (Action Unit) :=
  let plain : EventMessage Unit := ⟨⟨"course", "Created"⟩, [], ()⟩
  let byType : EventQuery := .item ⟨none, some [.string "course.Created"]⟩
  [.transaction, .transaction, .transaction, .append 0 [plain] none [], .acquire 0, .acquire 0,
    .check 0, .insert 0, .append 1 [plain] none [], .acquire 1, .acquire 1, .check 1, .insert 1,
    .commit 1, .release 1, .source byType 0, .commit 0, .release 0,
    .append 2 [plain] (some ⟨byType, 2, none⟩) [0], .acquire 2, .acquire 2, .check 2, .insert 2,
    .commit 2]

theorem append_misses_committed_event :
    ∃ s : State Unit, Reach step always initial s ∧ ∃ d ∈ s.decisions, ∃ r ∈ d.before,
      matchesQuery r.event d.read.query = true ∧ d.read.start ≤ r.sequencePosition ∧
      r ∉ d.read.rows := by
  have hs := reach_exec_get (show (exec step (initial : State Unit) unlinked).isSome = true by
    decide +kernel)
  exact ⟨_, hs, by decide +kernel⟩

end Kronos.Postgres.EventStore
