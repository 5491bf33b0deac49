import Kronos.Postgres.Tailing

/-!
# Tailing is gap-free

A transaction below `xmin` has finished, and none will ever be given an id
there again: what the table holds below `xmin` is settled. A stream's cursor is
always below `xmin`, so nothing can still appear behind it, whatever the order
of commits, and a token at the cursor passes over nothing that may yet come.
-/
namespace Kronos.Postgres.Tailing
open Kronos.Lib.Transition Kronos.Lib.Window Kronos.Processing Kronos.Processing.SharedStream

variable {E : Type} {db db' db'' : Database E} {st st' : Stream E} {r : Row E}

structure DatabaseInv (db : Database E) : Prop where
  position : ∀ r ∈ db.rows, 0 < r.sequencePosition ∧ r.sequencePosition < db.nextPosition
  position_pos : 0 < db.nextPosition
  xid : ∀ r ∈ db.rows, 0 < r.transactionId ∧ r.transactionId < db.nextXid
  ordered : Ordered Row.sequencePosition db.rows
  running : ∀ xid ∈ db.running, db.xmin ≤ xid ∧ xid < db.nextXid
  xmin_pos : 0 < db.xmin
  xmin_le : db.xmin ≤ db.nextXid

/-- Nothing is lost from one state of the table to a later one, and what was
below `xmin` has not changed. -/
structure Settled (db db' : Database E) : Prop where
  xmin : db.xmin ≤ db'.xmin
  rows : ∀ r ∈ db.rows, r ∈ db'.rows
  commits : ∀ r ∈ db.rows, db.committed r = true → db'.committed r = true
  below : ∀ r ∈ db'.rows, r.transactionId < db.xmin →
    r ∈ db.rows ∧ db'.committed r = db.committed r

theorem Settled.refl (db : Database E) : Settled db db :=
  ⟨le_rfl, fun _ hr => hr, fun _ _ hc => hc, fun _ hr _ => ⟨hr, rfl⟩⟩

theorem Settled.trans (h : Settled db db') (k : Settled db' db'') : Settled db db'' where
  xmin := h.xmin.trans k.xmin
  rows r hr := k.rows r (h.rows r hr)
  commits r hr hc := k.commits r (h.rows r hr) (h.commits r hr hc)
  below r hr hlt := by
    obtain ⟨hr', hc'⟩ := k.below r hr (hlt.trans_le h.xmin)
    obtain ⟨hr₀, hc₀⟩ := h.below r hr' hlt
    exact ⟨hr₀, hc'.trans hc₀⟩

theorem committed_iff : db.committed r = true ↔
    r.transactionId ∉ db.running ∧ r.transactionId ∉ db.aborted := by
  simp [Database.committed]

theorem visible_iff : db.visible r = true ↔
    db.committed r = true ∧ r.transactionId < db.xmin := by
  simp [Database.visible]

/-- What a transaction does keeps the table in order and settles nothing anew. -/
theorem DatabaseInv.step {a : Action E} (h : DatabaseInv db) (hstep : db.step a = some db') :
    DatabaseInv db' ∧ Settled db db' := by
  cases a with
  | assign =>
      cases hstep
      refine ⟨⟨h.position, h.position_pos, ?_, h.ordered, ?_, h.xmin_pos,
        h.xmin_le.trans (Nat.le_succ _)⟩,
        ⟨le_rfl, fun _ hr => hr, ?_, ?_⟩⟩
      · intro r hr
        exact ⟨(h.xid r hr).1, Nat.lt_succ_of_lt (h.xid r hr).2⟩
      · intro xid hx
        rcases List.mem_append.mp hx with hx | hx
        · exact ⟨(h.running xid hx).1, Nat.lt_succ_of_lt (h.running xid hx).2⟩
        · rw [List.mem_singleton.mp hx]
          exact ⟨h.xmin_le, Nat.lt_succ_self _⟩
      · intro r hr hc
        have hlt := (h.xid r hr).2
        simp only [committed_iff, List.mem_append, List.mem_singleton] at hc ⊢
        exact ⟨fun hor => hor.elim hc.1 fun heq => absurd heq hlt.ne, hc.2⟩
      · intro r hr hlt
        have hne : r.transactionId ≠ db.nextXid := (hlt.trans_le h.xmin_le).ne
        refine ⟨hr, ?_⟩
        simp [Database.committed, hne]
  | insert xid event =>
      simp only [Database.step] at hstep
      split_ifs at hstep with hx
      cases hstep
      refine ⟨⟨?_, Nat.succ_pos _, ?_, ?_, h.running, h.xmin_pos, h.xmin_le⟩,
        ⟨le_rfl, fun _ hr => List.mem_append_left _ hr, fun _ _ hc => hc, ?_⟩⟩
      · intro r hr
        rcases List.mem_append.mp hr with hr | hr
        · exact ⟨(h.position r hr).1, Nat.lt_succ_of_lt (h.position r hr).2⟩
        · rw [List.mem_singleton.mp hr]
          exact ⟨h.position_pos, Nat.lt_succ_self _⟩
      · intro r hr
        rcases List.mem_append.mp hr with hr | hr
        · exact h.xid r hr
        · rw [List.mem_singleton.mp hr]
          exact ⟨h.xmin_pos.trans_le (h.running xid hx).1, (h.running xid hx).2⟩
      · apply h.ordered.append (List.pairwise_singleton _ _)
        intro a ha b hb
        rw [List.mem_singleton.mp hb]
        exact (h.position a ha).2
      · intro r hr hlt
        rcases List.mem_append.mp hr with hr | hr
        · exact ⟨hr, rfl⟩
        · rw [List.mem_singleton.mp hr] at hlt
          exact absurd hlt (not_lt.mpr (h.running xid hx).1)
  | commit xid =>
      simp only [Database.step] at hstep
      split_ifs at hstep with hx
      cases hstep
      refine ⟨⟨h.position, h.position_pos, h.xid, h.ordered, ?_, h.xmin_pos, h.xmin_le⟩,
        ⟨le_rfl, fun _ hr => hr, ?_, ?_⟩⟩
      · intro y hy
        exact h.running y (List.mem_filter.mp hy).1
      · intro r hr hc
        rw [committed_iff] at hc ⊢
        exact ⟨fun hin => hc.1 (List.mem_filter.mp hin).1, hc.2⟩
      · intro r hr hlt
        have hnot : r.transactionId ∉ db.running :=
          fun hin => absurd hlt (not_lt.mpr (h.running _ hin).1)
        refine ⟨hr, ?_⟩
        simp [Database.committed, hnot]
  | rollback xid =>
      simp only [Database.step] at hstep
      split_ifs at hstep with hx
      cases hstep
      refine ⟨⟨h.position, h.position_pos, h.xid, h.ordered, ?_, h.xmin_pos, h.xmin_le⟩,
        ⟨le_rfl, fun _ hr => hr, ?_, ?_⟩⟩
      · intro y hy
        exact h.running y (List.mem_filter.mp hy).1
      · intro r hr hc
        simp only [committed_iff, List.mem_append, List.mem_singleton] at hc ⊢
        refine ⟨fun hin => hc.1 (List.mem_filter.mp hin).1, fun hor => hor.elim hc.2 fun heq => ?_⟩
        exact hc.1 (heq ▸ hx)
      · intro r hr hlt
        have hnot : r.transactionId ∉ db.running :=
          fun hin => absurd hlt (not_lt.mpr (h.running _ hin).1)
        have hne : r.transactionId ≠ xid := fun heq => hnot (heq ▸ hx)
        refine ⟨hr, ?_⟩
        simp [Database.committed, hnot, hne]
  | watermark xmin =>
      simp only [Database.step] at hstep
      split_ifs at hstep with hx
      cases hstep
      exact ⟨⟨h.position, h.position_pos, h.xid, h.ordered,
        fun xid hr => ⟨hx.2.2 xid hr, (h.running xid hr).2⟩,
        h.xmin_pos.trans_le hx.1, hx.2.1⟩,
        ⟨hx.1, fun _ hr => hr, fun _ _ hc => hc, fun _ hr _ => ⟨hr, rfl⟩⟩⟩
  | openStream i position token query => cases hstep
  | fetch i limit => cases hstep
  | lookPast i => cases hstep
  | receive i => cases hstep
  | next i => cases hstep
  | progress i => cases hstep

/-- A row that matches and has committed, in `(lo, hi]`. -/
def Between (db : Database E) (st : Stream E) (lo hi : Place) (r : Row E) : Prop :=
  r ∈ db.rows ∧ db.committed r = true ∧ st.accepts r = true ∧ lo < r.key ∧ r.key ≤ hi

/-- A place a row below the watermark is at. -/
def Known (db : Database E) (p : Place) : Prop :=
  ∃ r ∈ db.rows, db.visible r = true ∧ r.key = p

theorem xid_le_of_key_le {p : Place} (h : r.key ≤ p) : r.transactionId ≤ (ofLex p).1 := by
  rcases Prod.Lex.le_iff.mp h with hlt | heq
  · exact hlt.le
  · exact heq.1.le

theorem Known.below {p : Place} (h : Known db p) : (ofLex p).1 < db.xmin := by
  obtain ⟨r, -, hv, rfl⟩ := h
  exact (visible_iff.mp hv).2

theorem Settled.visible (h : Settled db db') (hr : r ∈ db.rows) (hv : db.visible r = true) :
    db'.visible r = true := by
  rw [visible_iff] at hv ⊢
  exact ⟨h.commits r hr hv.1, hv.2.trans_le h.xmin⟩

theorem Known.settle {p : Place} (h : Settled db db') (hk : Known db p) : Known db' p := by
  obtain ⟨r, hr, hv, hp⟩ := hk
  exact ⟨r, h.rows r hr, h.visible hr hv, hp⟩

/-- Below the watermark nothing is added or taken away. -/
theorem Settled.between {lo hi : Place} (h : Settled db db') (hhi : (ofLex hi).1 < db.xmin) :
    Between db' st lo hi r ↔ Between db st lo hi r := by
  constructor
  · intro hb
    obtain ⟨hr, hc, ha, hlo, hle⟩ := hb
    obtain ⟨hr₀, hc₀⟩ := h.below r hr ((xid_le_of_key_le hle).trans_lt hhi)
    exact ⟨hr₀, hc₀ ▸ hc, ha, hlo, hle⟩
  · intro hb
    obtain ⟨hr, hc, ha, hlo, hle⟩ := hb
    exact ⟨h.rows r hr, h.commits r hr hc, ha, hlo, hle⟩

/-- The rows of a fetch: the next ones after the cursor, none left out. -/
structure Fetched (db : Database E) (st : Stream E) (rows : List (Row E)) : Prop where
  ordered : Ordered Row.key rows
  row : ∀ r ∈ rows, r ∈ db.rows ∧ db.visible r = true ∧ st.accepts r = true ∧
    cursorPlace st.cursor < r.key
  next : ∀ r, ∀ last ∈ rows, Between db st (cursorPlace st.cursor) last.key r → r ∈ rows

structure StreamInv (db : Database E) (st : Stream E) : Prop where
  cursor : st.cursor = (none, 0) ∨
    ∃ xid position, st.cursor = (some xid, position) ∧ Known db (toLex (xid, position))
  opened_le : st.opened ≤ cursorPlace st.cursor
  ordered : Ordered Row.key st.buffered
  exact : ∀ r, r ∈ st.buffered ↔ Between db st st.opened (cursorPlace st.cursor) r
  looked : ∀ p, st.looked = some p → p = cursorPlace st.cursor ∧ Known db p
  fetched : ∀ rows, st.phase = .fetched rows → Fetched db st rows
  newest : ∀ p, st.phase = .looked (some p) → Known db p ∧ cursorPlace st.cursor ≤ p ∧
    ∀ r, ¬ Between db st (cursorPlace st.cursor) p r

theorem StreamInv.below (hdb : DatabaseInv db) (h : StreamInv db st) :
    (ofLex (cursorPlace st.cursor)).1 < db.xmin := by
  rcases h.cursor with hc | ⟨xid, position, hc, hk⟩
  · rw [hc]
    exact hdb.xmin_pos
  · rw [hc]
    exact hk.below

/-- What other transactions do leaves a stream's invariant. -/
theorem StreamInv.settle (hdb : DatabaseInv db) (hs : Settled db db') (h : StreamInv db st) :
    StreamInv db' st where
  cursor := by
    rcases h.cursor with hc | ⟨xid, position, hc, hk⟩
    · exact Or.inl hc
    · exact Or.inr ⟨xid, position, hc, hk.settle hs⟩
  opened_le := h.opened_le
  ordered := h.ordered
  exact r := by rw [h.exact r, hs.between (h.below hdb)]
  looked p hp := ⟨(h.looked p hp).1, (h.looked p hp).2.settle hs⟩
  fetched rows hrows := by
    have hf := h.fetched rows hrows
    refine ⟨hf.ordered, ?_, ?_⟩
    · intro r hr
      obtain ⟨hmem, hv, ha, hlt⟩ := hf.row r hr
      exact ⟨hs.rows r hmem, hs.visible hmem hv, ha, hlt⟩
    · intro r last hlast hb
      have hlt : (ofLex last.key).1 < db.xmin := (visible_iff.mp (hf.row last hlast).2.1).2
      exact hf.next r last hlast ((hs.between hlt).mp hb)
  newest p hp := by
    obtain ⟨hk, hle, hnone⟩ := h.newest p hp
    exact ⟨hk.settle hs, hle, fun r hb => hnone r ((hs.between hk.below).mp hb)⟩

theorem DatabaseInv.eq_of_key {a b : Row E} (h : DatabaseInv db) (ha : a ∈ db.rows)
    (hb : b ∈ db.rows) (hk : a.key = b.key) : a = b := by
  apply h.ordered.eq_of_key ha hb
  have hpair : (a.transactionId, a.sequencePosition) = (b.transactionId, b.sequencePosition) :=
    toLex.injective hk
  exact (Prod.mk.inj hpair).2

theorem DatabaseInv.sorted (h : DatabaseInv db) (p : Row E → Bool) :
    Ordered Row.key ((db.rows.filter p).insertionSort fun a b => a.key ≤ b.key) := by
  apply ordered_insertionSort
  apply (h.ordered.imp _).filter
  intro a b hlt hk
  have hpair : (a.transactionId, a.sequencePosition) = (b.transactionId, b.sequencePosition) :=
    toLex.injective hk
  exact absurd (Prod.mk.inj hpair).2 hlt.ne

/-- By position alone or by the pair: both branches ask for what is after the cursor. -/
theorem StreamInv.after_iff (hdb : DatabaseInv db) (h : StreamInv db st) (hr : r ∈ db.rows) :
    st.after r = true ↔ cursorPlace st.cursor < r.key := by
  rcases h.cursor with hc | ⟨xid, position, hc, -⟩
  · simp only [Stream.after, hc, decide_eq_true_eq]
    refine ⟨fun _ => ?_, fun _ => (hdb.position r hr).1⟩
    exact Prod.Lex.lt_iff.mpr (Or.inl (hdb.xid r hr).1)
  · simp only [Stream.after, hc, decide_eq_true_eq, cursorPlace]

theorem StreamInv.mem_pending (hdb : DatabaseInv db) (h : StreamInv db st) :
    r ∈ st.pending db ↔ r ∈ db.rows ∧ db.visible r = true ∧ st.accepts r = true ∧
      cursorPlace st.cursor < r.key := by
  simp only [Stream.pending, List.mem_insertionSort, List.mem_filter, Bool.and_eq_true]
  constructor
  · intro hm
    exact ⟨hm.1, hm.2.1.1, hm.2.2, (h.after_iff hdb hm.1).mp hm.2.1.2⟩
  · intro hm
    exact ⟨hm.1, ⟨hm.2.1, (h.after_iff hdb hm.1).mpr hm.2.2.2⟩, hm.2.2.1⟩

theorem StreamInv.fetchBatch (hdb : DatabaseInv db) (h : StreamInv db st) (limit : ℕ) :
    StreamInv db (st.fetchBatch db limit) where
  cursor := h.cursor
  opened_le := h.opened_le
  ordered := h.ordered
  exact := h.exact
  looked := h.looked
  fetched rows hrows := by
    cases hrows
    have hsorted : Ordered Row.key (st.pending db) := hdb.sorted _
    refine ⟨hsorted.sublist (List.take_sublist _ _), ?_, ?_⟩
    · intro r hr
      exact (h.mem_pending hdb).mp (List.mem_of_mem_take hr)
    · intro r last hlast hb
      obtain ⟨hr, hc, ha, hlo, hle⟩ := hb
      have hmem := List.mem_of_mem_take hlast
      have hlastv := (visible_iff.mp ((h.mem_pending hdb).mp hmem).2.1).2
      have hv : db.visible r = true :=
        visible_iff.mpr ⟨hc, (xid_le_of_key_le hle).trans_lt hlastv⟩
      have hp : r ∈ st.pending db := (h.mem_pending hdb).mpr ⟨hr, hv, ha, hlo⟩
      rcases hle.lt_or_eq with hlt | heq
      · exact hsorted.mem_take hlast hp hlt
      · rw [hsorted.eq_of_key hp hmem heq]
        exact hlast
  newest p hp := by cases hp

/-- A look past an empty answer: the last visible row, and nothing was left to read. -/
theorem DatabaseInv.lookPast_newest (h : DatabaseInv db) {p : Place}
    (hp : (st.lookPast db).phase = .looked (some p)) :
    st.pending db = [] ∧ ∃ newest ∈ db.rows, db.visible newest = true ∧ newest.key = p ∧
      ∀ r ∈ db.rows, db.visible r = true → r.key ≤ p := by
  simp only [Stream.lookPast, Phase.looked.injEq] at hp
  split_ifs at hp with hempty
  obtain ⟨newest, hnewest, rfl⟩ := Option.map_eq_some_iff.mp hp
  have hmem := List.mem_filter.mp ((List.mem_insertionSort _).mp (List.mem_of_getLast? hnewest))
  refine ⟨List.isEmpty_iff.mp hempty, newest, hmem.1, hmem.2, rfl, ?_⟩
  intro r hr hv
  apply (h.sorted db.visible).le_getLast _ hnewest
  exact (List.mem_insertionSort _).mpr (List.mem_filter.mpr ⟨hr, hv⟩)

theorem StreamInv.lookPast (hdb : DatabaseInv db) (h : StreamInv db st) :
    StreamInv db (st.lookPast db) where
  cursor := h.cursor
  opened_le := h.opened_le
  ordered := h.ordered
  exact := h.exact
  looked := h.looked
  fetched rows hrows := by cases hrows
  newest p hp := by
    obtain ⟨hempty, newest, hmem, hvisible, rfl, hlast⟩ := hdb.lookPast_newest hp
    refine ⟨⟨newest, hmem, hvisible, rfl⟩, ?_, ?_⟩
    · show cursorPlace st.cursor ≤ newest.key
      rcases h.cursor with hc | ⟨xid, position, hc, r, hr, hv, hk⟩
      · rw [hc]
        exact origin_le _
      · rw [hc, cursorPlace, ← hk]
        exact hlast r hr hv
    · intro r hb
      obtain ⟨hr, hc, ha, hlo, hle⟩ := hb
      have hv : db.visible r = true := visible_iff.mpr
        ⟨hc, (xid_le_of_key_le hle).trans_lt (visible_iff.mp hvisible).2⟩
      have hp : r ∈ st.pending db := (h.mem_pending hdb).mpr ⟨hr, hv, ha, hlo⟩
      rw [hempty] at hp
      cases hp

/-- What lies up to a later place is what lies up to the cursor, then the rest. -/
theorem between_split {lo mid hi : Place} (hlo : lo ≤ mid) (hhi : mid ≤ hi) :
    Between db st lo hi r ↔ Between db st lo mid r ∨ Between db st mid hi r := by
  constructor
  · intro hb
    obtain ⟨hr, hc, ha, hgt, hle⟩ := hb
    rcases le_or_gt r.key mid with hm | hm
    · exact Or.inl ⟨hr, hc, ha, hgt, hm⟩
    · exact Or.inr ⟨hr, hc, ha, hm, hle⟩
  · intro hb
    rcases hb with ⟨hr, hc, ha, hgt, hle⟩ | ⟨hr, hc, ha, hgt, hle⟩
    · exact ⟨hr, hc, ha, hgt, hle.trans hhi⟩
    · exact ⟨hr, hc, ha, hlo.trans_lt hgt, hle⟩

theorem Fetched.mem_iff {rows : List (Row E)} {last : Row E} (h : Fetched db st rows)
    (hlast : rows.getLast? = some last) :
    r ∈ rows ↔ Between db st (cursorPlace st.cursor) last.key r := by
  constructor
  · intro hr
    obtain ⟨hmem, hv, ha, hlt⟩ := h.row r hr
    exact ⟨hmem, (visible_iff.mp hv).1, ha, hlt, h.ordered.le_getLast hr hlast⟩
  · intro hb
    exact h.next r last (List.mem_of_getLast? hlast) hb

theorem StreamInv.receive {rows : List (Row E)} (h : StreamInv db st)
    (hphase : st.phase = .fetched rows) : StreamInv db (st.receive rows) := by
  have hf := h.fetched rows hphase
  unfold Stream.receive
  split
  · rename_i last hlast
    have hmem := List.mem_of_getLast? hlast
    obtain ⟨hrow, hv, -, hlt⟩ := hf.row last hmem
    have hbuf : ({ st with
        buffer := st.buffer ++ rows, cursor := (some last.transactionId, last.sequencePosition),
        looked := none, phase := .idle } : Stream E).buffered = st.buffered ++ rows :=
      (List.append_assoc _ _ _).symm
    constructor
    · exact Or.inr ⟨_, _, rfl, last, hrow, hv, rfl⟩
    · exact h.opened_le.trans hlt.le
    · rw [hbuf]
      apply h.ordered.append hf.ordered
      intro a ha b hb
      exact ((h.exact a).mp ha).2.2.2.2.trans_lt (hf.row b hb).2.2.2
    · intro r
      rw [hbuf, List.mem_append, h.exact r, hf.mem_iff hlast]
      exact (between_split h.opened_le hlt.le).symm
    · intro p hp
      cases hp
    · intro rows' hrows
      cases hrows
    · intro p hp
      cases hp
  · split
    · refine ⟨h.cursor, h.opened_le, h.ordered, h.exact, h.looked, ?_, ?_⟩
      · intro rows' hrows
        cases hrows
      · intro p hp
        cases hp
    · refine ⟨h.cursor, h.opened_le, h.ordered, h.exact, ?_, ?_, ?_⟩
      · intro p hp
        cases hp
      · intro rows' hrows
        cases hrows
      · intro p hp
        cases hp

theorem StreamInv.receiveLooked {newest : Option Place} (h : StreamInv db st)
    (hphase : st.phase = .looked newest) : StreamInv db (st.receiveLooked newest) := by
  unfold Stream.receiveLooked
  cases newest with
  | none =>
      refine ⟨h.cursor, h.opened_le, h.ordered, h.exact, ?_, ?_, ?_⟩
      · intro p hp
        cases hp
      · intro rows hrows
        cases hrows
      · intro p hp
        cases hp
  | some p =>
      obtain ⟨hk, hle, hnone⟩ := h.newest p hphase
      constructor
      · exact Or.inr ⟨_, _, rfl, hk⟩
      · exact h.opened_le.trans hle
      · exact h.ordered
      · intro r
        refine (h.exact r).trans ?_
        refine Iff.trans ?_ (between_split h.opened_le hle).symm
        exact ⟨Or.inl, fun hor => hor.elim id fun hb => absurd hb (hnone r)⟩
      · intro q hq
        cases hq
        exact ⟨rfl, hk⟩
      · intro rows hrows
        cases hrows
      · intro q hq
        cases hq

theorem Stream.buffered_next {rest : List (Row E)} (hb : st.buffer = r::rest) :
    ({ st with buffer := rest, handed := st.handed ++ [r] } : Stream E).buffered = st.buffered := by
  simp [Stream.buffered, hb]

theorem StreamInv.next {rest : List (Row E)} (h : StreamInv db st) (hb : st.buffer = r::rest) :
    StreamInv db { st with buffer := rest, handed := st.handed ++ [r] } where
  cursor := h.cursor
  opened_le := h.opened_le
  ordered := Stream.buffered_next hb ▸ h.ordered
  exact x := by
    rw [Stream.buffered_next hb]
    exact h.exact x
  looked := h.looked
  fetched rows hrows := by
    have hf := h.fetched rows hrows
    exact ⟨hf.ordered, hf.row, hf.next⟩
  newest := h.newest

/-- Every token an event carries is at a row below the watermark. -/
theorem StreamInv.known (hdb : DatabaseInv db) (h : StreamInv db st) (hr : r ∈ st.buffered) :
    Known db r.key := by
  obtain ⟨hmem, hc, -, -, hle⟩ := (h.exact r).mp hr
  exact ⟨r, hmem, visible_iff.mpr ⟨hc, (xid_le_of_key_le hle).trans_lt (h.below hdb)⟩, rfl⟩

/-- One action of a stream keeps its invariant, and hands out only known places. -/
theorem StreamInv.step {a : Action E} {tokens : List Place} (hdb : DatabaseInv db)
    (h : StreamInv db st) (hstep : st.step db a = some (st', tokens)) :
    StreamInv db st' ∧ ∀ p ∈ tokens, Known db p := by
  cases a with
  | fetch i limit =>
      simp only [Stream.step] at hstep
      split at hstep
      · cases hstep
        exact ⟨h.fetchBatch hdb limit, by simp⟩
      · cases hstep
  | lookPast i =>
      simp only [Stream.step] at hstep
      split at hstep
      · cases hstep
        exact ⟨h.lookPast hdb, by simp⟩
      · cases hstep
  | receive i =>
      simp only [Stream.step] at hstep
      split at hstep
      · rename_i rows hphase
        cases hstep
        exact ⟨h.receive hphase, by simp⟩
      · rename_i newest hphase
        cases hstep
        exact ⟨h.receiveLooked hphase, by simp⟩
      · cases hstep
  | next i =>
      simp only [Stream.step] at hstep
      split at hstep
      · cases hstep
      · rename_i r rest hb
        cases hstep
        refine ⟨h.next hb, ?_⟩
        intro p hp
        rw [List.mem_singleton.mp hp]
        exact h.known hdb (by simp [Stream.buffered, hb])
  | progress i =>
      cases hstep
      refine ⟨h, ?_⟩
      intro p hp
      have hlooked : st.progressToken = some p := Option.mem_toList.mp hp
      unfold Stream.progressToken at hlooked
      split_ifs at hlooked
      exact (h.looked p hlooked).2
  | assign => cases hstep
  | insert xid event => cases hstep
  | commit xid => cases hstep
  | rollback xid => cases hstep
  | watermark xmin => cases hstep
  | openStream i position token query => cases hstep

variable {s s' t : State E}

/-- A step is an action of one stream, an opening, or one of a transaction. -/
theorem step_cases {a : Action E} (h : step s a = some s') :
    (∃ i st st' tokens, s.streams i = some st ∧ st.step s.db a = some (st', tokens) ∧
      s' = { s.setStream i st' with minted := s.minted ++ tokens }) ∨
    (∃ i position token query, s.streams i = none ∧
      opensAt s.minted (openStream position token query : Stream E).cursor = true ∧
      s' = s.setStream i (openStream position token query)) ∨
    (∃ db, s.db.step a = some db ∧ s' = { s with db := db }) := by
  unfold step at h
  split at h
  · rename_i i hi
    obtain ⟨st, hst, h⟩ := Option.bind_eq_some_iff.mp h
    obtain ⟨⟨st', tokens⟩, hstep, h⟩ := Option.bind_eq_some_iff.mp h
    cases h
    exact Or.inl ⟨i, st, st', tokens, hst, hstep, rfl⟩
  · split at h
    · rename_i i position token query hnone
      simp only at h
      split_ifs at h with hopen
      cases h
      exact Or.inr (Or.inl ⟨i, position, token, query, Option.isNone_iff_eq_none.mp hopen.1,
        hopen.2, rfl⟩)
    · obtain ⟨db, hdb, rfl⟩ := Option.map_eq_some_iff.mp h
      exact Or.inr (Or.inr ⟨db, hdb, rfl⟩)

structure Inv (s : State E) : Prop where
  db : DatabaseInv s.db
  streams : ∀ i st, s.streams i = some st → StreamInv s.db st
  minted : ∀ p ∈ s.minted, Known s.db p

theorem inv_initial : Inv (initial : State E) where
  db := by constructor <;> simp [initial, Ordered]
  streams i st h := by cases h
  minted p hp := by cases hp

theorem streamInv_openStream {position : ℕ} {token : Option (TrackingToken ℕ)}
    {query : Option (E → Bool)} {minted : List Place} (hm : ∀ p ∈ minted, Known db p)
    (hopen : opensAt minted (openStream position token query : Stream E).cursor = true) :
    StreamInv db (openStream position token query) where
  cursor := by
    unfold opensAt at hopen
    split at hopen
    · rename_i xid heq
      rw [heq, of_decide_eq_true hopen]
      exact Or.inl rfl
    · rename_i xid pos heq
      exact Or.inr ⟨xid, pos, heq, hm _ (of_decide_eq_true hopen)⟩
  opened_le := le_rfl
  ordered := List.Pairwise.nil
  exact r := by
    refine ⟨fun hr => absurd hr (by simp [openStream, Stream.buffered]), fun hb => ?_⟩
    exact absurd (hb.2.2.2.1.trans_le hb.2.2.2.2) (lt_irrefl _)
  looked p hp := by cases hp
  fetched rows hrows := by cases hrows
  newest p hp := by cases hp

theorem Inv.step {a : Action E} (h : Inv s) (hstep : step s a = some s') :
    Inv s' ∧ Settled s.db s'.db := by
  rcases step_cases hstep with ⟨i, st, st', tokens, hi, hst, rfl⟩ |
      ⟨i, position, token, query, hi, hopen, rfl⟩ | ⟨db, hdb, rfl⟩
  · obtain ⟨hst', htokens⟩ := (h.streams i st hi).step h.db hst
    refine ⟨⟨h.db, ?_, ?_⟩, Settled.refl _⟩
    · intro j x hx
      by_cases hj : j = i
      · cases (if_pos hj).symm.trans hx
        exact hst'
      · exact h.streams j x ((if_neg hj).symm.trans hx)
    · intro p hp
      rcases List.mem_append.mp hp with hp | hp
      · exact h.minted p hp
      · exact htokens p hp
  · refine ⟨⟨h.db, ?_, h.minted⟩, Settled.refl _⟩
    intro j x hx
    by_cases hj : j = i
    · cases (if_pos hj).symm.trans hx
      exact streamInv_openStream h.minted hopen
    · exact h.streams j x ((if_neg hj).symm.trans hx)
  · obtain ⟨hinv, hsettled⟩ := h.db.step hdb
    exact ⟨⟨hinv, fun j x hx => (h.streams j x hx).settle h.db hsettled,
      fun p hp => (h.minted p hp).settle hsettled⟩, hsettled⟩

theorem Inv.reach (h : Reach Tailing.step always initial s) : Inv s :=
  h.invariant inv_initial fun _ _ _ _ hi _ hstep => (hi.step hstep).1

/-- What the stream has read, whether or not it has arrived. -/
def Stream.taken (st : Stream E) : List (Row E) := st.buffered ++ st.inFlight

/-- The rows a stream has to read to have read `r`. -/
def due (db : Database E) (st : Stream E) (r : Row E) : List (Row E) :=
  db.rows.filter fun x =>
    db.committed x && st.accepts x && decide (st.opened < x.key) && decide (x.key ≤ r.key)

theorem mem_due {x : Row E} : x ∈ due db st r ↔ Between db st st.opened r.key x := by
  simp only [due, Between, List.mem_filter, Bool.and_eq_true, decide_eq_true_eq, and_assoc]

theorem StreamInv.taken_ordered (h : StreamInv db st) : Ordered Row.key st.taken := by
  unfold Stream.taken Stream.inFlight
  split
  · rename_i rows hphase
    have hf := h.fetched rows hphase
    apply h.ordered.append hf.ordered
    intro a ha b hb
    exact ((h.exact a).mp ha).2.2.2.2.trans_lt (hf.row b hb).2.2.2
  · rw [List.append_nil]
    exact h.ordered

theorem StreamInv.taken_due (h : StreamInv db st) {x : Row E} (hx : x ∈ st.taken)
    (hle : x.key ≤ r.key) : x ∈ due db st r := by
  rw [mem_due]
  rcases List.mem_append.mp hx with hx | hx
  · obtain ⟨hr, hc, ha, hlo, -⟩ := (h.exact x).mp hx
    exact ⟨hr, hc, ha, hlo, hle⟩
  · unfold Stream.inFlight at hx
    split at hx
    · rename_i rows hphase
      obtain ⟨hr, hv, ha, hlo⟩ := (h.fetched rows hphase).row x hx
      exact ⟨hr, (visible_iff.mp hv).1, ha, h.opened_le.trans_lt hlo, hle⟩
    · cases hx

/-- How far a stream has got towards `r`. -/
def Stream.towards (st : Stream E) (r : Row E) : ℕ :=
  (st.taken.filter fun x => decide (x.key ≤ r.key)).length

/-- Short of `r`, fewer rows have been taken than are due. -/
theorem StreamInv.towards_lt (h : StreamInv db st) (hr : r ∈ due db st r) (hnot : r ∉ st.taken) :
    st.towards r < (due db st r).length := by
  have hnodup : (r::st.taken.filter fun x => decide (x.key ≤ r.key)).Nodup := by
    apply List.nodup_cons.mpr
    exact ⟨fun hin => hnot (List.mem_filter.mp hin).1, h.taken_ordered.nodup.filter _⟩
  have hsub : r::(st.taken.filter fun x => decide (x.key ≤ r.key)) ⊆ due db st r := by
    intro x hx
    rcases List.mem_cons.mp hx with rfl | hx
    · exact hr
    · obtain ⟨htaken, hle⟩ := List.mem_filter.mp hx
      exact h.taken_due htaken (of_decide_eq_true hle)
  exact (List.subperm_of_subset hnodup hsub).length_le

/-- What one action does to a stream's reading: a fetch that counts comes
nearer to every row that is due. -/
structure Advances (db : Database E) (st st' : Stream E) : Prop where
  query : st'.query = st.query
  opened : st'.opened = st.opened
  taken : st.taken <+: st'.taken
  fetches : ∀ r ∈ db.rows, db.visible r = true → st.accepts r = true → st.opened < r.key →
    r ∈ st'.taken ∨ st'.fetches + st.towards r ≤ st.fetches + st'.towards r

theorem Advances.of_taken_eq (hq : st'.query = st.query) (ho : st'.opened = st.opened)
    (ht : st'.taken = st.taken) (hf : st'.fetches = st.fetches) : Advances db st st' := by
  refine ⟨hq, ho, ht ▸ List.prefix_refl _, fun r _ _ _ _ => Or.inr ?_⟩
  simp only [Stream.towards, ht, hf, le_refl]

theorem Stream.taken_receive {rows : List (Row E)} (hphase : st.phase = .fetched rows) :
    (st.receive rows).taken = st.taken := by
  unfold Stream.receive
  split
  · simp [Stream.taken, Stream.buffered, Stream.inFlight, hphase]
  · rename_i hlast
    have hnil : rows = [] := List.getLast?_eq_none_iff.mp hlast
    split <;> simp [Stream.taken, Stream.buffered, Stream.inFlight, hphase, hnil]

/-- A fetch that stops short of a pending row takes its limit of rows before it. -/
theorem Stream.towards_fetchBatch (hdb : DatabaseInv db) {limit : ℕ} (hphase : st.phase = .idle)
    (hp : r ∈ st.pending db) (hnot : r ∉ (st.pending db).take limit) :
    (st.fetchBatch db limit).towards r = st.towards r + limit := by
  have htaken : (st.fetchBatch db limit).taken = st.taken ++ (st.pending db).take limit := by
    simp [Stream.taken, Stream.fetchBatch, Stream.buffered, Stream.inFlight, hphase]
  have hbefore : ∀ x ∈ (st.pending db).take limit, x.key ≤ r.key := by
    intro x hx
    rw [← not_lt]
    intro hlt
    exact hnot ((hdb.sorted _).mem_take hx hp hlt)
  have hlen : ((st.pending db).take limit).length = limit := by
    rw [List.length_take, Nat.min_eq_left]
    by_contra hshort
    rw [not_le] at hshort
    exact hnot (by rw [List.take_of_length_le hshort.le]; exact hp)
  rw [Stream.towards, htaken, List.filter_append, List.length_append,
    List.filter_eq_self.mpr (fun x hx => decide_eq_true (hbefore x hx)), hlen, Stream.towards]

/-- Only a fetch reads; whatever else a stream does leaves what it has read. -/
theorem Stream.step_reads {a : Action E} {tokens : List Place}
    (hstep : st.step db a = some (st', tokens)) :
    (∃ limit, st.phase = .idle ∧ st' = st.fetchBatch db limit) ∨
      st'.query = st.query ∧ st'.opened = st.opened ∧ st'.taken = st.taken ∧
        st'.fetches = st.fetches := by
  cases a with
  | fetch i limit =>
      simp only [Stream.step] at hstep
      split at hstep
      · rename_i hphase
        cases hstep
        exact Or.inl ⟨limit, hphase, rfl⟩
      · cases hstep
  | lookPast i =>
      simp only [Stream.step] at hstep
      split at hstep
      · rename_i hphase
        cases hstep
        refine Or.inr ⟨rfl, rfl, ?_, rfl⟩
        simp [Stream.taken, Stream.lookPast, Stream.buffered, Stream.inFlight, hphase]
      · cases hstep
  | receive i =>
      simp only [Stream.step] at hstep
      split at hstep
      · rename_i rows hphase
        cases hstep
        refine Or.inr ⟨?_, ?_, Stream.taken_receive hphase, ?_⟩
        all_goals
          unfold Stream.receive
          split
          · rfl
          · split <;> rfl
      · rename_i newest hphase
        cases hstep
        cases newest with
        | none =>
            refine Or.inr ⟨rfl, rfl, ?_, rfl⟩
            simp [Stream.taken, Stream.receiveLooked, Stream.buffered, Stream.inFlight, hphase]
        | some p =>
            refine Or.inr ⟨rfl, rfl, ?_, rfl⟩
            simp [Stream.taken, Stream.receiveLooked, Stream.buffered, Stream.inFlight, hphase]
      · cases hstep
  | next i =>
      simp only [Stream.step] at hstep
      split at hstep
      · cases hstep
      · rename_i r rest hb
        cases hstep
        refine Or.inr ⟨rfl, rfl, ?_, rfl⟩
        rw [Stream.taken, Stream.buffered_next hb]
        rfl
  | progress i =>
      cases hstep
      exact Or.inr ⟨rfl, rfl, rfl, rfl⟩
  | assign => cases hstep
  | insert xid event => cases hstep
  | commit xid => cases hstep
  | rollback xid => cases hstep
  | watermark xmin => cases hstep
  | openStream i position token query => cases hstep

theorem StreamInv.advances_fetchBatch (hdb : DatabaseInv db) (h : StreamInv db st) (limit : ℕ)
    (hphase : st.phase = .idle) : Advances db st (st.fetchBatch db limit) := by
  have htaken : (st.fetchBatch db limit).taken = st.taken ++ (st.pending db).take limit := by
    simp [Stream.taken, Stream.fetchBatch, Stream.buffered, Stream.inFlight, hphase]
  have hbuffered : st.taken = st.buffered := by
    simp [Stream.taken, Stream.inFlight, hphase]
  refine ⟨rfl, rfl, htaken ▸ List.prefix_append _ _, ?_⟩
  intro r hr hv ha hlo
  by_cases hin : r ∈ (st.fetchBatch db limit).taken
  · exact Or.inl hin
  · right
    rw [htaken, List.mem_append, not_or, hbuffered] at hin
    have hahead : cursorPlace st.cursor < r.key := by
      rw [← not_le]
      intro hle
      exact hin.1 ((h.exact r).mpr ⟨hr, (visible_iff.mp hv).1, ha, hlo, hle⟩)
    have hp : r ∈ st.pending db := (h.mem_pending hdb).mpr ⟨hr, hv, ha, hahead⟩
    rw [Stream.towards_fetchBatch hdb hphase hp hin.2]
    simp only [Stream.fetchBatch]
    split_ifs with hzero
    · omega
    · omega

theorem StreamInv.advances {a : Action E} {tokens : List Place} (hdb : DatabaseInv db)
    (h : StreamInv db st) (hstep : st.step db a = some (st', tokens)) : Advances db st st' := by
  rcases Stream.step_reads hstep with ⟨limit, hphase, rfl⟩ | ⟨hq, ho, ht, hf⟩
  · exact h.advances_fetchBatch hdb limit hphase
  · exact Advances.of_taken_eq hq ho ht hf

theorem Inv.run (h : Inv s) (hrun : Reach Tailing.step always s t) :
    Inv t ∧ Settled s.db t.db := by
  apply hrun.invariant ⟨h, Settled.refl _⟩
  intro u a v _ hu _ hstep
  obtain ⟨hv, hsettled⟩ := hu.1.step hstep
  exact ⟨hv, hu.2.trans hsettled⟩

/-- One step of the system, seen by one stream. -/
theorem Inv.step_stream {a : Action E} {i : ℕ} (h : Inv s) (hi : s.streams i = some st)
    (hstep : Tailing.step s a = some s') : ∃ st', s'.streams i = some st' ∧
    Advances s.db st st' := by
  rcases step_cases hstep with ⟨j, x, x', tokens, hj, hx, rfl⟩ |
      ⟨j, position, token, query, hj, -, rfl⟩ | ⟨db, -, rfl⟩
  · by_cases hij : i = j
    · subst hij
      cases hi.symm.trans hj
      exact ⟨x', if_pos rfl, (h.streams i st hi).advances h.db hx⟩
    · exact ⟨st, (if_neg hij).trans hi, Advances.of_taken_eq rfl rfl rfl rfl⟩
  · have hij : i ≠ j := by
      intro heq
      rw [← heq, hi] at hj
      cases hj
    exact ⟨st, (if_neg hij).trans hi, Advances.of_taken_eq rfl rfl rfl rfl⟩
  · exact ⟨st, hi, Advances.of_taken_eq rfl rfl rfl rfl⟩

theorem Stream.accepts_of_query (h : st'.query = st.query) : st'.accepts r = st.accepts r := by
  simp only [Stream.accepts, h]

/-- Over a run, every fetch that counts comes nearer to a row that is due. -/
theorem Inv.run_stream {i : ℕ} (h : Inv s) (hi : s.streams i = some st) (hr : r ∈ s.db.rows)
    (hv : s.db.visible r = true) (ha : st.accepts r = true) (hlo : st.opened < r.key)
    (hrun : Reach Tailing.step always s t) :
    ∃ st', t.streams i = some st' ∧ st'.query = st.query ∧ st'.opened = st.opened ∧
      (r ∈ st'.taken ∨ st'.fetches + st.towards r ≤ st.fetches + st'.towards r) := by
  apply hrun.invariant (I := fun u => ∃ x, u.streams i = some x ∧ x.query = st.query ∧
    x.opened = st.opened ∧ (r ∈ x.taken ∨ x.fetches + st.towards r ≤ st.fetches + x.towards r))
    ⟨st, hi, rfl, rfl, Or.inr le_rfl⟩
  intro u a v hu ⟨x, hx, hq, ho, hfar⟩ _ hstep
  obtain ⟨hinv, hsettled⟩ := h.run hu
  obtain ⟨y, hy, hadv⟩ := hinv.step_stream hx hstep
  refine ⟨y, hy, hadv.query.trans hq, hadv.opened.trans ho, ?_⟩
  rcases hfar with hin | hle
  · exact Or.inl (hadv.taken.subset hin)
  · have hax : x.accepts r = true := (Stream.accepts_of_query hq).trans ha
    rcases hadv.fetches r (hsettled.rows r hr) (hsettled.visible hr hv) hax (ho ▸ hlo) with
      hin | hnear
    · exact Or.inl hin
    · exact Or.inr (by omega)

/-- Up to any row below the watermark, what is due is settled. -/
theorem Settled.due_eq (h : Settled db db') (hq : st'.query = st.query)
    (ho : st'.opened = st.opened) (hlt : r.transactionId < db.xmin) {x : Row E} :
    x ∈ due db' st' r ↔ x ∈ due db st r := by
  rw [mem_due, mem_due, ho]
  have hsame : Between db' st' st.opened r.key x ↔ Between db' st st.opened r.key x := by
    simp only [Between, Stream.accepts_of_query hq]
  exact hsame.trans (h.between hlt)

/-- At every moment the stream has buffered, in order, exactly the committed
matching rows from where it was opened to its cursor. Whatever happens
afterwards, a row that is committed then and was not buffered is ahead of the
cursor, and ahead of any progress the stream had reported while it was not
handed out; and a row below the watermark has been read after as many fetches
as there are rows up to it. -/
theorem tailing_gap_free {i : ℕ} (hs : Reach step always initial s) (hi : s.streams i = some st) :
    Ordered Row.key st.buffered ∧
    (∀ r, r ∈ st.buffered ↔ r ∈ s.db.rows ∧ s.db.committed r = true ∧ st.accepts r = true ∧
      st.opened < r.key ∧ r.key ≤ cursorPlace st.cursor) ∧
    ∀ t, Reach step always s t →
      (∀ r ∈ t.db.rows, t.db.committed r = true → st.accepts r = true → st.opened < r.key →
        r ∉ st.buffered → cursorPlace st.cursor < r.key) ∧
      (∀ p, st.progressToken = some p → ∀ r ∈ t.db.rows, t.db.committed r = true →
        st.accepts r = true → st.opened < r.key → r ∉ st.handed → p < r.key) ∧
      ∃ st', t.streams i = some st' ∧
        ∀ r ∈ s.db.rows, s.db.visible r = true → st.accepts r = true → st.opened < r.key →
          st.fetches + (due s.db st r).length ≤ st'.fetches → r ∈ st'.buffered ++ st'.inFlight := by
  have hinv := Inv.reach hs
  have hst := hinv.streams i st hi
  refine ⟨hst.ordered, hst.exact, ?_⟩
  intro t ht
  obtain ⟨hinv', hsettled⟩ := hinv.run ht
  have hahead : ∀ r ∈ t.db.rows, t.db.committed r = true → st.accepts r = true →
      st.opened < r.key → r ∉ st.buffered → cursorPlace st.cursor < r.key := by
    intro r hr hc ha hlo hnot
    rw [← not_le]
    intro hle
    exact hnot
      ((hst.exact r).mpr ((hsettled.between (hst.below hinv.db)).mp ⟨hr, hc, ha, hlo, hle⟩))
  refine ⟨hahead, ?_, ?_⟩
  · intro p hp r hr hc ha hlo hnot
    unfold Stream.progressToken at hp
    split_ifs at hp with hempty
    rw [Bool.and_eq_true, List.isEmpty_iff] at hempty
    rw [(hst.looked p hp).1]
    apply hahead r hr hc ha hlo
    rw [Stream.buffered, hempty.2, List.append_nil]
    exact hnot
  · obtain ⟨st', hst'⟩ : ∃ st', t.streams i = some st' := by
      apply ht.invariant (I := fun u => ∃ x, u.streams i = some x) ⟨st, hi⟩
      intro u a v hu ⟨x, hx⟩ _ hstep
      obtain ⟨y, hy, -⟩ := (hinv.run hu).1.step_stream hx hstep
      exact ⟨y, hy⟩
    refine ⟨st', hst', ?_⟩
    intro r hr hv ha hlo hmany
    obtain ⟨x, hx, hq, ho, hfar⟩ := hinv.run_stream hi hr hv ha hlo ht
    cases hst'.symm.trans hx
    by_contra hnot
    have hlt := (visible_iff.mp hv).2
    have hdue : r ∈ due t.db st' r := (hsettled.due_eq hq ho hlt).mpr
      (mem_due.mpr ⟨hr, (visible_iff.mp hv).1, ha, hlo, le_rfl⟩)
    have hshort := (hinv'.streams i st' hst').towards_lt hdue hnot
    have hsub : (due t.db st' r).length ≤ (due s.db st r).length := by
      have hnodup : (due t.db st' r).Nodup := hinv'.db.ordered.nodup.filter _
      exact (List.subperm_of_subset hnodup fun x hx => (hsettled.due_eq hq ho hlt).mp hx).length_le
    rcases hfar with hin | hnear
    · exact hnot hin
    · omega

/-- Two transactions commit in the other order than they were given their ids,
and their rows were inserted in the other order too. -/
def outOfOrder : List (Action ℕ) :=
  [.assign, .assign, .insert 4 10, .insert 3 20, .commit 4,
    .openStream 0 0 none (some fun _ => true),
    .fetch 0 100, .receive 0, .lookPast 0, .receive 0, .commit 3, .watermark 5, .fetch 0 1,
    .receive 0, .fetch 0 100, .receive 0]

theorem tailing_gap_free_outOfOrder :
    ∃ (s : State ℕ) (st : Stream ℕ), Reach step always initial s ∧ s.streams 0 = some st ∧
      (s.streams 0).map Stream.buffered = some [⟨3, 2, 20⟩, ⟨4, 1, 10⟩] ∧
        Ordered Row.key st.buffered ∧
      ∀ t, Reach step always s t → ∀ r ∈ t.db.rows, t.db.committed r = true →
        st.accepts r = true → st.opened < r.key → r ∉ st.buffered →
          cursorPlace st.cursor < r.key := by
  have hs := reach_exec_get (show (exec step (initial : State ℕ) outOfOrder).isSome = true by
    decide +kernel)
  have hopen : (((exec step (initial : State ℕ) outOfOrder).get (by decide +kernel)).streams
      0).isSome = true := by decide +kernel
  have hi := (Option.some_get hopen).symm
  obtain ⟨hordered, -, hlater⟩ := tailing_gap_free hs hi
  exact ⟨_, _, hs, hi, by decide +kernel, hordered, fun t ht => (hlater t ht).1⟩

end Kronos.Postgres.Tailing
