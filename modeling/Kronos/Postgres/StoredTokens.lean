import Kronos.Postgres.TailingGapFree
import Kronos.Processing.SplitMerge

/-!
# What a stored token says

The processor asks a token whether an event has been handled, and compares bare
positions to answer. The table is read in `(transaction_id, sequence_position)`
order, and `open` resumes a gap-aware token by that pair; a merged token is no
gap-aware one, so `open` takes its position alone.

The two agree on a table and a token exactly when no event of the segment is
inverted against the cursor of the half it belongs to: earlier by the pair and
later by position, or the other way round. An inverted event is taken for one
that was handled, and is lost, or for one that was not.
-/
namespace Kronos.Postgres.Tailing
open Kronos.Lib.Transition Kronos.Lib.Window Kronos.Processing Kronos.Processing.SharedStream
open TrackingToken

variable {E : Type} {db db' : Database E} {st st' : Stream E} {r x : Row E}

/-- The token the row is handed out with. -/
def Row.token (r : Row E) : TrackingToken ℕ := gapAware r.sequencePosition r.transactionId

/-- The tokens a processor can store while it reads the table. -/
inductive Storable (db : Database E) : TrackingToken ℕ → Prop
  | reading {r : Row E} : r ∈ db.rows → db.visible r = true → Storable db r.token
  | replaying {r : Row E} (tokenAtReset : TrackingToken ℕ) :
      r ∈ db.rows → db.visible r = true → Storable db (.replay tokenAtReset r.token)
  | merged {r q : Row E} (mask a b : ℕ) : r ∈ db.rows → db.visible r = true →
      q ∈ db.rows → db.visible q = true → Storable db (mergedToken mask a r.token b q.token)

/-- The token of the half a hash belongs to; the token itself unless it is merged. -/
def halfFor (token : TrackingToken ℕ) (hash : ℕ) : TrackingToken ℕ :=
  match token with
  | merged mask a ta _ tb => if jsAnd hash mask = a then ta else tb
  | t => t

/-- The hash is one of the token's segment. -/
def belongs (token : TrackingToken ℕ) (hash : ℕ) : Bool :=
  match token with
  | merged mask a _ b _ => decide (jsAnd hash mask = a) || decide (jsAnd hash mask = b)
  | _ => true

/-- Where the half a hash belongs to stands in the order of the stream. -/
def placeFor (token : TrackingToken ℕ) (hash : ℕ) : Place :=
  placeOf (some (halfFor token hash).unwrapToken)

/-- Earlier by the pair and later by position, or the other way round. -/
def Row.inverted (r : Row E) (p : Place) : Prop :=
  (r.transactionId < (ofLex p).1 ∧ (ofLex p).2 < r.sequencePosition) ∨
    ((ofLex p).1 < r.transactionId ∧ r.sequencePosition < (ofLex p).2)

instance (r : Row E) (p : Place) : Decidable (r.inverted p) :=
  inferInstanceAs (Decidable (_ ∨ _))

/-! ## A stream and the table it reads -/

structure Reading (E : Type) where
  db : Database E
  st : Stream E

/-- A statement of a transaction, or a step of the stream. -/
def Reading.step (s : Reading E) (a : Action E) : Option (Reading E) :=
  match a.stream? with
  | some _ => (s.st.step s.db a).map fun next => { s with st := next.1 }
  | none => (s.db.step a).map fun db => { s with db := db }

/-- `open` at a token, as `openStream` calls it. -/
def openAt (token : TrackingToken ℕ) (query : Option (E → Bool)) : Stream E :=
  openStream token.position (some token) query

/-- The rows at or before `r` in the order of the stream. -/
def rowsUpTo (db : Database E) (r : Row E) : List (Row E) :=
  db.rows.filter fun x => decide (x.key ≤ r.key)

/-- From any moment on at which the row is below the watermark, a stream opened at
the token has read it after as many fetches as there are rows up to it. -/
def Delivers (db : Database E) (token : TrackingToken ℕ) (query : Option (E → Bool)) (r : Row E) :
    Prop :=
  ∀ s t, Reach Reading.step always ⟨db, openAt token query⟩ s → s.db.visible r = true →
    Reach Reading.step always s t → s.st.fetches + (rowsUpTo s.db r).length ≤ t.st.fetches →
    r ∈ t.st.taken

/-- What has been read is behind the cursor, and every row of a set that was ahead
of it at the opening is ahead of it now or has been read. -/
structure ReadingInv (need : Row E → Prop) (db : Database E) (st : Stream E) : Prop where
  cursor : (∃ position, st.cursor = (none, position) ∧ st.buffered = [] ∧
      ∀ x, need x → position < x.sequencePosition) ∨
    ∃ xid position, st.cursor = (some xid, position) ∧ Known db (toLex (xid, position))
  row : ∀ x ∈ st.buffered, x ∈ db.rows ∧ db.visible x = true ∧ st.after x = false
  ordered : Ordered Row.key st.buffered
  caught : ∀ x ∈ db.rows, db.committed x = true → st.accepts x = true → need x →
    st.after x = false → x ∈ st.buffered
  fetchedRow : ∀ rows, st.phase = .fetched rows → Ordered Row.key rows ∧ ∀ x ∈ rows,
    x ∈ db.rows ∧ db.visible x = true ∧ st.after x = true
  fetched : ∀ rows, st.phase = .fetched rows → ∀ last ∈ rows, ∀ x ∈ db.rows,
    db.committed x = true → st.accepts x = true → st.after x = true → x.key ≤ last.key → x ∈ rows
  newest : ∀ p, st.phase = .looked (some p) → Known db p ∧ (∀ x ∈ st.buffered, x.key ≤ p) ∧
    ∀ x ∈ db.rows, db.committed x = true → st.accepts x = true → st.after x = true → p < x.key

section Reading
variable {need : Row E → Prop}

theorem mem_pending : r ∈ st.pending db ↔
    r ∈ db.rows ∧ db.visible r = true ∧ st.after r = true ∧ st.accepts r = true := by
  simp only [Stream.pending, List.mem_insertionSort, List.mem_filter, Bool.and_eq_true, and_assoc]

theorem after_some {xid position : ℕ} (h : st.cursor = (some xid, position)) :
    st.after r = decide (toLex (xid, position) < r.key) := by
  simp only [Stream.after, h]

/-- What has been read comes before everything ahead of the cursor. -/
theorem ReadingInv.buffered_lt (h : ReadingInv need db st) (hx : x ∈ st.buffered)
    (hr : st.after r = true) : x.key < r.key := by
  rcases h.cursor with ⟨position, -, hnil, -⟩ | ⟨xid, position, hc, -⟩
  · rw [hnil] at hx
    cases hx
  · have hle := (h.row x hx).2.2
    rw [after_some hc, decide_eq_false_iff_not, not_lt] at hle
    rw [after_some hc, decide_eq_true_eq] at hr
    exact hle.trans_lt hr

/-- A row up to a place below the watermark was there before. -/
theorem Settled.earlier (hs : Settled db db') {p : Place} (hp : (ofLex p).1 < db.xmin)
    (hx : x ∈ db'.rows) (hc : db'.committed x = true) (hle : x.key ≤ p) :
    x ∈ db.rows ∧ db.committed x = true := by
  obtain ⟨hx₀, hc₀⟩ := hs.below x hx ((xid_le_of_key_le hle).trans_lt hp)
  exact ⟨hx₀, hc₀ ▸ hc⟩

theorem ReadingInv.settle (hs : Settled db db') (h : ReadingInv need db st) :
    ReadingInv need db' st where
  cursor := by
    rcases h.cursor with hbare | ⟨xid, position, hc, hk⟩
    · exact Or.inl hbare
    · exact Or.inr ⟨xid, position, hc, hk.settle hs⟩
  row x hx := by
    obtain ⟨hmem, hv, hafter⟩ := h.row x hx
    exact ⟨hs.rows x hmem, hs.visible hmem hv, hafter⟩
  ordered := h.ordered
  caught x hx hcommitted ha hneed hafter := by
    rcases h.cursor with ⟨position, hc, -, hahead⟩ | ⟨xid, position, hc, hk⟩
    · simp only [Stream.after, hc, decide_eq_false_iff_not] at hafter
      exact absurd (hahead x hneed) hafter
    · have hle := hafter
      rw [after_some hc, decide_eq_false_iff_not, not_lt] at hle
      obtain ⟨hx₀, hc₀⟩ := hs.earlier hk.below hx hcommitted hle
      exact h.caught x hx₀ hc₀ ha hneed hafter
  fetchedRow rows hrows := by
    obtain ⟨hord, hrow⟩ := h.fetchedRow rows hrows
    refine ⟨hord, ?_⟩
    intro x hx
    obtain ⟨hmem, hv, hafter⟩ := hrow x hx
    exact ⟨hs.rows x hmem, hs.visible hmem hv, hafter⟩
  fetched rows hrows last hlast x hx hcommitted ha hafter hle := by
    obtain ⟨-, hv, -⟩ := (h.fetchedRow rows hrows).2 last hlast
    have hlt : (ofLex last.key).1 < db.xmin := (visible_iff.mp hv).2
    obtain ⟨hx₀, hc₀⟩ := hs.earlier hlt hx hcommitted hle
    exact h.fetched rows hrows last hlast x hx₀ hc₀ ha hafter hle
  newest p hp := by
    obtain ⟨hk, hbuf, hnone⟩ := h.newest p hp
    refine ⟨hk.settle hs, hbuf, ?_⟩
    intro x hx hcommitted ha hafter
    rw [← not_le]
    intro hle
    obtain ⟨hx₀, hc₀⟩ := hs.earlier hk.below hx hcommitted hle
    exact absurd hle (not_le.mpr (hnone x hx₀ hc₀ ha hafter))

theorem ReadingInv.fetchBatch (hdb : DatabaseInv db) (h : ReadingInv need db st) (limit : ℕ) :
    ReadingInv need db (st.fetchBatch db limit) where
  cursor := h.cursor
  row := h.row
  ordered := h.ordered
  caught := h.caught
  fetchedRow rows hrows := by
    cases hrows
    refine ⟨(hdb.sorted _).sublist (List.take_sublist _ _), ?_⟩
    intro x hx
    obtain ⟨hmem, hv, hafter, -⟩ := mem_pending.mp (List.mem_of_mem_take hx)
    exact ⟨hmem, hv, hafter⟩
  fetched rows hrows last hlast x hx hcommitted ha hafter hle := by
    cases hrows
    have hmem := List.mem_of_mem_take hlast
    have hlastv := (visible_iff.mp (mem_pending.mp hmem).2.1).2
    have hv : db.visible x = true :=
      visible_iff.mpr ⟨hcommitted, (xid_le_of_key_le hle).trans_lt hlastv⟩
    have hp : x ∈ st.pending db := mem_pending.mpr ⟨hx, hv, hafter, ha⟩
    rcases hle.lt_or_eq with hlt | heq
    · exact (hdb.sorted _).mem_take hlast hp hlt
    · rw [(hdb.sorted _).eq_of_key hp hmem heq]
      exact hlast
  newest p hp := by cases hp

theorem ReadingInv.lookPast (hdb : DatabaseInv db) (h : ReadingInv need db st) :
    ReadingInv need db (st.lookPast db) where
  cursor := h.cursor
  row := h.row
  ordered := h.ordered
  caught := h.caught
  fetchedRow rows hrows := by cases hrows
  fetched rows hrows := by cases hrows
  newest p hp := by
    obtain ⟨hempty, newest, hmem, hvisible, rfl, hlast⟩ := hdb.lookPast_newest hp
    refine ⟨⟨newest, hmem, hvisible, rfl⟩, ?_, ?_⟩
    · intro x hx
      obtain ⟨hxmem, hv, -⟩ := h.row x hx
      exact hlast x hxmem hv
    · intro x hx hcommitted ha hafter
      rw [← not_le]
      intro hle
      have hv : db.visible x = true := visible_iff.mpr
        ⟨hcommitted, (xid_le_of_key_le hle).trans_lt (visible_iff.mp hvisible).2⟩
      have hp : x ∈ st.pending db := mem_pending.mpr ⟨hx, hv, hafter, ha⟩
      rw [hempty] at hp
      cases hp

/-- The cursor moves to a place at or after all that is buffered. -/
theorem ReadingInv.move {xid position : ℕ} {buffer : List (Row E)} {looked : Option Place}
    (h : ReadingInv need db st) (hk : Known db (toLex (xid, position)))
    (hrow : ∀ x ∈ st.handed ++ buffer, x ∈ db.rows ∧ db.visible x = true ∧
      x.key ≤ toLex (xid, position))
    (hord : Ordered Row.key (st.handed ++ buffer))
    (hold : ∀ x ∈ st.buffered, x ∈ st.handed ++ buffer)
    (hnew : ∀ x ∈ db.rows, db.committed x = true → st.accepts x = true → st.after x = true →
      x.key ≤ toLex (xid, position) → x ∈ st.handed ++ buffer) :
    ReadingInv need db { st with
      buffer := buffer, cursor := (some xid, position), looked := looked, phase := .idle } where
  cursor := Or.inr ⟨xid, position, rfl, hk⟩
  row x hx := by
    obtain ⟨hmem, hv, hle⟩ := hrow x hx
    refine ⟨hmem, hv, ?_⟩
    rw [after_some rfl, decide_eq_false_iff_not, not_lt]
    exact hle
  ordered := hord
  caught x hx hcommitted ha hneed hafter := by
    rw [after_some rfl, decide_eq_false_iff_not, not_lt] at hafter
    cases hwas : st.after x with
    | false => exact hold x (h.caught x hx hcommitted ha hneed hwas)
    | true => exact hnew x hx hcommitted ha hwas hafter
  fetchedRow rows hrows := by cases hrows
  fetched rows hrows := by cases hrows
  newest p hp := by cases hp

theorem ReadingInv.rest {looked : Option Place} {phase : Phase E} (h : ReadingInv need db st)
    (hphase : phase = .idle ∨ phase = .dry) :
    ReadingInv need db { st with looked := looked, phase := phase } where
  cursor := h.cursor
  row := h.row
  ordered := h.ordered
  caught := h.caught
  fetchedRow rows hrows := by
    rcases hphase with rfl | rfl <;> cases hrows
  fetched rows hrows := by
    rcases hphase with rfl | rfl <;> cases hrows
  newest p hp := by
    rcases hphase with rfl | rfl <;> cases hp

theorem ReadingInv.receive {rows : List (Row E)} (h : ReadingInv need db st)
    (hphase : st.phase = .fetched rows) : ReadingInv need db (st.receive rows) := by
  obtain ⟨hord, hrow⟩ := h.fetchedRow rows hphase
  unfold Stream.receive
  split
  · rename_i last hlast
    have hmem := List.mem_of_getLast? hlast
    obtain ⟨hlastrow, hlastv, hlastafter⟩ := hrow last hmem
    have hbuf : st.handed ++ (st.buffer ++ rows) = st.buffered ++ rows :=
      (List.append_assoc _ _ _).symm
    apply h.move ⟨last, hlastrow, hlastv, rfl⟩
    · rw [hbuf]
      intro x hx
      rcases List.mem_append.mp hx with hx | hx
      · obtain ⟨hxmem, hxv, -⟩ := h.row x hx
        exact ⟨hxmem, hxv, (h.buffered_lt hx hlastafter).le⟩
      · obtain ⟨hxmem, hxv, -⟩ := hrow x hx
        exact ⟨hxmem, hxv, hord.le_getLast hx hlast⟩
    · rw [hbuf]
      apply h.ordered.append hord
      intro a ha b hb
      exact h.buffered_lt ha (hrow b hb).2.2
    · rw [hbuf]
      intro x hx
      exact List.mem_append_left _ hx
    · rw [hbuf]
      intro x hx hcommitted ha hafter hle
      exact List.mem_append_right _ (h.fetched rows hphase last hmem x hx hcommitted ha hafter hle)
  · split
    · exact h.rest (Or.inr rfl)
    · exact h.rest (Or.inl rfl)

theorem ReadingInv.receiveLooked {newest : Option Place} (h : ReadingInv need db st)
    (hphase : st.phase = .looked newest) : ReadingInv need db (st.receiveLooked newest) := by
  unfold Stream.receiveLooked
  cases newest with
  | none => exact h.rest (Or.inl rfl)
  | some p =>
      obtain ⟨hk, hbuf, hnone⟩ := h.newest p hphase
      apply h.move hk
      · intro x hx
        obtain ⟨hxmem, hxv, -⟩ := h.row x hx
        exact ⟨hxmem, hxv, hbuf x hx⟩
      · exact h.ordered
      · exact fun x hx => hx
      · intro x hx hcommitted ha hafter hle
        exact absurd hle (not_le.mpr (hnone x hx hcommitted ha hafter))

theorem ReadingInv.next {rest : List (Row E)} (h : ReadingInv need db st)
    (hb : st.buffer = r::rest) :
    ReadingInv need db { st with buffer := rest, handed := st.handed ++ [r] } where
  cursor := Stream.buffered_next hb ▸ h.cursor
  row := Stream.buffered_next hb ▸ h.row
  ordered := Stream.buffered_next hb ▸ h.ordered
  caught := Stream.buffered_next hb ▸ h.caught
  fetchedRow := h.fetchedRow
  fetched := h.fetched
  newest := Stream.buffered_next hb ▸ h.newest

theorem ReadingInv.step_stream {a : Action E} {tokens : List Place} (hdb : DatabaseInv db)
    (h : ReadingInv need db st) (hstep : st.step db a = some (st', tokens)) :
    ReadingInv need db st' := by
  cases a with
  | fetch i limit =>
      simp only [Stream.step] at hstep
      split at hstep
      · cases hstep
        exact h.fetchBatch hdb limit
      · cases hstep
  | lookPast i =>
      simp only [Stream.step] at hstep
      split at hstep
      · cases hstep
        exact h.lookPast hdb
      · cases hstep
  | receive i =>
      simp only [Stream.step] at hstep
      split at hstep
      · rename_i rows hphase
        cases hstep
        exact h.receive hphase
      · rename_i newest hphase
        cases hstep
        exact h.receiveLooked hphase
      · cases hstep
  | next i =>
      simp only [Stream.step] at hstep
      split at hstep
      · cases hstep
      · rename_i r rest hb
        cases hstep
        exact h.next hb
  | progress i =>
      cases hstep
      exact h
  | assign => cases hstep
  | insert xid event => cases hstep
  | commit xid => cases hstep
  | rollback xid => cases hstep
  | watermark xmin => cases hstep
  | openStream i position token query => cases hstep

variable {s s' t : Reading E}

/-- A step of the stream over the same table, or of the table under the same stream. -/
theorem Reading.step_cases {a : Action E} (h : s.step a = some s') :
    (∃ st' tokens, s.st.step s.db a = some (st', tokens) ∧ s' = { s with st := st' }) ∨
      ∃ db, s.db.step a = some db ∧ s' = { s with db := db } := by
  unfold Reading.step at h
  split at h
  · obtain ⟨next, hnext, rfl⟩ := Option.map_eq_some_iff.mp h
    exact Or.inl ⟨next.1, next.2, hnext, rfl⟩
  · obtain ⟨db, hdb, rfl⟩ := Option.map_eq_some_iff.mp h
    exact Or.inr ⟨db, hdb, rfl⟩

theorem Reading.run (hdb : DatabaseInv s.db) (h : ReadingInv need s.db s.st)
    (hrun : Reach Reading.step always s t) :
    DatabaseInv t.db ∧ Settled s.db t.db ∧ ReadingInv need t.db t.st := by
  apply hrun.invariant ⟨hdb, Settled.refl _, h⟩
  rintro u a v - ⟨hudb, hsettled, hu⟩ - hstep
  rcases Reading.step_cases hstep with ⟨st', tokens, hst, rfl⟩ | ⟨db, hdbstep, rfl⟩
  · exact ⟨hudb, hsettled, hu.step_stream hudb hst⟩
  · obtain ⟨hvdb, hnext⟩ := hudb.step hdbstep
    exact ⟨hvdb, hsettled.trans hnext, hu.settle hnext⟩

theorem ReadingInv.taken_row (h : ReadingInv need db st) (hx : x ∈ st.taken) : x ∈ db.rows := by
  rcases List.mem_append.mp hx with hx | hx
  · exact (h.row x hx).1
  · unfold Stream.inFlight at hx
    split at hx
    · rename_i rows hphase
      exact ((h.fetchedRow rows hphase).2 x hx).1
    · cases hx

theorem ReadingInv.taken_ordered (h : ReadingInv need db st) : Ordered Row.key st.taken := by
  unfold Stream.taken Stream.inFlight
  split
  · rename_i rows hphase
    obtain ⟨hord, hrow⟩ := h.fetchedRow rows hphase
    apply h.ordered.append hord
    intro a ha b hb
    exact h.buffered_lt ha (hrow b hb).2.2
  · rw [List.append_nil]
    exact h.ordered

/-- Short of `r`, fewer rows have been taken than there are up to it. -/
theorem ReadingInv.towards_lt (h : ReadingInv need db st) (hr : r ∈ db.rows)
    (hnot : r ∉ st.taken) : st.towards r < (rowsUpTo db r).length := by
  have hnodup : (r::st.taken.filter fun x => decide (x.key ≤ r.key)).Nodup := by
    apply List.nodup_cons.mpr
    exact ⟨fun hin => hnot (List.mem_filter.mp hin).1, h.taken_ordered.nodup.filter _⟩
  have hsub : r::(st.taken.filter fun x => decide (x.key ≤ r.key)) ⊆ rowsUpTo db r := by
    intro x hx
    rcases List.mem_cons.mp hx with rfl | hx
    · exact List.mem_filter.mpr ⟨hr, decide_eq_true le_rfl⟩
    · obtain ⟨htaken, hle⟩ := List.mem_filter.mp hx
      exact List.mem_filter.mpr ⟨h.taken_row htaken, hle⟩
  exact (List.subperm_of_subset hnodup hsub).length_le

/-- A step of the stream keeps what it has read, and a fetch that counts comes
nearer to a row it needs. -/
theorem ReadingInv.nearer {a : Action E} {tokens : List Place} (hdb : DatabaseInv db)
    (h : ReadingInv need db st) (hstep : st.step db a = some (st', tokens)) (hr : r ∈ db.rows)
    (hv : db.visible r = true) (ha : st.accepts r = true) (hneed : need r) :
    st'.query = st.query ∧ st.taken <+: st'.taken ∧
      (r ∈ st'.taken ∨ st'.fetches + st.towards r ≤ st.fetches + st'.towards r) := by
  rcases Stream.step_reads hstep with ⟨limit, hphase, rfl⟩ | ⟨hq, -, ht, hf⟩
  · have htaken : (st.fetchBatch db limit).taken = st.taken ++ (st.pending db).take limit := by
      simp [Stream.taken, Stream.fetchBatch, Stream.buffered, Stream.inFlight, hphase]
    have hbuffered : st.taken = st.buffered := by
      simp [Stream.taken, Stream.inFlight, hphase]
    refine ⟨rfl, htaken ▸ List.prefix_append _ _, ?_⟩
    by_cases hin : r ∈ (st.fetchBatch db limit).taken
    · exact Or.inl hin
    · right
      rw [htaken, List.mem_append, not_or, hbuffered] at hin
      have hafter : st.after r = true := by
        by_contra hbehind
        rw [Bool.not_eq_true] at hbehind
        exact hin.1 (h.caught r hr (visible_iff.mp hv).1 ha hneed hbehind)
      have hp : r ∈ st.pending db := mem_pending.mpr ⟨hr, hv, hafter, ha⟩
      rw [Stream.towards_fetchBatch hdb hphase hp hin.2]
      simp only [Stream.fetchBatch]
      split_ifs with hzero
      · omega
      · omega
  · refine ⟨hq, ht ▸ List.prefix_refl _, Or.inr ?_⟩
    simp only [Stream.towards, ht, hf, le_refl]

/-- Over a run, every fetch that counts comes nearer to a row that is needed. -/
theorem Reading.run_nearer (hdb : DatabaseInv s.db) (h : ReadingInv need s.db s.st)
    (hr : r ∈ s.db.rows) (hv : s.db.visible r = true) (ha : s.st.accepts r = true)
    (hneed : need r) (hrun : Reach Reading.step always s t) :
    t.st.query = s.st.query ∧
      (r ∈ t.st.taken ∨ t.st.fetches + s.st.towards r ≤ s.st.fetches + t.st.towards r) := by
  apply hrun.invariant (I := fun u => u.st.query = s.st.query ∧
    (r ∈ u.st.taken ∨ u.st.fetches + s.st.towards r ≤ s.st.fetches + u.st.towards r))
    ⟨rfl, Or.inr le_rfl⟩
  rintro u a v hu ⟨hq, hfar⟩ - hstep
  obtain ⟨hudb, hsettled, huinv⟩ := Reading.run hdb h hu
  rcases Reading.step_cases hstep with ⟨st', tokens, hst, rfl⟩ | ⟨db, -, rfl⟩
  · have hau : u.st.accepts r = true := (Stream.accepts_of_query hq).trans ha
    obtain ⟨hq', htaken, hnear⟩ := huinv.nearer hudb hst (hsettled.rows r hr)
      (hsettled.visible hr hv) hau hneed
    refine ⟨hq'.trans hq, ?_⟩
    rcases hfar with hin | hle
    · exact Or.inl (htaken.subset hin)
    · rcases hnear with hin | hle'
      · exact Or.inl hin
      · exact Or.inr (by simp only; omega)
  · exact ⟨hq, hfar⟩

/-- No row is added before one that is below the watermark. -/
theorem Settled.rowsUpTo_le (hdb' : DatabaseInv db') (hs : Settled db db')
    (hr : r.transactionId < db.xmin) : (rowsUpTo db' r).length ≤ (rowsUpTo db r).length := by
  have hnodup : (rowsUpTo db' r).Nodup := hdb'.ordered.nodup.filter _
  refine (List.subperm_of_subset hnodup ?_).length_le
  intro x hx
  obtain ⟨hmem, hle⟩ := List.mem_filter.mp hx
  have hlt : x.transactionId < db.xmin := (xid_le_of_key_le (of_decide_eq_true hle)).trans_lt hr
  exact List.mem_filter.mpr ⟨(hs.below x hmem hlt).1, hle⟩

/-- A row ahead of where the stream was opened is delivered. -/
theorem delivers_of_after {token : TrackingToken ℕ} {query : Option (E → Bool)}
    (hdb : DatabaseInv db) (hopen : ReadingInv need db (openAt token query)) (hneed : need r)
    (hr : r ∈ db.rows) (ha : (openAt token query).accepts r = true) :
    Delivers db token query r := by
  intro s t hs hv ht hmany
  obtain ⟨hsdb, hsettled, hsinv⟩ := Reading.run hdb hopen hs
  have hrs := hsettled.rows r hr
  have hquery : s.st.query = (openAt token query).query := by
    apply hs.invariant (I := fun u => u.st.query = (openAt token query).query) rfl
    rintro u a v - hu - hstep
    rcases Reading.step_cases hstep with ⟨st', tokens, hst, rfl⟩ | ⟨db, -, rfl⟩
    · rcases Stream.step_reads hst with ⟨limit, -, rfl⟩ | ⟨hq, -⟩
      · exact hu
      · exact hq.trans hu
    · exact hu
  have has : s.st.accepts r = true := (Stream.accepts_of_query hquery).trans ha
  obtain ⟨htdb, hlater, htinv⟩ := Reading.run hsdb hsinv ht
  obtain ⟨-, hfar⟩ := Reading.run_nearer hsdb hsinv hrs hv has hneed ht
  by_contra hnot
  have hshort := htinv.towards_lt (hlater.rows r hrs) hnot
  have hbound := hlater.rowsUpTo_le htdb (visible_iff.mp hv).2
  rcases hfar with hin | hle
  · exact hnot hin
  · omega

end Reading

/-! ## The processor and the log -/

/-- What a token says of an event to the processor and to the log is the same:
handled is at or before the token of its half, and the rest is delivered. -/
structure MeansTheSame (db : Database E) (token : TrackingToken ℕ) (query : Option (E → Bool))
    (hashOf : E → ℕ) : Prop where
  handled : ∀ r ∈ db.rows, db.committed r = true → belongs token (hashOf r.event) = true →
    (SplitMerge.accountsFor token (hashOf r.event) r.token = true ↔
      r.key ≤ placeFor token (hashOf r.event))
  delivered : ∀ r ∈ db.rows, db.committed r = true → belongs token (hashOf r.event) = true →
    (openAt token query).accepts r = true →
    SplitMerge.accountsFor token (hashOf r.event) r.token = false → Delivers db token query r

section Meaning
variable {token : TrackingToken ℕ} {query : Option (E → Bool)} {hash : ℕ}

theorem placeOf_token (c : Row E) : placeOf (some c.token.unwrapToken) = c.key := rfl

/-- By position and by the pair a row is on the same side of another, unless it is
inverted against it. -/
theorem not_inverted_iff {c : Row E} (hdb : DatabaseInv db) (hr : r ∈ db.rows) (hc : c ∈ db.rows) :
    (r.sequencePosition ≤ c.sequencePosition ↔ r.key ≤ c.key) ↔ ¬ r.inverted c.key := by
  have hkey : r.key ≤ c.key ↔ r.transactionId < c.transactionId ∨
      r.transactionId = c.transactionId ∧ r.sequencePosition ≤ c.sequencePosition :=
    Prod.Lex.le_iff
  have hinv : r.inverted c.key ↔
      (r.transactionId < c.transactionId ∧ c.sequencePosition < r.sequencePosition) ∨
        (c.transactionId < r.transactionId ∧ r.sequencePosition < c.sequencePosition) := Iff.rfl
  have hsame : r.sequencePosition = c.sequencePosition → r.transactionId = c.transactionId :=
    fun heq => congrArg Row.transactionId (hdb.ordered.eq_of_key hr hc heq)
  rw [hkey, hinv]
  omega

/-- The half a hash belongs to stands at a row, the processor compares with its
position, and `open` resumes there or at a position not beyond it. -/
theorem Storable.half (h : Storable db token) (hb : belongs token hash = true)
    (query : Option (E → Bool)) :
    ∃ c ∈ db.rows, db.visible c = true ∧ placeFor token hash = c.key ∧
      (∀ past, SplitMerge.accountsFor token hash past = true ↔ past.position ≤ c.sequencePosition) ∧
      ((openAt token query).cursor = (some c.transactionId, c.sequencePosition) ∨
        (openAt token query).cursor = (none, token.position) ∧
          token.position ≤ c.sequencePosition) := by
  cases h with
  | reading hr hv =>
      rename_i r
      exact ⟨r, hr, hv, rfl, fun past => covers_iff, Or.inl rfl⟩
  | replaying tokenAtReset hr hv =>
      rename_i r
      exact ⟨r, hr, hv, rfl, fun past => covers_iff, Or.inl rfl⟩
  | merged mask a b hr hv hq hqv =>
      rename_i r q
      unfold mergedToken at hb ⊢
      split_ifs at hb ⊢ with hsame
      · exact ⟨r, hr, hv, rfl, fun past => covers_iff, Or.inl rfl⟩
      · have hmin : (TrackingToken.merged mask a r.token b q.token).position =
            min r.sequencePosition q.sequencePosition := position_merged _ _ _ _ _
        by_cases ha : jsAnd hash mask = a
        · refine ⟨r, hr, hv, ?_, ?_, Or.inr ⟨rfl, hmin ▸ Nat.min_le_left _ _⟩⟩
          · simp only [placeFor, halfFor, if_pos ha, placeOf_token]
          · intro past
            simp only [SplitMerge.accountsFor, isMergedToken, if_true,
              handledByMergedHalf, if_pos ha]
            exact covers_iff
        · simp only [belongs, ha, decide_false, Bool.false_or, decide_eq_true_eq] at hb
          refine ⟨q, hq, hqv, ?_, ?_, Or.inr ⟨rfl, hmin ▸ Nat.min_le_right _ _⟩⟩
          · simp only [placeFor, halfFor, if_neg ha, placeOf_token]
          · intro past
            simp only [SplitMerge.accountsFor, isMergedToken, if_true,
              handledByMergedHalf, if_neg ha,
              if_pos hb]
            exact covers_iff

/-- Nothing has been read yet; what is needed is what the cursor leaves ahead. -/
theorem readingInv_openAt (h : Storable db token) (query : Option (E → Bool)) :
    ReadingInv (fun x => (openAt token query).after x = true) db (openAt token query) where
  cursor := by
    have hcursor : (∃ c ∈ db.rows, db.visible c = true ∧
        (openAt token query).cursor = (some c.transactionId, c.sequencePosition)) ∨
        (openAt token query).cursor = (none, token.position) := by
      cases h with
      | reading hr hv => exact Or.inl ⟨_, hr, hv, rfl⟩
      | replaying tokenAtReset hr hv => exact Or.inl ⟨_, hr, hv, rfl⟩
      | merged mask a b hr hv hq hqv =>
          unfold mergedToken
          split_ifs
          · exact Or.inl ⟨_, hr, hv, rfl⟩
          · exact Or.inr rfl
    rcases hcursor with ⟨c, hc, hv, hcursor⟩ | hcursor
    · exact Or.inr ⟨_, _, hcursor, c, hc, hv, rfl⟩
    · refine Or.inl ⟨_, hcursor, rfl, ?_⟩
      intro x hx
      simp only [Stream.after, hcursor, decide_eq_true_eq] at hx
      exact hx
  row x hx := by cases hx
  ordered := List.Pairwise.nil
  caught x _ _ _ hneed hafter := by
    rw [hneed] at hafter
    cases hafter
  fetchedRow rows hrows := by cases hrows
  fetched rows hrows := by cases hrows
  newest p hp := by cases hp

/-- On any table, and for any token stored while reading it, the processor and the
log agree exactly when no committed event of the segment is inverted against the
cursor of its half. -/
theorem stored_token_agrees_iff {s : State E} (hs : Reach step always initial s)
    (htoken : Storable s.db token) (query : Option (E → Bool)) (hashOf : E → ℕ) :
    MeansTheSame s.db token query hashOf ↔
      ∀ r ∈ s.db.rows, s.db.committed r = true → belongs token (hashOf r.event) = true →
        ¬ r.inverted (placeFor token (hashOf r.event)) := by
  have hdb := (Inv.reach hs).db
  constructor
  · intro h r hr hcommitted hbelongs
    obtain ⟨c, hc, -, hplace, hhandled, -⟩ := htoken.half hbelongs query
    have hagree := h.handled r hr hcommitted hbelongs
    rw [hhandled, hplace] at hagree
    rw [hplace]
    exact (not_inverted_iff hdb hr hc).mp hagree
  · intro h
    refine ⟨?_, ?_⟩
    · intro r hr hcommitted hbelongs
      obtain ⟨c, hc, -, hplace, hhandled, -⟩ := htoken.half hbelongs query
      have hnot := h r hr hcommitted hbelongs
      rw [hplace] at hnot
      rw [hhandled, hplace]
      exact (not_inverted_iff hdb hr hc).mpr hnot
    · intro r hr hcommitted hbelongs haccepts hopen
      obtain ⟨c, hc, -, hplace, hhandled, hcursor⟩ := htoken.half hbelongs query
      have hnot := h r hr hcommitted hbelongs
      rw [hplace] at hnot
      rw [Bool.eq_false_iff, ne_eq, hhandled] at hopen
      have hbeyond : c.sequencePosition < r.sequencePosition := not_le.mp hopen
      refine delivers_of_after hdb (readingInv_openAt htoken query) ?_ hr haccepts
      rcases hcursor with hcursor | ⟨hcursor, hle⟩
      · have hkey : ¬ r.key ≤ c.key := fun hkey =>
          hopen ((not_inverted_iff hdb hr hc).mpr hnot |>.mpr hkey)
        rw [after_some hcursor, decide_eq_true_eq]
        exact not_le.mp hkey
      · simp only [Stream.after, hcursor, decide_eq_true_eq]
        exact hle.trans_lt hbeyond

end Meaning

/-- Two transactions one after the other. -/
def oneByOne : List (Action ℕ) :=
  [.assign, .insert 3 0, .commit 3, .assign, .insert 4 1, .commit 4, .watermark 5]

/-- The halves are at different rows of the table. -/
theorem stored_token_agrees_iff_oneByOne :
    ∃ (s : State ℕ) (token : TrackingToken ℕ), Reach step always initial s ∧
      Storable s.db token ∧ token.isMergedToken = true ∧
      MeansTheSame s.db token none (fun n => n) := by
  have hs := reach_exec_get (show (exec step (initial : State ℕ) oneByOne).isSome = true by
    decide +kernel)
  have htoken : Storable ((exec step (initial : State ℕ) oneByOne).get (by decide +kernel)).db
      (mergedToken 1 0 (Row.token ⟨3, 1, 0⟩) 1 (Row.token ⟨4, 2, 1⟩)) :=
    .merged 1 0 1 (by decide +kernel) (by decide +kernel) (by decide +kernel) (by decide +kernel)
  refine ⟨_, _, hs, htoken, by decide +kernel, ?_⟩
  refine (stored_token_agrees_iff hs htoken none fun n => n).mpr ?_
  decide +kernel

/-- Transaction 4 inserts first, at position 1, and transaction 3 after it. -/
def insertedInversely : List (Action ℕ) :=
  [.assign, .assign, .insert 4 0, .insert 3 1, .insert 3 2, .commit 3, .commit 4, .watermark 5]

/-- The half of the even hashes stands at the row of position 3. The row of position
1 comes after it and was never handled, and its half takes it for handled. -/
theorem inverted_event_taken_for_handled :
    ∃ (s : State ℕ) (token : TrackingToken ℕ) (r : Row ℕ), Reach step always initial s ∧
      Storable s.db token ∧ r ∈ s.db.rows ∧ s.db.committed r = true ∧
      SplitMerge.accountsFor token r.event r.token = true ∧ placeFor token r.event < r.key ∧
      ¬ MeansTheSame s.db token none (fun n => n) := by
  have hs := reach_exec_get (show (exec step (initial : State ℕ) insertedInversely).isSome = true by
    decide +kernel)
  have htoken : Storable
      ((exec step (initial : State ℕ) insertedInversely).get (by decide +kernel)).db
      (mergedToken 1 0 (Row.token ⟨3, 3, 2⟩) 1 (Row.token ⟨3, 2, 1⟩)) :=
    .merged 1 0 1 (by decide +kernel) (by decide +kernel) (by decide +kernel) (by decide +kernel)
  refine ⟨_, _, ⟨4, 1, 0⟩, hs, htoken, by decide +kernel, by decide +kernel, by decide +kernel,
    by decide +kernel, ?_⟩
  intro h
  have hagree := h.handled ⟨4, 1, 0⟩ (by decide +kernel) (by decide +kernel) (by decide +kernel)
  exact absurd (hagree.mp (by decide +kernel)) (by decide +kernel)

end Kronos.Postgres.Tailing
