import Mathlib.Data.Fintype.Basic
import Kronos.Postgres.TokenStore

/-!
# Takeover of a claim

The fence keeps a node that lost its claim from writing: only the owner's token
matters, and it is never behind the row with an event of the segment in
between. What a claim returns was read before the claim took effect, so it is
the row's token only while nobody else's write lands between the two
statements. Under that condition the committed batches of a segment are, one
after another, exactly its events up to the stored token.
-/
namespace Kronos.Postgres.TokenStore
open Kronos.Lib.Transition Kronos.Lib.Window

variable {N G E : Type} {accepts : LogEvent E → Bool} {log : List (LogEvent E)}
  {entry entry' : Entry N E} {n m : N} {token : ℕ} {batch : List (LogEvent E)}

namespace Local

/-- The `SELECT` of a claim has read the row and its `UPDATE` has not taken effect. -/
def isClaiming : Local E → Bool
  | claiming (some _) => true
  | _ => false

/-- Where the node's worker is. -/
def token? : Local E → Option ℕ
  | holding token => some token
  | running token _ => some token
  | written token _ _ => some token
  | _ => none

/-- The batch under way. -/
def batch? : Local E → Option (ℕ × List (LogEvent E))
  | running token batch => some (token, batch)
  | written token batch _ => some (token, batch)
  | _ => none

def isWritten : Local E → Bool
  | written _ _ _ => true
  | _ => false

end Local

/-- What holds of a node's worker while the row's token is `stored`. -/
structure Ahead (accepts : LogEvent E → Bool) (log : List (LogEvent E)) (stored token : ℕ) :
    Prop where
  le : stored ≤ token
  bound : token ≤ log.length
  quiet : window LogEvent.place accepts stored token log = []

/-- Whether a statement changes the token in the row. -/
def Entry.changesToken [DecidableEq N] (entry : Entry N E) : Statement N → Bool
  | .commit _ => true
  | .store n _ =>
      match entry.nodes n, entry.row with
      | .holding token, some row => decide (row.owner = some n ∧ row.token ≠ some token)
      | _, _ => false
  | _ => false

/-- No write changes a row's token while a claim of the row stands between its
two statements. -/
def claimsUndisturbed [DecidableEq N] (s : State N G E) : Action N G E → Prop
  | .append _ => True
  | .run g statement =>
      (s.segments g).changesToken statement = true →
        ∀ m, ((s.segments g).nodes m).isClaiming = false

instance [DecidableEq N] [Fintype N] (s : State N G E) (a : Action N G E) :
    Decidable (claimsUndisturbed s a) := by
  cases a with
  | append event => exact isTrue trivial
  | run g statement => exact inferInstanceAs (Decidable (_ → _))

/-- A batch is the segment's next events after the token. -/
structure Next (accepts : LogEvent E → Bool) (log : List (LogEvent E)) (token : ℕ)
    (batch : List (LogEvent E)) : Prop where
  nonempty : batch ≠ []
  isPrefix : batch <+: beyond LogEvent.place accepts token log

/-- The log's places count from one. -/
structure Counted (log : List (LogEvent E)) : Prop where
  ordered : Ordered LogEvent.place log
  bound : ∀ e ∈ log, e.place ≤ log.length

structure EntryInv (accepts : LogEvent E → Bool) (log : List (LogEvent E))
    (entry : Entry N E) : Prop where
  claims : ∀ c ∈ entry.claims, c.returned = c.stored
  selected : ∀ n token, entry.nodes n = .claiming (some token) →
    ∃ row, entry.row = some row ∧ row.token = token
  owner : ∀ n row token, entry.row = some row → row.owner = some n →
    (entry.nodes n).token? = some token → Ahead accepts log entry.stored token
  next : ∀ n token batch, (entry.nodes n).batch? = some (token, batch) →
    Next accepts log token batch
  written : ∀ n, (entry.nodes n).isWritten = true →
    ∃ row, entry.row = some row ∧ row.owner = some n ∧ row.lock = some n
  bound : entry.stored ≤ log.length
  delivered : entry.delivered = window LogEvent.place accepts 0 entry.stored log
  disjoint : entry.batches.Pairwise fun a b => ∀ e ∈ a.events, e ∉ b.events

theorem Counted.append (h : Counted log) (event : E) :
    Counted (log ++ [⟨log.length + 1, event⟩]) := by
  constructor
  · apply Ordered.append h.ordered (List.pairwise_singleton _ _)
    intro a ha b hb
    rw [List.mem_singleton.mp hb]
    exact Nat.lt_succ_of_le (h.bound a ha)
  · intro e he
    rw [List.length_append, List.length_singleton]
    rcases List.mem_append.mp he with he | he
    · exact (h.bound e he).trans (Nat.le_succ _)
    · rw [List.mem_singleton.mp he]

theorem window_append_new (event : E) {lo hi : ℕ} (hhi : hi ≤ log.length) :
    window LogEvent.place accepts lo hi (log ++ [⟨log.length + 1, event⟩]) =
      window LogEvent.place accepts lo hi log := by
  apply window_append
  intro a ha _ _
  rw [List.mem_singleton.mp ha]
  exact Nat.lt_succ_of_le hhi

theorem Ahead.append {stored : ℕ} (h : Ahead accepts log stored token) (event : E) :
    Ahead accepts (log ++ [⟨log.length + 1, event⟩]) stored token where
  le := h.le
  bound := by
    rw [List.length_append]
    exact h.bound.trans (Nat.le_add_right _ _)
  quiet := by rw [window_append_new event h.bound, h.quiet]

theorem Next.append (h : Next accepts log token batch) (event : E) :
    Next accepts (log ++ [⟨log.length + 1, event⟩]) token batch where
  nonempty := h.nonempty
  isPrefix := by
    rw [beyond, List.filter_append]
    exact h.isPrefix.trans (List.prefix_append _ _)

theorem Ahead.refl {stored : ℕ} (h : stored ≤ log.length) : Ahead accepts log stored stored :=
  ⟨le_rfl, h, window_self _⟩

theorem Ahead.trans {stored upto : ℕ} (hc : Counted log) (h : Ahead accepts log stored token)
    (k : Ahead accepts log token upto) : Ahead accepts log stored upto where
  le := h.le.trans k.le
  bound := k.bound
  quiet := by rw [← window_split hc.ordered h.le k.le, h.quiet, k.quiet, List.nil_append]

/-- A batch ends at an event of the log, and is the window up to it. -/
theorem Next.window (hc : Counted log) (h : Next accepts log token batch) :
    token < endToken token batch ∧ endToken token batch ≤ log.length ∧
      batch = window LogEvent.place accepts token (endToken token batch) log := by
  have hsplit : batch = batch.dropLast ++ [batch.getLast h.nonempty] :=
    (List.dropLast_append_getLast h.nonempty).symm
  have hend : endToken token batch = (batch.getLast h.nonempty).place := by
    simp only [endToken, List.getLast?_eq_some_getLast h.nonempty, Option.map_some,
      Option.getD_some]
  have hmem := mem_beyond.mp (h.isPrefix.subset (List.getLast_mem h.nonempty))
  refine ⟨?_, ?_, ?_⟩
  · rw [hend]
    exact hmem.2.1
  · rw [hend]
    exact hc.bound _ hmem.1
  · have hpre : batch.dropLast ++ [batch.getLast h.nonempty] <+:
        beyond LogEvent.place accepts token log := hsplit ▸ h.isPrefix
    rw [hend, ← taken_eq_window hc.ordered hpre, ← hsplit]

/-- The invariant of one segment when the log grows. -/
theorem EntryInv.append (h : EntryInv accepts log entry) (event : E) :
    EntryInv accepts (log ++ [⟨log.length + 1, event⟩]) entry where
  claims := h.claims
  selected := h.selected
  owner n row token hrow hown htok := (h.owner n row token hrow hown htok).append event
  next n token batch hb := (h.next n token batch hb).append event
  written := h.written
  bound := by
    rw [List.length_append]
    exact h.bound.trans (Nat.le_add_right _ _)
  delivered := by rw [h.delivered, window_append_new event h.bound]
  disjoint := h.disjoint

theorem Entry.setRow_stored (row : TokenRow N) : (entry.setRow row).stored = row.token.getD 0 := rfl

theorem Entry.stored_eq {row : TokenRow N} (h : entry.row = some row) :
    entry.stored = row.token.getD 0 := by
  simp only [Entry.stored, h]

/-- A row keeps the invariant under an update that leaves its token: whoever
owns it then must not be behind, and an open transaction must still hold it. -/
theorem EntryInv.setRow {row row' : TokenRow N} (h : EntryInv accepts log entry)
    (hrow : entry.row = some row) (htoken : row'.token = row.token)
    (howner : ∀ n token, row'.owner = some n → (entry.nodes n).token? = some token →
      Ahead accepts log entry.stored token)
    (hwritten : ∀ n, (entry.nodes n).isWritten = true →
      row'.owner = some n ∧ row'.lock = some n) :
    EntryInv accepts log (entry.setRow row') := by
  have hstored : (entry.setRow row').stored = entry.stored := by
    rw [Entry.setRow_stored, Entry.stored_eq hrow, htoken]
  constructor
  · exact h.claims
  · intro n token hn
    obtain ⟨r, hr, ht⟩ := h.selected n token hn
    cases hrow.symm.trans hr
    exact ⟨row', rfl, htoken.trans ht⟩
  · intro n r token hr hown ht
    cases hr
    rw [hstored]
    exact howner n token hown ht
  · exact h.next
  · intro n hn
    exact ⟨row', rfl, hwritten n hn⟩
  · rw [hstored]
    exact h.bound
  · rw [hstored]
    exact h.delivered
  · exact h.disjoint

/-- A row appears with no token. -/
theorem EntryInv.insert {row : TokenRow N} (h : EntryInv accepts log entry)
    (hrow : entry.row = none) (htoken : row.token = none)
    (howner : ∀ n, row.owner = some n → (entry.nodes n).token? = none) :
    EntryInv accepts log (entry.setRow row) := by
  have hstored : (entry.setRow row).stored = entry.stored := by
    rw [Entry.setRow_stored, htoken]
    simp only [Entry.stored, hrow, Option.getD_none]
  constructor
  · exact h.claims
  · intro n token hn
    obtain ⟨r, hr, -⟩ := h.selected n token hn
    cases hrow.symm.trans hr
  · intro n r token hr hown ht
    cases hr
    exact absurd ((howner n hown).symm.trans ht) (by simp)
  · exact h.next
  · intro n hn
    obtain ⟨r, hr, -⟩ := h.written n hn
    cases hrow.symm.trans hr
  · rw [hstored]
    exact h.bound
  · rw [hstored]
    exact h.delivered
  · exact h.disjoint

/-- An unlocked row has no transaction open on it. -/
theorem EntryInv.not_written {row : TokenRow N} (h : EntryInv accepts log entry)
    (hrow : entry.row = some row) (hlock : row.lock.isNone = true) (n : N) :
    (entry.nodes n).isWritten ≠ true := by
  intro hn
  obtain ⟨r, hr, -, hl⟩ := h.written n hn
  cases hrow.symm.trans hr
  rw [hl] at hlock
  cases hlock

/-- An update that leaves token and owner of an unlocked row. -/
theorem EntryInv.setRow_unlocked {row row' : TokenRow N} (h : EntryInv accepts log entry)
    (hrow : entry.row = some row) (hlock : row.lock.isNone = true)
    (htoken : row'.token = row.token)
    (howner : ∀ n token, row'.owner = some n → (entry.nodes n).token? = some token →
      row.owner = some n) :
    EntryInv accepts log (entry.setRow row') := by
  apply h.setRow hrow htoken
  · intro n token hown ht
    exact h.owner n row token hrow (howner n token hown ht) ht
  · intro n hn
    exact absurd hn (h.not_written hrow hlock n)

/-- The transaction of a written batch ends without effect. -/
theorem EntryInv.unlock {row : TokenRow N} (h : EntryInv accepts log entry)
    (hrow : entry.row = some row) (hlock : row.lock = some n)
    (hn : (entry.nodes n).isWritten = false) :
    EntryInv accepts log (entry.unlock row) := by
  have htoken : ({ row with lock := none } : TokenRow N).token = row.token := rfl
  apply h.setRow hrow htoken
  · intro m token hm ht
    exact h.owner m row token hrow hm ht
  · intro m hm
    obtain ⟨r, hr, -, hl⟩ := h.written m hm
    cases hrow.symm.trans hr
    cases hlock.symm.trans hl
    rw [hn] at hm
    cases hm

/-- A fenced write of where the owner's worker is, with no claim under way. -/
theorem EntryInv.store {row : TokenRow N} (hc : Counted log) (h : EntryInv accepts log entry)
    (hrow : entry.row = some row) (hlock : row.lock.isNone = true) (hn : row.owner = some n)
    (hat : entry.nodes n = .holding token) (now : ℕ)
    (hquiet : row.token ≠ some token → ∀ m, (entry.nodes m).isClaiming = false) :
    EntryInv accepts log
      (entry.setRow { row with token := some token, timestamp := some now }) := by
  have hahead : Ahead accepts log entry.stored token :=
    h.owner n row token hrow hn (by rw [hat]; rfl)
  have hstored : (entry.setRow { row with token := some token, timestamp := some now }).stored =
      token := rfl
  constructor
  · exact h.claims
  · intro m t hm
    obtain ⟨r, hr, ht⟩ := h.selected m t hm
    cases hrow.symm.trans hr
    by_cases hsame : row.token = some token
    · exact ⟨_, rfl, hsame.symm.trans ht⟩
    · have hnot := hquiet hsame m
      have hm' : entry.nodes m = .claiming (some t) := hm
      rw [hm'] at hnot
      cases hnot
  · intro m r t hr hm ht
    cases hr
    cases hn.symm.trans hm
    have ht' : (entry.nodes n).token? = some t := ht
    rw [hat] at ht'
    cases ht'
    exact Ahead.refl hahead.bound
  · exact h.next
  · intro m hm
    exact absurd hm (h.not_written hrow hlock m)
  · rw [hstored]
    exact hahead.bound
  · rw [hstored, ← window_split hc.ordered (Nat.zero_le _) hahead.le, hahead.quiet, List.append_nil]
    exact h.delivered
  · exact h.disjoint

/-- What has been delivered is at or before the stored token. -/
theorem EntryInv.mem_batch (h : EntryInv accepts log entry) {b : Batch N E} {e : LogEvent E}
    (hb : b ∈ entry.batches) (he : e ∈ b.events) :
    e ∈ window LogEvent.place accepts 0 entry.stored log := by
  rw [← h.delivered]
  exact List.mem_flatMap.mpr ⟨b, hb, he⟩

variable [DecidableEq N]

@[simp] theorem Entry.setNode_same (s : Local E) : (entry.setNode n s).nodes n = s := if_pos rfl

theorem Entry.setNode_ne (s : Local E) (h : m ≠ n) : (entry.setNode n s).nodes m = entry.nodes m :=
  if_neg h

/-- A node moves on while the row stays as it is. -/
theorem EntryInv.setNode {l : Local E} (h : EntryInv accepts log entry)
    (hsel : ∀ token, l = .claiming (some token) → ∃ row, entry.row = some row ∧ row.token = token)
    (hown : ∀ row token, entry.row = some row → row.owner = some n → l.token? = some token →
      Ahead accepts log entry.stored token)
    (hnext : ∀ token batch, l.batch? = some (token, batch) → Next accepts log token batch)
    (hwritten : l.isWritten = true →
      ∃ row, entry.row = some row ∧ row.owner = some n ∧ row.lock = some n) :
    EntryInv accepts log (entry.setNode n l) := by
  constructor
  · exact h.claims
  · intro m token hm
    by_cases hmn : m = n
    · subst hmn
      rw [Entry.setNode_same] at hm
      exact hsel token hm
    · rw [Entry.setNode_ne l hmn] at hm
      exact h.selected m token hm
  · intro m row token hrow hm ht
    by_cases hmn : m = n
    · subst hmn
      rw [Entry.setNode_same] at ht
      exact hown row token hrow hm ht
    · rw [Entry.setNode_ne l hmn] at ht
      exact h.owner m row token hrow hm ht
  · intro m token batch hm
    by_cases hmn : m = n
    · subst hmn
      rw [Entry.setNode_same] at hm
      exact hnext token batch hm
    · rw [Entry.setNode_ne l hmn] at hm
      exact h.next m token batch hm
  · intro m hm
    by_cases hmn : m = n
    · subst hmn
      rw [Entry.setNode_same] at hm
      exact hwritten hm
    · rw [Entry.setNode_ne l hmn] at hm
      exact h.written m hm
  · exact h.bound
  · exact h.delivered
  · exact h.disjoint

/-- A node stops what it was doing. -/
theorem EntryInv.setNode_idle (h : EntryInv accepts log entry) (n : N) :
    EntryInv accepts log (entry.setNode n .idle) := by
  apply h.setNode
  · intro token hl
    cases hl
  · intro row token _ _ ht
    cases ht
  · intro token batch hb
    cases hb
  · intro hw
    cases hw

theorem EntryInv.setNode_holding (h : EntryInv accepts log entry)
    (hown : ∀ row,
      entry.row = some row → row.owner = some n → Ahead accepts log entry.stored token) :
    EntryInv accepts log (entry.setNode n (.holding token)) := by
  apply h.setNode
  · intro t hl
    cases hl
  · intro row t hrow hn ht
    cases ht
    exact hown row hrow hn
  · intro t batch hb
    cases hb
  · intro hw
    cases hw

theorem EntryInv.setNode_claiming {row : Option (Option ℕ)} (h : EntryInv accepts log entry)
    (hsel : ∀ token, row = some token → ∃ r, entry.row = some r ∧ r.token = token) :
    EntryInv accepts log (entry.setNode n (.claiming row)) := by
  apply h.setNode
  · intro token hl
    cases hl
    exact hsel token rfl
  · intro r token _ _ ht
    cases ht
  · intro token batch hb
    cases hb
  · intro hw
    cases hw

theorem EntryInv.setNode_running (h : EntryInv accepts log entry)
    (hn : entry.nodes n = .holding token) (hnext : Next accepts log token batch) :
    EntryInv accepts log (entry.setNode n (.running token batch)) := by
  apply h.setNode
  · intro t hl
    cases hl
  · intro row t hrow hown ht
    cases ht
    exact h.owner n row token hrow hown (by rw [hn]; rfl)
  · intro t b hb
    cases hb
    exact hnext
  · intro hw
    cases hw

/-- The fenced write of a batch by the row's owner. -/
theorem EntryInv.write {row : TokenRow N} (h : EntryInv accepts log entry)
    (hrow : entry.row = some row) (hlock : row.lock.isNone = true) (hown : row.owner = some n)
    (hn : entry.nodes n = .running token batch) (now : ℕ) :
    EntryInv accepts log
      ((entry.setRow { row with lock := some n }).setNode n (.written token batch now)) := by
  have htoken : ({ row with lock := some n } : TokenRow N).token = row.token := rfl
  have hset := h.setRow_unlocked hrow hlock htoken fun m t hm _ => hm
  apply hset.setNode
  · intro t hl
    cases hl
  · intro r t hr hm ht
    cases hr
    cases ht
    exact hset.owner n _ token rfl hown (by rw [Entry.setRow, hn]; rfl)
  · intro t b hb
    cases hb
    exact h.next n token batch (by rw [hn]; rfl)
  · intro _
    exact ⟨_, rfl, hown, rfl⟩

/-- A node leaves its written batch, and the transaction ends without effect. -/
theorem EntryInv.abandon {row : TokenRow N} {l : Local E} (h : EntryInv accepts log entry)
    (hrow : entry.row = some row) (hn : (entry.nodes n).isWritten = true)
    (hl : l.isWritten = false) (hset : EntryInv accepts log (entry.setNode n l)) :
    EntryInv accepts log ((entry.unlock row).setNode n l) := by
  obtain ⟨r, hr, -, hlock⟩ := h.written n hn
  cases hrow.symm.trans hr
  exact hset.unlock hrow hlock (by rw [Entry.setNode_same, hl])

/-- A claim took effect and returns the token of the row it leaves. -/
theorem EntryInv.claimed {row : TokenRow N} (h : EntryInv accepts log (entry.setRow row)) :
    EntryInv accepts log (entry.claimed n row row.token row.token) := by
  have hheld : EntryInv accepts log
      ((entry.setRow row).setNode n (.holding (row.token.getD 0))) := by
    apply h.setNode_holding
    intro r hr _
    exact Ahead.refl h.bound
  refine ⟨?_, hheld.selected, hheld.owner, hheld.next, hheld.written, hheld.bound,
    hheld.delivered, hheld.disjoint⟩
  intro c hc
  rcases List.mem_append.mp hc with hc | hc
  · exact h.claims c hc
  · rw [List.mem_singleton.mp hc]

/-- A batch takes effect with no claim under way. -/
theorem EntryInv.committed {row : TokenRow N} {timestamp : ℕ} (hc : Counted log)
    (h : EntryInv accepts log entry) (hrow : entry.row = some row)
    (hat : entry.nodes n = .written token batch timestamp)
    (hquiet : ∀ m, (entry.nodes m).isClaiming = false) :
    EntryInv accepts log (entry.committed n row token batch timestamp) := by
  obtain ⟨r, hr, hn, hlock⟩ := h.written n (by rw [hat]; rfl)
  cases hrow.symm.trans hr
  have hahead : Ahead accepts log entry.stored token :=
    h.owner n row token hrow hn (by rw [hat]; rfl)
  have hnext : Next accepts log token batch := h.next n token batch (by rw [hat]; rfl)
  obtain ⟨hlt, hbound, hbatch⟩ := hnext.window hc
  have hstored : (entry.committed n row token batch timestamp).stored = endToken token batch := rfl
  have hnodes : ∀ m, m ≠ n →
      (entry.committed n row token batch timestamp).nodes m = entry.nodes m := by
    intro m hm
    exact if_neg hm
  have hself : (entry.committed n row token batch timestamp).nodes n =
      .holding (endToken token batch) := if_pos rfl
  -- Between the stored token and the batch there is nothing of the segment's.
  have hnew : window LogEvent.place accepts entry.stored (endToken token batch) log = batch := by
    rw [← window_split hc.ordered hahead.le hlt.le, hahead.quiet, List.nil_append, ← hbatch]
  constructor
  · exact h.claims
  · intro m t hm
    by_cases hmn : m = n
    · rw [hmn, hself] at hm
      cases hm
    · rw [hnodes m hmn] at hm
      have hnot := hquiet m
      rw [hm] at hnot
      cases hnot
  · intro m r t hr hm ht
    cases hr
    cases hn.symm.trans hm
    rw [hself] at ht
    cases ht
    exact Ahead.refl hbound
  · intro m t b hm
    by_cases hmn : m = n
    · rw [hmn, hself] at hm
      cases hm
    · rw [hnodes m hmn] at hm
      exact h.next m t b hm
  · intro m hm
    by_cases hmn : m = n
    · rw [hmn, hself] at hm
      cases hm
    · rw [hnodes m hmn] at hm
      obtain ⟨r, hr, hm', -⟩ := h.written m hm
      cases hrow.symm.trans hr
      exact absurd (Option.some.inj (hm'.symm.trans hn)) hmn
  · rw [hstored]
    exact hbound
  · have hdel : (entry.committed n row token batch timestamp).delivered =
        entry.delivered ++ batch := by
      simp [Entry.delivered, Entry.committed]
    rw [hdel, h.delivered, hstored,
      ← window_split hc.ordered (Nat.zero_le _) (hahead.le.trans hlt.le), hnew]
  · apply List.pairwise_append.mpr
    refine ⟨h.disjoint, List.pairwise_singleton _ _, ?_⟩
    intro a ha b hb e hea heb
    rw [List.mem_singleton.mp hb] at heb
    have hold := (mem_window.mp (h.mem_batch ha hea)).2.2.1
    have hfresh : e ∈ window LogEvent.place accepts token (endToken token batch) log :=
      hbatch ▸ heb
    have hgt := (mem_window.mp hfresh).2.1
    have hle := hahead.le
    omega

/-- One statement keeps the invariant of its segment. -/
theorem EntryInv.step {claimTimeoutMs : ℕ} {statement : Statement N} (hc : Counted log)
    (h : EntryInv accepts log entry)
    (hok : entry.changesToken statement = true → ∀ m, (entry.nodes m).isClaiming = false)
    (hstep : entry.step accepts claimTimeoutMs log statement = some entry') :
    EntryInv accepts log entry' := by
  cases statement with
  | initializeSegments =>
      simp only [Entry.step] at hstep
      split at hstep
      · rename_i hrow
        cases hstep
        exact h.insert hrow rfl fun m hm => by cases hm
      · cases hstep
        exact h
  | select n now =>
      simp only [Entry.step] at hstep
      split at hstep
      · rename_i hn hrow
        cases hstep
        exact h.setNode_claiming (by intro token ht; cases ht)
      · rename_i row hn hrow
        split_ifs at hstep
        · cases hstep
          apply h.setNode_claiming
          intro token ht
          cases ht
          exact ⟨row, hrow, rfl⟩
        · cases hstep
          exact h
      · cases hstep
  | insert n now =>
      simp only [Entry.step] at hstep
      split at hstep
      · rename_i hn hrow
        cases hstep
        apply EntryInv.claimed
        apply h.insert hrow rfl
        intro m hm
        cases hm
        rw [hn]
        rfl
      · cases hstep
        exact h.setNode_idle n
      · cases hstep
  | update n now =>
      simp only [Entry.step] at hstep
      split at hstep
      · rename_i token row hn hrow
        split_ifs at hstep with hlock
        cases hstep
        obtain ⟨r, hr, ht⟩ := h.selected n token hn
        cases hrow.symm.trans hr
        rw [← ht]
        apply EntryInv.claimed
        refine h.setRow_unlocked hrow hlock rfl ?_
        intro m t hm hmt
        cases hm
        rw [hn] at hmt
        cases hmt
      · cases hstep
  | poll n size =>
      simp only [Entry.step] at hstep
      split at hstep
      · rename_i token hn
        split_ifs at hstep with hempty
        · cases hstep
          exact h
        · cases hstep
          apply h.setNode_running hn
          exact ⟨by simpa using hempty, List.take_prefix _ _⟩
      · cases hstep
  | quiet n upto =>
      simp only [Entry.step] at hstep
      split at hstep
      · rename_i token hn
        split_ifs at hstep with hquiet
        cases hstep
        apply h.setNode_holding
        intro row hrow hown
        have hahead := h.owner n row token hrow hown (by rw [hn]; rfl)
        exact hahead.trans hc ⟨hquiet.1, hquiet.2.1, List.isEmpty_iff.mp hquiet.2.2⟩
      · cases hstep
  | write n now =>
      simp only [Entry.step] at hstep
      split at hstep
      · rename_i token batch row hn hrow
        split_ifs at hstep with hlock hown
        · cases hstep
          exact h.write hrow hlock hown hn now
        · cases hstep
          exact h.setNode_idle n
      · cases hstep
  | commit n =>
      simp only [Entry.step] at hstep
      split at hstep
      · rename_i token batch timestamp row hn hrow
        cases hstep
        exact h.committed hc hrow hn (hok rfl)
      · cases hstep
  | rollback n =>
      simp only [Entry.step] at hstep
      split at hstep
      · rename_i token batch hn
        cases hstep
        exact h.setNode_holding fun row hrow hown => h.owner n row token hrow hown (by rw [hn]; rfl)
      · rename_i token batch timestamp row hn hrow
        cases hstep
        apply h.abandon hrow (by rw [hn]; rfl) rfl
        exact h.setNode_holding fun row hrow hown => h.owner n row token hrow hown (by rw [hn]; rfl)
      · cases hstep
  | store n now =>
      simp only [Entry.step] at hstep
      split at hstep
      · rename_i token row hn hrow
        split_ifs at hstep with hlock hown
        · cases hstep
          apply EntryInv.store hc h hrow hlock hown hn now
          intro hne
          apply hok
          simp [Entry.changesToken, hn, hrow, hown, hne]
        · cases hstep
          exact h.setNode_idle n
      · cases hstep
  | release n =>
      simp only [Entry.step] at hstep
      split at hstep
      · rename_i token row hn hrow
        split_ifs at hstep with hlock hown
        · cases hstep
          apply EntryInv.setNode_idle
          refine h.setRow_unlocked hrow hlock rfl ?_
          intro m t hm
          cases hm
        · cases hstep
          exact h.setNode_idle n
      · cases hstep
  | crash n =>
      simp only [Entry.step] at hstep
      split at hstep
      · rename_i token batch timestamp row hn hrow
        cases hstep
        exact h.abandon hrow (by rw [hn]; rfl) rfl (h.setNode_idle n)
      · cases hstep
        exact h.setNode_idle n

variable [DecidableEq G] {segmentOf : E → G} {claimTimeoutMs : ℕ} {s s' : State N G E}

structure Inv (segmentOf : E → G) (s : State N G E) : Prop where
  counted : Counted s.log
  entries : ∀ g, EntryInv (belongs segmentOf g) s.log (s.segments g)

omit [DecidableEq N] in
theorem inv_initial : Inv segmentOf (initial : State N G E) where
  counted := ⟨List.Pairwise.nil, by simp [initial]⟩
  entries g := by
    constructor <;> simp [initial, Entry.stored, Entry.delivered, window, Local.token?,
      Local.batch?, Local.isWritten]

theorem Inv.step {a : Action N G E} (h : Inv segmentOf s) (hok : claimsUndisturbed s a)
    (hstep : step segmentOf claimTimeoutMs s a = some s') : Inv segmentOf s' := by
  cases a with
  | append event =>
      cases hstep
      exact ⟨h.counted.append event, fun g => (h.entries g).append event⟩
  | run g statement =>
      obtain ⟨entry', hentry, rfl⟩ := Option.map_eq_some_iff.mp hstep
      refine ⟨h.counted, ?_⟩
      intro k
      by_cases hk : k = g
      · subst hk
        simpa using (h.entries k).step h.counted hok hentry
      · simpa only [if_neg hk] using h.entries k

theorem Inv.reach
    (h : Reach (TokenStore.step segmentOf claimTimeoutMs) claimsUndisturbed initial s) :
    Inv segmentOf s :=
  h.invariant inv_initial fun _ _ _ _ hi hok hstep => hi.step hok hstep

/-- As long as no write changes a row's token between the two statements of a
claim, a claim returns the token stored when it takes effect, no event is part
of two committed batches of whatever nodes, and the committed batches of a
segment are exactly its events up to the stored token. -/
theorem takeover_exactly_once
    (h : Reach (step segmentOf claimTimeoutMs) claimsUndisturbed initial s) :
    (∀ g, ∀ c ∈ (s.segments g).claims, c.returned = c.stored) ∧
    (∀ g, (s.segments g).batches.Pairwise fun a b => ∀ e ∈ a.events, e ∉ b.events) ∧
    (∀ g k, g ≠ k → ∀ a ∈ (s.segments g).batches, ∀ b ∈ (s.segments k).batches,
      ∀ e ∈ a.events, e ∉ b.events) ∧
    ∀ g, (s.segments g).delivered =
      window LogEvent.place (belongs segmentOf g) 0 (s.segments g).stored s.log := by
  have hi := Inv.reach h
  refine ⟨fun g => (hi.entries g).claims, fun g => (hi.entries g).disjoint, ?_,
    fun g => (hi.entries g).delivered⟩
  intro g k hgk a ha b hb e hea heb
  have hg := (mem_window.mp ((hi.entries g).mem_batch ha hea)).2.2.2
  have hk := (mem_window.mp ((hi.entries k).mem_batch hb heb)).2.2.2
  simp only [belongs, decide_eq_true_eq] at hg hk
  exact hgk (hg.symm.trans hk)

/-- Two nodes over one segment: the first commits a batch, stalls past the
timeout and loses its claim; its next batch is refused and the second node's
is not. -/
def stalledRun : List (Action Bool Unit Unit) :=
  [.append (), .append (), .run () .initializeSegments, .run () (.select false 0),
    .run () (.update false 0), .run () (.poll false 1), .run () (.write false 1),
    .run () (.commit false), .run () (.poll false 1), .run () (.select true 20),
    .run () (.update true 20), .run () (.write false 21), .run () (.poll true 1),
    .run () (.write true 22), .run () (.commit true)]

theorem takeover_exactly_once_stalledNode :
    ∃ s : State Bool Unit Unit,
      Reach (step (fun _ => ()) 10) claimsUndisturbed initial s ∧
      (s.segments ()).batches.map Batch.node = [false, true] ∧
      (∀ c ∈ (s.segments ()).claims, c.returned = c.stored) ∧
      (s.segments ()).delivered =
        window LogEvent.place (belongs (fun _ => ()) ()) 0 (s.segments ()).stored s.log := by
  have hs := reach_guarded_get (show (exec (guarded (step (fun _ : Unit => ()) 10)
    claimsUndisturbed) initial stalledRun).isSome = true by decide +kernel)
  obtain ⟨hclaims, -, -, hdelivered⟩ := takeover_exactly_once hs
  exact ⟨_, hs, by decide +kernel, hclaims (), hdelivered ()⟩

/-- The second node's claim reads the row while the first node's batch has
written and not committed, and takes effect when it has: it returns the token
from before the batch, and the event is delivered again. -/
def overtakenRun : List (Action Bool Unit Unit) :=
  [.append (), .run () .initializeSegments, .run () (.select false 0),
    .run () (.update false 0), .run () (.poll false 1), .run () (.write false 11),
    .run () (.select true 20), .run () (.commit false), .run () (.update true 20),
    .run () (.poll true 1), .run () (.write true 21), .run () (.commit true)]

theorem takeover_repeats_event :
    ∃ s : State Bool Unit Unit, Reach (step (fun _ => ()) 10) always initial s ∧
      (∃ c ∈ (s.segments ()).claims, c.returned ≠ c.stored) ∧
      ∃ a ∈ (s.segments ()).batches, ∃ b ∈ (s.segments ()).batches,
        a.node ≠ b.node ∧ ∃ e ∈ a.events, e ∈ b.events := by
  have hs := reach_exec_get (show (exec (step (fun _ : Unit => ()) 10) initial
    overtakenRun).isSome = true by decide +kernel)
  exact ⟨_, hs, by decide +kernel, by decide +kernel⟩

end Kronos.Postgres.TokenStore
