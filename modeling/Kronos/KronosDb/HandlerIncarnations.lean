import Kronos.KronosDb.HandlerStream
import Kronos.Lib.Slots
import Kronos.Lib.Transition
import Mathlib.Data.List.Nodup

/-!
# Incarnations never mix

What the server sends on an incarnation that is not live changes nothing, a command
is answered where it arrived, and an open incarnation has announced each name once.
The bus's count of credits belongs to the live incarnation, with one exception: a
restart that replaces an open incarnation leaves the old count standing until the new
one is open. And a name that is subscribed again while the stream is open is
announced again.
-/
namespace Kronos.KronosDb.HandlerStream
open Kronos.Lib.Slots Kronos.Lib.Transition

section Sent
variable {N : Type}

/-- The names announced. -/
def namesOf (sent : List (Sent N)) : List N :=
  sent.filterMap fun
    | .subscribe name => some name
    | _ => none

/-- The commands answered. -/
def tasksOf (sent : List (Sent N)) : List ℕ :=
  sent.filterMap fun
    | .handled task _ => some task
    | _ => none

/-- The credits granted. -/
def granted (sent : List (Sent N)) : ℕ :=
  (sent.map fun
    | .credit credits => credits
    | _ => 0).sum

theorem namesOf_append (sent later : List (Sent N)) :
    namesOf (sent ++ later) = namesOf sent ++ namesOf later :=
  List.filterMap_append

theorem tasksOf_append (sent later : List (Sent N)) :
    tasksOf (sent ++ later) = tasksOf sent ++ tasksOf later :=
  List.filterMap_append

theorem granted_append (sent later : List (Sent N)) :
    granted (sent ++ later) = granted sent + granted later := by
  simp [granted]

theorem namesOf_announced (names : List N) : namesOf (names.map Sent.subscribe) = names := by
  induction names with
  | nil => rfl
  | cons name names ih => exact congrArg (name :: ·) ih

theorem tasksOf_announced (names : List N) : tasksOf (names.map Sent.subscribe) = [] := by
  induction names with
  | nil => rfl
  | cons name names ih => exact ih

theorem granted_announced (names : List N) : granted (names.map Sent.subscribe) = 0 := by
  induction names with
  | nil => rfl
  | cons name names ih =>
      rw [List.map_cons, ← List.singleton_append, granted_append, ih]
      rfl

end Sent

variable {N : Type}

/-- The actions that keep to one announcement and one count: a name is not subscribed
again on an open incarnation that has announced it, and a restart finds no count. -/
def steady [DecidableEq N] (s : State N) : Action N → Bool
  | .subscribe name _ =>
      s.session.isNone ||
        s.liveIncarnation.all fun mine => !(namesOf mine.sent).contains name
  | .restart => s.credit.isNone || s.closed || !s.started || s.stopped || !s.canReconnect
  | _ => true

/-! ## The invariant -/

/-- What holds of the incarnation with the number `i`, live or not. -/
structure Kept (tasks : List (Task N)) (i : ℕ) (mine : Incarnation N) : Prop where
  blank : mine.stream = false → mine.sent = [] ∧ mine.received = 0
  once : (tasksOf mine.sent).Nodup
  answered : ∀ k ∈ tasksOf mine.sent,
    ∃ task : Task N, tasks[k]? = some task ∧ task.incarnation = i ∧ task.done = true

/-- What holds of the live incarnation. -/
structure Serving (c : Config N) (s : State N) (mine : Incarnation N) : Prop where
  nodup : (namesOf mine.sent).Nodup
  announced : mine.stream = true → ∀ name ∈ s.subscribed, name ∈ namesOf mine.sent
  counted : mine.stream = true → ∃ credit, s.credit = some credit ∧
    credit = (granted mine.sent : ℤ) - mine.received ∧
      (s.shuttingDown = false → (c.threshold : ℤ) < credit)
  uncounted : mine.stream = false → s.credit = none

structure Inv (c : Config N) (s : State N) : Prop where
  kept : ∀ {i mine}, s.incarnations[i]? = some mine → Kept s.tasks i mine
  serving : ∀ {i}, s.live = some i → ∃ mine, s.incarnations[i]? = some mine ∧ Serving c s mine
  credit : s.live = none → s.credit = none
  nodup : s.localHandlers.Nodup
  known : s.subscribed ⊆ s.localHandlers
  idle : s.timer = true → s.live = none ∧ s.started = true
  begun : s.live ≠ none → s.started = true
  named : s.started = true → s.localHandlers ≠ []

theorem inv_initial (c : Config N) : Inv c (initial N) where
  kept := by
    intro i mine h
    cases h
  serving := by
    intro i h
    cases h
  credit := fun _ => rfl
  nodup := List.nodup_nil
  known := List.nil_subset _
  idle := nofun
  begun := fun h => absurd rfl h
  named := nofun

/-- An incarnation that is not live stays so, and nothing is written on it. -/
def Gone (s t : State N) : Prop :=
  ∀ i < s.incarnations.length, s.live ≠ some i →
    i < t.incarnations.length ∧ t.live ≠ some i ∧ t.incarnations[i]? = s.incarnations[i]?

theorem Gone.refl (s : State N) : Gone s s := fun _ hlt hne => ⟨hlt, hne, rfl⟩

theorem Gone.trans {s t u : State N} (h : Gone s t) (k : Gone t u) : Gone s u := by
  intro i hlt hne
  obtain ⟨hlt, hne, hsame⟩ := h i hlt hne
  obtain ⟨hlt, hne, hagain⟩ := k i hlt hne
  exact ⟨hlt, hne, hagain.trans hsame⟩

/-- What every operation does to a good state. -/
structure Next (c : Config N) (s t : State N) : Prop where
  inv : Inv c t
  gone : Gone s t

section Steps
variable {c : Config N} {s t : State N} {i : ℕ} {mine after : Incarnation N}

theorem Next.trans {u : State N} (h : Next c s t) (k : Inv c t → Next c t u) : Next c s u :=
  ⟨(k h.inv).inv, h.gone.trans (k h.inv).gone⟩

theorem Kept.mono {tasks later : List (Task N)} (h : Kept tasks i mine)
    (hdone : ∀ {k : ℕ} {task : Task N}, tasks[k]? = some task → task.done = true →
      later[k]? = some task) : Kept later i mine where
  blank := h.blank
  once := h.once
  answered := by
    intro k hk
    obtain ⟨task, htask, hin, hover⟩ := h.answered k hk
    exact ⟨task, hdone htask hover, hin, hover⟩

/-- Steps that leave the incarnations and the bus's count alone. -/
theorem Inv.quiet (hi : Inv c s) (hincarnations : t.incarnations = s.incarnations)
    (hlive : t.live = s.live) (hcredit : t.credit = s.credit)
    (hsubscribed : t.subscribed = s.subscribed) (hhandlers : t.localHandlers = s.localHandlers)
    (hstarted : t.started = s.started)
    (hdone : ∀ {k : ℕ} {task : Task N}, s.tasks[k]? = some task → task.done = true →
      t.tasks[k]? = some task)
    (hdown : s.shuttingDown = true → t.shuttingDown = true)
    (hidle : t.timer = true → s.live = none ∧ s.started = true) : Next c s t where
  inv :=
    { kept := by
        intro i mine hmine
        rw [hincarnations] at hmine
        exact (hi.kept hmine).mono hdone
      serving := by
        intro i hi'
        rw [hlive] at hi'
        obtain ⟨mine, hmine, h⟩ := hi.serving hi'
        refine ⟨mine, hincarnations ▸ hmine, h.nodup, hsubscribed ▸ h.announced, ?_,
          hcredit ▸ h.uncounted⟩
        intro hstream
        obtain ⟨credit, hthis, heq, hwindow⟩ := h.counted hstream
        refine ⟨credit, hcredit.trans hthis, heq, fun hup => hwindow ?_⟩
        cases hs : s.shuttingDown with
        | false => rfl
        | true =>
            rw [hdown hs] at hup
            cases hup
      credit := by
        rw [hlive, hcredit]
        exact hi.credit
      nodup := hhandlers ▸ hi.nodup
      known := by
        rw [hsubscribed, hhandlers]
        exact hi.known
      idle := by
        rw [hlive, hstarted]
        exact hidle
      begun := by
        rw [hlive, hstarted]
        exact hi.begun
      named := by
        rw [hstarted, hhandlers]
        exact hi.named }
  gone := by
    intro i hlt hne
    rw [hincarnations, hlive]
    exact ⟨hlt, hne, rfl⟩

/-- The live incarnation is over, with what was written on it last. -/
theorem Inv.over (hi : Inv c s) (hlive : s.live = some i) (hkept : Kept s.tasks i after) :
    Next c s { s.ended with incarnations := s.incarnations.set i after } where
  inv :=
    { kept := by
        intro j other hother
        rcases getElem?_set_cases hother with ⟨rfl, rfl⟩ | ⟨-, hold⟩
        · exact hkept
        · exact hi.kept hold
      serving := nofun
      credit := fun _ => rfl
      nodup := hi.nodup
      known := hi.known
      idle := fun htimer => ⟨rfl, (hi.idle htimer).2⟩
      begun := fun h => absurd rfl h
      named := hi.named }
  gone := by
    intro j hlt hne
    have hother : j ≠ i := by
      rintro rfl
      exact hne hlive
    refine ⟨?_, nofun, List.getElem?_set_ne hother.symm⟩
    rw [List.length_set]
    exact hlt

theorem Inv.opened (hi : Inv c s) (hcredit : s.credit = none) (htimer : s.timer = false)
    (hnamed : s.localHandlers ≠ []) : Next c s s.open := by
  unfold State.open
  split_ifs
  · exact ⟨hi, Gone.refl s⟩
  · refine ⟨⟨?_, ?_, nofun, hi.nodup, hi.known, ?_, fun _ => rfl, fun _ => hnamed⟩, ?_⟩
    · intro i mine hmine
      rcases getElem?_concat_cases hmine with ⟨-, rfl⟩ | hold
      · exact ⟨fun _ => ⟨rfl, rfl⟩, List.nodup_nil, nofun⟩
      · exact hi.kept hold
    · intro i hlive
      cases hlive
      exact ⟨_, List.getElem?_concat_length, List.nodup_nil, nofun, nofun, fun _ => hcredit⟩
    · intro hthis
      rw [htimer] at hthis
      cases hthis
    · intro i hlt hne
      refine ⟨?_, ?_, List.getElem?_append_left hlt⟩
      · rw [List.length_append]
        exact Nat.lt_add_right _ hlt
      · intro hlive
        cases hlive
        exact lt_irrefl _ hlt

/-- Steps that rewrite the live incarnation. -/
theorem Inv.rewrite (hi : Inv c s) (hlive : s.live = some i)
    (hincarnations : t.incarnations = s.incarnations.set i after) (htlive : t.live = s.live)
    (htimer : t.timer = s.timer) (hstarted : t.started = s.started)
    (hhandlers : t.localHandlers = s.localHandlers) (hknown : t.subscribed ⊆ s.localHandlers)
    (hdone : ∀ {k : ℕ} {task : Task N}, s.tasks[k]? = some task → task.done = true →
      t.tasks[k]? = some task)
    (hkept : Kept t.tasks i after) (hserving : Serving c t after) : Next c s t := by
  obtain ⟨mine, hmine, -⟩ := hi.serving hlive
  refine ⟨⟨?_, ?_, ?_, hhandlers ▸ hi.nodup, hhandlers ▸ hknown, ?_, ?_, ?_⟩, ?_⟩
  · intro j other hother
    rw [hincarnations] at hother
    rcases getElem?_set_cases hother with ⟨rfl, rfl⟩ | ⟨-, hold⟩
    · exact hkept
    · exact (hi.kept hold).mono hdone
  · intro j hj
    rw [htlive, hlive] at hj
    cases hj
    refine ⟨after, ?_, hserving⟩
    rw [hincarnations]
    exact getElem?_set_of_some hmine
  · intro hnone
    rw [htlive, hlive] at hnone
    cases hnone
  · intro htrue
    rw [htimer] at htrue
    rw [(hi.idle htrue).1] at hlive
    cases hlive
  · rw [htlive, hstarted]
    exact hi.begun
  · rw [hstarted, hhandlers]
    exact hi.named
  · intro j hlt hne
    have hother : j ≠ i := by
      rintro rfl
      exact hne hlive
    rw [hincarnations, List.length_set, htlive, List.getElem?_set_ne hother.symm]
    exact ⟨hlt, hne, rfl⟩

theorem Inv.refl (hi : Inv c s) : Next c s s := ⟨hi, Gone.refl s⟩

theorem Inv.settle (hi : Inv c s) : Next c s s.settle := by
  unfold State.settle
  split_ifs
  · exact hi.quiet rfl rfl rfl rfl rfl rfl (fun h _ => h) id hi.idle
  · exact hi.refl

theorem Inv.refuse (hi : Inv c s) : Next c s s.refuse :=
  hi.quiet rfl rfl rfl rfl rfl rfl (fun h _ => h) id hi.idle

theorem Inv.ended (hi : Inv c s) : Next c s s.ended where
  inv :=
    { hi with
      serving := nofun
      credit := fun _ => rfl
      idle := fun htimer => ⟨rfl, (hi.idle htimer).2⟩
      begun := fun h => absurd rfl h }
  gone := fun _ hlt _ => ⟨hlt, nofun, rfl⟩

theorem Inv.abandon (hi : Inv c s) : Next c s s.abandon := by
  unfold State.abandon
  split_ifs
  · exact hi.ended
  · exact hi.refl

theorem Inv.failed (hi : Inv c s) (hlive : s.live = none) (hstarted : s.started = true)
    (retryable : Bool) : Next c s (s.failed c retryable) := by
  unfold State.failed
  split_ifs
  · exact hi.refl
  · exact hi.refl
  · exact hi.quiet rfl rfl rfl rfl rfl rfl (fun h _ => h) id fun _ => ⟨hlive, hstarted⟩

theorem Inv.fail (hi : Inv c s) (i : ℕ) (retryable : Bool) : Next c s (s.fail c i retryable) := by
  unfold State.fail
  split_ifs with hlive
  · have hstarted : s.started = true := hi.begun (by rw [hlive]; nofun)
    exact hi.ended.trans fun h => h.failed rfl hstarted retryable
  · exact hi.refl

/-! ## Writing on the live incarnation -/

theorem update_eq (hmine : s.incarnations[i]? = some mine) (f : Incarnation N → Incarnation N) :
    s.update i f = { s with incarnations := s.incarnations.set i (f mine) } := by
  rw [State.update, modify_of_some hmine]

theorem send_eq (hlive : s.live = some i) (hmine : s.incarnations[i]? = some mine)
    (hstream : mine.stream = true) (frame : Sent N) :
    s.send i frame =
      { s with
        incarnations := s.incarnations.set i { mine with sent := mine.sent ++ [frame] } } := by
  rw [State.send, if_pos hlive, update_eq hmine, if_pos hstream]

theorem send_eq_self (hmine : s.incarnations[i]? = some mine) (hstream : mine.stream = false)
    (frame : Sent N) : s.send i frame = s := by
  unfold State.send
  split_ifs
  · rw [update_eq hmine, hstream]
    simp only [Bool.false_eq_true, if_false]
    rw [set_of_some hmine]
  · rfl

theorem grant_eq (hlive : s.live = some i) (hmine : s.incarnations[i]? = some mine)
    (hstream : mine.stream = true) :
    s.grant c i =
      { s with
        incarnations := s.incarnations.set i { mine with sent := mine.sent ++ [.credit c.permits] }
        credit := some (s.credit.getD 0 + c.permits) } := by
  rw [State.grant, send_eq hlive hmine hstream]

theorem instruct_eq (hlive : s.live = some i) (hmine : s.incarnations[i]? = some mine)
    (hstream : mine.stream = true) (frame : Sent N) (fits : Bool) :
    ∃ after : Incarnation N,
      s.instruct i frame fits = { s with incarnations := s.incarnations.set i after } ∧
        after.stream = true ∧ after.received = mine.received ∧
        after.sent = if fits then mine.sent ++ [frame] else mine.sent := by
  rw [State.instruct, if_pos hlive, update_eq hmine, if_pos hstream]
  exact ⟨_, rfl, hstream, rfl, rfl⟩

/-- The loop of `announce` writes a subscription for each name, in order, until one
does not fit. -/
theorem announceNames_eq (c : Config N) (names : List N) (hlive : s.live = some i)
    (hmine : s.incarnations[i]? = some mine) (hstream : mine.stream = true) :
    ∃ (after : Incarnation N) (announced : List N) (fit : Bool),
      s.announceNames c i names = ({ s with incarnations := s.incarnations.set i after }, fit) ∧
        after.stream = true ∧ after.received = mine.received ∧
        after.sent = mine.sent ++ announced.map Sent.subscribe ∧
          (fit = true → announced = names) := by
  induction names generalizing s mine with
  | nil =>
      refine ⟨mine, [], true, ?_, hstream, rfl, (List.append_nil _).symm, fun _ => rfl⟩
      rw [State.announceNames, set_of_some hmine]
  | cons name names ih =>
      obtain ⟨first, hfirst, hopen, hreceived, hsent⟩ :=
        instruct_eq hlive hmine hstream (.subscribe name) (c.fits name)
      unfold State.announceNames State.subscribeOn
      rw [hfirst]
      cases hfits : c.fits name with
      | false =>
          refine ⟨first, [], false, rfl, hopen, hreceived, ?_, nofun⟩
          rw [hsent, hfits]
          exact (List.append_nil _).symm
      | true =>
          have hset : (s.incarnations.set i first)[i]? = some first := getElem?_set_of_some hmine
          obtain ⟨after, announced, fit, hall, hafter, hcount, hwritten, hend⟩ :=
            ih (s := { s with incarnations := s.incarnations.set i first }) hlive hset hopen
          refine ⟨after, name :: announced, fit, ?_, hafter, hcount.trans hreceived, ?_, ?_⟩
          · rw [if_pos rfl, hall, List.set_set]
          · rw [hwritten, hsent, hfits, if_pos rfl, List.append_assoc]
            rfl
          · intro htrue
            rw [hend htrue]

/-- `announce` on an incarnation that was just attached. -/
theorem announce_eq (c : Config N) (hlive : s.live = some i)
    (hmine : s.incarnations[i]? = some mine) (hstream : mine.stream = true) (hsent : mine.sent = [])
    (hnamed : s.localHandlers ≠ []) :
    ∃ after : Incarnation N, after.stream = true ∧ after.received = mine.received ∧
      ((s.announce c i =
          ({ s with credit := none, incarnations := s.incarnations.set i after }, false) ∧
          tasksOf after.sent = []) ∨
        (s.announce c i =
          ({ s with credit := some c.permits, incarnations := s.incarnations.set i after }, true) ∧
          after.sent = s.localHandlers.map Sent.subscribe ++ [.credit c.permits])) := by
  obtain ⟨after, announced, fit, hall, hopen, hcount, hwritten, hend⟩ :=
    announceNames_eq (s := { s with credit := none }) c s.localHandlers hlive hmine hstream
  rw [hsent, List.nil_append] at hwritten
  have hsome : s.localHandlers.isEmpty = false := by simpa using hnamed
  unfold State.announce
  dsimp only
  rw [hall, hsome]
  cases fit with
  | false =>
      refine ⟨after, hopen, hcount, .inl ⟨rfl, ?_⟩⟩
      rw [hwritten, tasksOf_announced]
  | true =>
      refine ⟨{ after with sent := after.sent ++ [.credit c.permits] }, hopen, hcount,
        .inr ⟨?_, ?_⟩⟩
      · have hgrant := grant_eq (c := c)
          (s := { s with credit := none, incarnations := s.incarnations.set i after })
          hlive (getElem?_set_of_some hmine) hopen
        rw [List.set_set] at hgrant
        simp only [Bool.not_false, Bool.and_self, if_true, hgrant, Option.getD_none, zero_add]
      · rw [hwritten, hend rfl]

/-! ## What the actions do -/

theorem Inv.attach (hi : Inv c s) (hmine : s.incarnations[i]? = some mine)
    (hblank : mine.stream = false) (retryable : Bool) : Next c s (s.attach c i retryable) := by
  unfold State.attach
  split_ifs with hlive
  swap
  · exact hi.refl
  have hstarted : s.started = true := hi.begun (by rw [hlive]; nofun)
  obtain ⟨hsent, hreceived⟩ := (hi.kept hmine).blank hblank
  obtain ⟨after, hopen, hcount, hannounced⟩ :=
    announce_eq (s := { s with incarnations := s.incarnations.set i { mine with stream := true } })
      c
      hlive (getElem?_set_of_some hmine) rfl hsent (hi.named hstarted)
  have hkept : tasksOf after.sent = [] → Kept s.tasks i after := by
    intro hnone
    refine ⟨fun hshut => ?_, ?_, ?_⟩
    · rw [hopen] at hshut
      cases hshut
    · rw [hnone]
      exact List.nodup_nil
    · rw [hnone]
      nofun
  dsimp only
  rw [update_eq hmine]
  rcases hannounced with ⟨hannounce, hnone⟩ | ⟨hannounce, hwritten⟩
  · rw [hannounce, List.set_set]
    simp only [Bool.false_eq_true, if_false, State.fail, hlive, if_true]
    exact (hi.over hlive (hkept hnone)).trans fun h => h.failed rfl hstarted retryable
  · rw [hannounce, List.set_set]
    have hnone : tasksOf after.sent = [] := by
      rw [hwritten, tasksOf_append, tasksOf_announced]
      rfl
    have hnames : namesOf after.sent = s.localHandlers := by
      rw [hwritten, namesOf_append, namesOf_announced]
      exact List.append_nil _
    have hserving : Serving c
        { s with credit := some c.permits, incarnations := s.incarnations.set i after } after := by
      refine ⟨hnames ▸ hi.nodup, ?_, ?_, ?_⟩
      · intro _ name hname
        rw [hnames]
        exact hi.known hname
      · intro _
        refine ⟨c.permits, rfl, ?_, fun _ => by exact_mod_cast c.below⟩
        rw [hwritten, granted_append, granted_announced, hcount, hreceived]
        simp [granted]
      · intro hshut
        rw [hopen] at hshut
        cases hshut
    have hattached : Next c s
        { s with credit := some c.permits, incarnations := s.incarnations.set i after } :=
      hi.rewrite hlive rfl rfl rfl rfl rfl hi.known (fun h _ => h) (hkept hnone) hserving
    exact hattached.trans Inv.settle

theorem Inv.onAck (hi : Inv c s) (hlive : s.live = some i) (hmine : s.incarnations[i]? = some mine)
    (instruction : ℕ) (success : Bool) : Next c s (s.onAck i mine instruction success) := by
  unfold State.onAck
  split
  · have hanswered : Next c s
        { s with
          incarnations := s.incarnations.set i
            { mine with pending := mine.pending.erase instruction } } := by
      obtain ⟨_, hsame, h⟩ := hi.serving hlive
      rw [hmine] at hsame
      cases hsame
      have hkept := hi.kept hmine
      exact hi.rewrite hlive rfl rfl rfl rfl rfl hi.known (fun h _ => h)
        ⟨hkept.blank, hkept.once, hkept.answered⟩ ⟨h.nodup, h.announced, h.counted, h.uncounted⟩
    dsimp only
    rw [update_eq hmine]
    split
    · exact hanswered.trans Inv.settle
    · exact hanswered.trans Inv.refuse
  · exact hi.refl

/-- A command arrives: the count goes down by one, or is topped up. -/
theorem consumeCredit_eq (hlive : s.live = some i) (hmine : s.incarnations[i]? = some mine)
    (hstream : mine.stream = true) {credit : ℤ} (hcredit : s.credit = some credit) :
    ∃ (sent : List (Sent N)) (grants : ℕ),
      s.consumeCredit c i =
        { s with
          incarnations := s.incarnations.set i { mine with sent := mine.sent ++ sent }
          credit := some (credit - 1 + grants) } ∧
      namesOf sent = [] ∧ tasksOf sent = [] ∧ granted sent = grants ∧
      (s.shuttingDown = false → (c.threshold : ℤ) < credit →
        (c.threshold : ℤ) < credit - 1 + grants) := by
  unfold State.consumeCredit
  rw [hcredit]
  dsimp only
  split_ifs with hrefill
  · refine ⟨[.credit c.permits], c.permits, ?_, rfl, rfl, ?_, ?_⟩
    · exact grant_eq (s := { s with credit := some (credit - 1) }) hlive hmine hstream
    · simp [granted]
    · intro _ hwindow
      have hbelow := c.below
      omega
  · refine ⟨[], 0, ?_, rfl, rfl, rfl, ?_⟩
    · rw [List.append_nil, set_of_some hmine]
      simp
    · intro hup _
      rw [not_and_or, not_le] at hrefill
      rcases hrefill with hless | hdown
      · simpa using hless
      · exact absurd hup hdown

theorem Kept.write (h : Kept s.tasks i mine) (hstream : mine.stream = true) {sent : List (Sent N)}
    {tasks : List (Task N)} {received : ℕ} (hnone : tasksOf sent = [])
    (hdone : ∀ {k : ℕ} {task : Task N}, s.tasks[k]? = some task → task.done = true →
      tasks[k]? = some task) :
    Kept tasks i { mine with sent := mine.sent ++ sent, received := received } where
  blank := by
    intro hshut
    rw [hstream] at hshut
    cases hshut
  once := by
    rw [tasksOf_append, hnone, List.append_nil]
    exact h.once
  answered := by
    rw [tasksOf_append, hnone, List.append_nil]
    exact (h.mono hdone).answered

theorem Inv.onCommand [DecidableEq N] (hi : Inv c s) (hlive : s.live = some i)
    (hmine : s.incarnations[i]? = some mine) (hstream : mine.stream = true) (name : N)
    (admitted : Bool) :
    Next c s (s.onCommand c i name admitted) := by
  obtain ⟨_, hsame, h⟩ := hi.serving hlive
  rw [hmine] at hsame
  cases hsame
  obtain ⟨credit, hcredit, heq, hwindow⟩ := h.counted hstream
  have hset : (s.incarnations.set i { mine with received := mine.received + 1 })[i]? =
      some { mine with received := mine.received + 1 } := getElem?_set_of_some hmine
  obtain ⟨sent, grants, hconsumed, hnames, htasks, hgranted, hrefilled⟩ :=
    consumeCredit_eq (c := c) (s := { s with
      incarnations := s.incarnations.set i { mine with received := mine.received + 1 } })
      hlive hset hstream hcredit
  have hdone : ∀ {k : ℕ} {task : Task N}, s.tasks[k]? = some task → task.done = true →
      ∀ later, (s.tasks ++ [later])[k]? = some task :=
    fun htask _ _ => getElem?_append_of_some htask
  unfold State.onCommand
  rw [update_eq hmine, hconsumed, List.set_set]
  refine hi.rewrite hlive rfl rfl rfl rfl rfl hi.known (fun h k => hdone h k _)
    ((hi.kept hmine).write hstream htasks fun h k => hdone h k _) ?_
  refine ⟨?_, ?_, ?_, ?_⟩
  · rw [namesOf_append, hnames, List.append_nil]
    exact h.nodup
  · intro _
    rw [namesOf_append, hnames, List.append_nil]
    exact h.announced hstream
  · intro _
    refine ⟨_, rfl, ?_, fun hup => hrefilled hup (hwindow hup)⟩
    rw [granted_append, hgranted, heq]
    push_cast
    omega
  · intro hshut
    rw [hstream] at hshut
    cases hshut

theorem Inv.sink [DecidableEq N] (hi : Inv c s) (hlive : s.live = some i)
    (hmine : s.incarnations[i]? = some mine) (hstream : mine.stream = true) (frame : Frame N)
    (stable retryable : Bool) : Next c s (s.sink c i mine frame stable retryable) := by
  have hheard : Next c s (s.heard stable) := by
    unfold State.heard
    split_ifs
    · exact hi.quiet rfl rfl rfl rfl rfl rfl (fun h _ => h) id hi.idle
    · exact hi.refl
  have hsame : (s.heard stable).live = some i ∧ (s.heard stable).incarnations[i]? = some mine := by
    unfold State.heard
    split_ifs
    · exact ⟨hlive, hmine⟩
    · exact ⟨hlive, hmine⟩
  unfold State.sink
  cases frame with
  | ack instruction success =>
      exact hheard.trans fun h => h.onAck hsame.1 hsame.2 instruction success
  | command name admitted =>
      exact hheard.trans fun h => h.onCommand hsame.1 hsame.2 hstream name admitted
  | unreadable => exact hheard.trans fun h => h.fail i retryable
  | other => exact hheard

/-- A task that is not done is nobody's answer yet. -/
theorem Kept.not_mem (h : Kept s.tasks i mine) {k : ℕ} {task : Task N}
    (htask : s.tasks[k]? = some task) (hopen : task.done = false) : k ∉ tasksOf mine.sent := by
  intro hmem
  obtain ⟨other, hother, -, hdone⟩ := h.answered k hmem
  rw [htask] at hother
  cases hother
  rw [hopen] at hdone
  cases hdone

theorem Inv.answer (hi : Inv c s) {k : ℕ} {task : Task N} (htask : s.tasks[k]? = some task)
    (hopen : task.done = false) (outcome : Answer) (sent : Bool) :
    Next c s (s.answer k task outcome sent) := by
  have hkeep : ∀ {l : ℕ} {other : Task N}, s.tasks[l]? = some other → other.done = true →
      (s.tasks.set k { task with done := true })[l]? = some other := by
    intro l other hother hdone
    refine getElem?_set_of_ne ?_ hother
    rintro rfl
    rw [htask] at hother
    cases hother
    rw [hopen] at hdone
    cases hdone
  have hdone : Next c s { s with tasks := s.tasks.set k { task with done := true } } :=
    hi.quiet rfl rfl rfl rfl rfl rfl hkeep id hi.idle
  unfold State.answer
  dsimp only
  split
  swap
  · exact hdone
  by_cases hlive : s.live = some task.incarnation
  swap
  · rw [State.send, if_neg hlive]
    exact hdone
  obtain ⟨mine, hmine, h⟩ := hi.serving hlive
  cases hstream : mine.stream with
  | false =>
      rw [send_eq_self (s := { s with tasks := s.tasks.set k { task with done := true } })
        hmine hstream]
      exact hdone
  | true =>
      rw [send_eq (s := { s with tasks := s.tasks.set k { task with done := true } }) hlive
        hmine hstream]
      have hkept := hi.kept hmine
      refine hi.rewrite hlive rfl rfl rfl rfl rfl hi.known hkeep ?_ ?_
      · refine ⟨fun hshut => ?_, ?_, ?_⟩
        · rw [hstream] at hshut
          cases hshut
        · have hnew : k ∉ tasksOf mine.sent := hkept.not_mem htask hopen
          rw [tasksOf_append]
          exact List.concat_eq_append ▸ hkept.once.concat hnew
        · intro l hl
          rw [tasksOf_append] at hl
          rcases List.mem_append.mp hl with hold | hnew
          · exact (hkept.mono hkeep).answered l hold
          · rw [List.mem_singleton.mp hnew]
            exact ⟨{ task with done := true }, getElem?_set_of_some htask, rfl, rfl⟩
      · refine ⟨?_, ?_, ?_, h.uncounted⟩
        · rw [namesOf_append]
          simpa [namesOf] using h.nodup
        · rw [namesOf_append]
          simpa [namesOf] using h.announced
        · rw [granted_append]
          simpa [granted] using h.counted

theorem session_eq_some (h : s.session = some i) :
    s.live = some i ∧ ∃ mine, s.incarnations[i]? = some mine ∧ mine.stream = true := by
  unfold State.session at h
  split_ifs at h with hopen
  obtain ⟨mine, hmine, hstream⟩ := (Option.any_eq_true _ _).mp hopen
  obtain ⟨j, hlive, hget⟩ := Option.bind_eq_some_iff.mp hmine
  rw [h] at hlive
  cases hlive
  exact ⟨h, mine, hget, hstream⟩

theorem session_eq_none (h : s.session = none) (hlive : s.live = some i)
    (hmine : s.incarnations[i]? = some mine) : mine.stream = false := by
  unfold State.session at h
  split_ifs at h with hopen
  · rw [hlive] at h
    cases h
  · simpa [State.liveIncarnation, hlive, hmine] using hopen

/-- One more name the bus has a handler for. -/
theorem Inv.handlers (hi : Inv c s) {handlers : List N} (hnodup : handlers.Nodup)
    (hmore : s.localHandlers ⊆ handlers) (hnamed : handlers ≠ []) :
    Next c s { s with localHandlers := handlers } where
  inv :=
    { hi with
      serving := by
        intro i hlive
        obtain ⟨mine, hmine, h⟩ := hi.serving hlive
        exact ⟨mine, hmine, h.nodup, h.announced, h.counted, h.uncounted⟩
      nodup := hnodup
      known := List.Subset.trans hi.known hmore
      named := fun _ => hnamed }
  gone := Gone.refl s

/-- A name is subscribed while no incarnation is open. -/
theorem Inv.noted (hi : Inv c s) {name : N} (hname : name ∈ s.localHandlers)
    (hnone : s.session = none) :
    Next c s { s with subscribed := s.subscribed ++ [name] } where
  inv :=
    { hi with
      serving := by
        intro i hlive
        obtain ⟨mine, hmine, h⟩ := hi.serving hlive
        have hblank : mine.stream = false := session_eq_none hnone hlive hmine
        refine ⟨mine, hmine, h.nodup, fun hopen => ?_, h.counted, h.uncounted⟩
        rw [hblank] at hopen
        cases hopen
      known := by
        intro other hother
        rcases List.mem_append.mp hother with hold | hnew
        · exact hi.known hold
        · rw [List.mem_singleton.mp hnew]
          exact hname }
  gone := Gone.refl s

/-- A name is subscribed on the open incarnation. -/
theorem Inv.subscribedOn (hi : Inv c s) {name : N} (hname : name ∈ s.localHandlers)
    (hlive : s.live = some i) (hmine : s.incarnations[i]? = some mine)
    (hstream : mine.stream = true) (hnew : name ∉ namesOf mine.sent) {t : State N}
    (ht : t = if c.fits name then
        { s.subscribeOn c i name with subscribed := (s.subscribeOn c i name).subscribed ++ [name] }
      else s.subscribeOn c i name) :
    Next c s t := by
  obtain ⟨after, hafter, hopen, hreceived, hsent⟩ :=
    instruct_eq hlive hmine hstream (.subscribe name) (c.fits name)
  obtain ⟨_, hsame, h⟩ := hi.serving hlive
  rw [hmine] at hsame
  cases hsame
  have hkept := hi.kept hmine
  rw [State.subscribeOn, hafter] at ht
  cases hfits : c.fits name with
  | false =>
      rw [hfits] at ht hsent
      subst ht
      refine hi.rewrite hlive rfl rfl rfl rfl rfl hi.known (fun h _ => h) ?_ ?_
      · refine ⟨fun hshut => ?_, hsent ▸ hkept.once, hsent ▸ hkept.answered⟩
        rw [hopen] at hshut
        cases hshut
      · refine ⟨hsent ▸ h.nodup, fun _ => hsent ▸ h.announced hstream, ?_, fun hshut => ?_⟩
        · intro _
          rw [hreceived, hsent]
          exact h.counted hstream
        · rw [hopen] at hshut
          cases hshut
  | true =>
      rw [hfits, if_pos rfl] at ht hsent
      subst ht
      have hnames : namesOf after.sent = namesOf mine.sent ++ [name] := by
        rw [hsent, namesOf_append]
        rfl
      refine hi.rewrite hlive rfl rfl rfl rfl rfl ?_ (fun h _ => h) ?_ ?_
      · intro other hother
        rcases List.mem_append.mp hother with hold | hlast
        · exact hi.known hold
        · rw [List.mem_singleton.mp hlast]
          exact hname
      · have htasks : tasksOf after.sent = tasksOf mine.sent := by
          rw [hsent, tasksOf_append]
          exact List.append_nil _
        refine ⟨fun hshut => ?_, htasks ▸ hkept.once, htasks ▸ hkept.answered⟩
        rw [hopen] at hshut
        cases hshut
      · refine ⟨?_, ?_, ?_, fun hshut => ?_⟩
        · rw [hnames, ← List.concat_eq_append]
          exact h.nodup.concat hnew
        · intro _ other hother
          rw [hnames]
          rcases List.mem_append.mp hother with hold | hlast
          · exact List.mem_append_left _ (h.announced hstream other hold)
          · exact List.mem_append_right _ hlast
        · intro _
          rw [hreceived, hsent, granted_append]
          simpa [granted] using h.counted hstream
        · rw [hopen] at hshut
          cases hshut

theorem Inv.timerFires (hi : Inv c s) (htimer : s.timer = true) : Next c s s.timerFires := by
  obtain ⟨hlive, hstarted⟩ := hi.idle htimer
  have hstopped : Next c s { s with timer := false } :=
    hi.quiet rfl rfl rfl rfl rfl rfl (fun h _ => h) id nofun
  unfold State.timerFires
  split_ifs
  · exact hstopped
  · exact hstopped.trans fun h => h.opened (hi.credit hlive) rfl (hi.named hstarted)

theorem Inv.close (hi : Inv c s) : Next c s s.close := by
  have hclosed : Next c s { s.abandon with closed := true, stopped := true, timer := false } :=
    hi.abandon.trans fun h => h.quiet rfl rfl rfl rfl rfl rfl (fun h _ => h) id nofun
  exact hclosed.trans Inv.refuse

theorem Inv.counted (hi : Inv c s) {credit : ℤ}
    (hcredit : s.credit = some credit) :
    ∃ i mine, s.live = some i ∧ s.incarnations[i]? = some mine ∧
      credit = (granted mine.sent : ℤ) - mine.received ∧
      (s.shuttingDown = false → (c.threshold : ℤ) < credit) := by
  cases hlive : s.live with
  | none =>
      rw [hi.credit hlive] at hcredit
      cases hcredit
  | some i =>
      obtain ⟨mine, hmine, h⟩ := hi.serving hlive
      cases hstream : mine.stream with
      | false =>
          rw [h.uncounted hstream] at hcredit
          cases hcredit
      | true =>
          obtain ⟨same, hsame, heq, hwindow⟩ := h.counted hstream
          rw [hcredit] at hsame
          cases hsame
          exact ⟨i, mine, rfl, hmine, heq, hwindow⟩

variable [DecidableEq N]

theorem Inv.subscribe (hi : Inv c s) (name : N) (accepted : Bool)
    (hok : steady s (.subscribe name accepted) = true) :
    Next c s (s.subscribe c name accepted) := by
  have hname :
      name ∈ (if name ∈ s.localHandlers then s.localHandlers else s.localHandlers ++ [name]) := by
    split_ifs with hmem
    · exact hmem
    · exact List.mem_append_right _ List.mem_cons_self
  have hnodup : (if name ∈ s.localHandlers then s.localHandlers
      else s.localHandlers ++ [name]).Nodup := by
    split_ifs with hmem
    · exact hi.nodup
    · rw [← List.concat_eq_append]
      exact hi.nodup.concat hmem
  have hmore : s.localHandlers ⊆ (if name ∈ s.localHandlers then s.localHandlers
      else s.localHandlers ++ [name]) := by
    split_ifs
    · exact List.Subset.refl _
    · exact List.subset_append_left _ _
  unfold State.subscribe
  generalize (if name ∈ s.localHandlers then s.localHandlers else s.localHandlers ++ [name]) =
    handlers at hname hnodup hmore
  have hnamed : handlers ≠ [] := List.ne_nil_of_mem hname
  have hadded : Next c s { s with localHandlers := handlers } := hi.handlers hnodup hmore hnamed
  dsimp only
  cases accepted with
  | false => exact hadded
  | true =>
      simp only [if_true]
      cases hsession : s.session with
      | none =>
          have hnone : State.session { s with localHandlers := handlers } = none := hsession
          rw [hnone]
          have hnoted := hadded.trans fun h => h.noted hname hnone
          dsimp only
          split_ifs with hstarted
          · exact hnoted
          · refine hnoted.trans fun h => h.opened ?_ ?_ hnamed
            · refine hi.credit ?_
              by_contra hlive
              exact hstarted (hi.begun hlive)
            · cases htimer : s.timer with
              | false => rfl
              | true => exact absurd (hi.idle htimer).2 hstarted
      | some i =>
          have hsome : State.session { s with localHandlers := handlers } = some i := hsession
          rw [hsome]
          obtain ⟨hlive, mine, hmine, hstream⟩ := session_eq_some hsession
          have hnew : name ∉ namesOf mine.sent := by
            simpa [steady, hsession, State.liveIncarnation, hlive, hmine] using hok
          refine hadded.trans fun h => h.subscribedOn hname hlive hmine hstream hnew ?_
          obtain ⟨_, hsame, hserving⟩ := h.serving hlive
          rw [hmine] at hsame
          cases hsame
          obtain ⟨credit, hcredit, -⟩ := hserving.counted hstream
          obtain ⟨after, hafter, -⟩ := instruct_eq
            (s := { s with localHandlers := handlers }) hlive hmine hstream (.subscribe name)
              (c.fits name)
          have hcounted : s.credit = some credit := hcredit
          dsimp only
          rw [State.subscribeOn, hafter, hcounted]
          rfl

theorem Inv.restart (hi : Inv c s) (hok : steady s .restart = true) : Next c s s.restart := by
  unfold State.restart
  split_ifs with hstays
  · exact hi.refl
  · simp only [Bool.or_eq_true, not_or, Bool.not_eq_true', Bool.not_eq_false] at hstays
    have hcredit : s.credit = none := by
      simpa [steady, hstays] using hok
    have hstopped : Next c s { s with timer := false, attempts := 0 } :=
      hi.quiet rfl rfl rfl rfl rfl rfl (fun h _ => h) id nofun
    exact hstopped.trans fun h => h.opened hcredit rfl (hi.named hstays.1.1.2)

theorem step_next {a : Action N} (hi : Inv c s) (hok : steady s a = true)
    (h : step c s a = some t) :
    Next c s t := by
  cases a with
  | subscribe name accepted =>
      cases h
      exact hi.subscribe name accepted hok
  | attach i retryable =>
      simp only [step] at h
      split at h
      · cases h
      case h_2 mine hmine =>
        split_ifs at h with hstream
        cases h
        exact hi.attach hmine (Bool.eq_false_iff.mpr hstream) retryable
  | fail i retryable =>
      cases h
      exact hi.fail i retryable
  | frame i frame stable retryable =>
      simp only [step] at h
      split at h
      · cases h
      case h_2 mine hmine =>
        split_ifs at h with hlive hstream
        · cases h
          exact hi.sink hlive hmine hstream frame stable retryable
        · cases h
          exact hi.refl
  | answer k outcome sent =>
      simp only [step] at h
      split at h
      · cases h
      case h_2 task htask =>
        split_ifs at h with hdone
        cases h
        exact hi.answer htask (Bool.eq_false_iff.mpr hdone) outcome sent
  | acknowledged =>
      cases h
      exact hi.quiet rfl rfl rfl rfl rfl rfl (fun h _ => h) id hi.idle
  | abandon =>
      cases h
      exact hi.abandon
  | restart =>
      cases h
      exact hi.restart hok
  | timer =>
      simp only [step] at h
      split_ifs at h with htimer
      cases h
      exact hi.timerFires htimer
  | close =>
      cases h
      exact hi.close
  | shutdown =>
      cases h
      exact hi.quiet rfl rfl rfl rfl rfl rfl (fun h _ => h) (fun _ => rfl) nofun
  | connection connected =>
      cases h
      exact hi.quiet rfl rfl rfl rfl rfl rfl (fun h _ => h) id hi.idle

end Steps


/-! ## Every run -/

section Runs
variable [DecidableEq N]

/-- What holds in a state in which no two incarnations were taken for one another. -/
structure Apart (c : Config N) (s : State N) : Prop where
  /-- What the server sends on an incarnation that is not live changes nothing. -/
  deaf : ∀ i frame stable retryable t, s.live ≠ some i →
    step c s (.frame i frame stable retryable) = some t → t = s
  /-- One that is not live is never live again, and nothing more is written on it. -/
  gone : ∀ t, Reach (step c) (fun s a => steady s a = true) s t → ∀ i < s.incarnations.length,
    s.live ≠ some i → t.live ≠ some i ∧ t.incarnations[i]? = s.incarnations[i]?
  /-- A command is answered where it arrived, at most once. -/
  answered : ∀ i mine, s.incarnations[i]? = some mine → (tasksOf mine.sent).Nodup ∧
    ∀ k ∈ tasksOf mine.sent, ∃ task : Task N, s.tasks[k]? = some task ∧ task.incarnation = i
  /-- Every name subscribed so far is announced once on the open incarnation. -/
  announced : ∀ i mine, s.live = some i → s.incarnations[i]? = some mine → mine.stream = true →
    ∀ name ∈ s.subscribed, (namesOf mine.sent).count name = 1
  /-- The count, when set, is what was granted and not used on the live incarnation. -/
  credit : ∀ credit, s.credit = some credit → ∃ i mine, s.live = some i ∧
    s.incarnations[i]? = some mine ∧ credit = (granted mine.sent : ℤ) - mine.received
  /-- It is above the threshold until the bus shuts down. -/
  window : ∀ credit, s.credit = some credit → s.shuttingDown = false → (c.threshold : ℤ) < credit

theorem next_of_reach {c : Config N} {s t : State N} (hi : Inv c s)
    (h : Reach (step c) (fun s a => steady s a = true) s t) : Next c s t := by
  induction h with
  | start => exact hi.refl
  | next _ hok hstep ih => exact ih.trans fun h => step_next h hok hstep

/-- A frame of an incarnation that is not live has no effect, in any state. -/
theorem step_frame_not_live {c : Config N} {s t : State N} {i : ℕ} {frame : Frame N}
    {stable retryable : Bool} (hlive : s.live ≠ some i)
    (h : step c s (.frame i frame stable retryable) = some t) : t = s := by
  simp only [step] at h
  split at h
  · cases h
  · rw [if_neg hlive] at h
    cases h
    rfl

theorem incarnations_apart (c : Config N) {s : State N}
    (h : Reach (step c) (fun s a => steady s a = true) (initial N) s) : Apart c s := by
  have hi : Inv c s := (next_of_reach (inv_initial c) h).inv
  refine ⟨?_, ?_, ?_, ?_, ?_, ?_⟩
  · intro i frame stable retryable t hlive hstep
    exact step_frame_not_live hlive hstep
  · intro t hreach i hlt hlive
    obtain ⟨-, hstill, hsame⟩ := (next_of_reach hi hreach).gone i hlt hlive
    exact ⟨hstill, hsame⟩
  · intro i mine hmine
    refine ⟨(hi.kept hmine).once, ?_⟩
    intro k hk
    obtain ⟨task, htask, hin, -⟩ := (hi.kept hmine).answered k hk
    exact ⟨task, htask, hin⟩
  · intro i mine hlive hmine hstream name hname
    obtain ⟨_, hsame, hserving⟩ := hi.serving hlive
    rw [hmine] at hsame
    cases hsame
    exact List.count_eq_one_of_mem hserving.nodup (hserving.announced hstream name hname)
  · intro credit hcredit
    obtain ⟨i, mine, hlive, hmine, heq, -⟩ := hi.counted hcredit
    exact ⟨i, mine, hlive, hmine, heq⟩
  · intro credit hcredit hup
    obtain ⟨_, _, -, -, -, hwindow⟩ := hi.counted hcredit
    exact hwindow hup

end Runs

/-- Two credits at a time, topped up when none is left. -/
def small : Config ℕ := ⟨⟨2, 0, by decide⟩, fun _ => true, 30⟩

/-- A command arrives on the first incarnation, which fails; the second is open when
the handler finishes, and gets no answer to it. -/
theorem apart_after_failure :
    ∃ s, Apart small s ∧ s.live = some 1 ∧ s.credit = some 2 ∧
      (s.incarnations.map fun mine => mine.sent) =
        [[.subscribe 7, .credit 2], [.subscribe 7, .credit 2, .subscribe 8]] := by
  obtain ⟨s, hs, hlive, hcredit, hsent⟩ := reach_guarded_any (s := initial ℕ)
    (P := fun s => s.live = some 1 ∧ s.credit = some 2 ∧
      (s.incarnations.map fun mine => mine.sent) =
        [[.subscribe 7, .credit 2], [.subscribe 7, .credit 2, .subscribe 8]])
    (show ((exec (guarded (step small) fun s a => steady s a = true) (initial ℕ)
      [.subscribe 7 true, .attach 0 true, .frame 0 (.ack 1 true) false true,
        .frame 0 (.command 7 true) false true, .fail 0 true, .timer, .attach 1 true,
        .subscribe 8 true, .answer 0 .result true]).any fun s => decide _) = true by decide +kernel)
  exact ⟨s, incarnations_apart small hs, hlive, hcredit, hsent⟩

/-- A restart replaces an open incarnation: the count of the old one stands while
nothing was granted on the new one. And a name subscribed twice on an open
incarnation is announced twice. -/
theorem credit_of_the_old_incarnation :
    (∃ s, Reach (step small) always (initial ℕ) s ∧ s.credit = some 2 ∧
      s.liveIncarnation = some ⟨false, [], 0, [], 0⟩) ∧
    ∃ s, Reach (step small) always (initial ℕ) s ∧ s.subscribed = [7, 7] ∧
      ∃ mine : Incarnation ℕ, s.liveIncarnation = some mine ∧ (namesOf mine.sent).count 7 = 2 := by
  refine ⟨?_, ?_⟩
  · exact reach_exec_any (s := initial ℕ)
      (P := fun s => s.credit = some 2 ∧ s.liveIncarnation = some ⟨false, [], 0, [], 0⟩)
      (show ((exec (step small) (initial ℕ) [.subscribe 7 true, .attach 0 true, .restart]).any
        fun s => decide _) = true by decide +kernel)
  · obtain ⟨s, hs, hsubscribed, hcount⟩ := reach_exec_any (s := initial ℕ)
      (P := fun s => s.subscribed = [7, 7] ∧
        (s.liveIncarnation.any fun mine => (namesOf mine.sent).count 7 == 2) = true)
      (show ((exec (step small) (initial ℕ)
        [.subscribe 7 true, .attach 0 true, .subscribe 7 true]).any fun s => decide _) = true by
        decide +kernel)
    obtain ⟨mine, hmine, htwice⟩ := (Option.any_eq_true _ _).mp hcount
    exact ⟨s, hs, hsubscribed, mine, hmine, beq_iff_eq.mp htwice⟩

end Kronos.KronosDb.HandlerStream
