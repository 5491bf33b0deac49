import Mathlib.Data.List.Nodup
import Kronos.QueryHandling.LocalQueryBus

/-!
# Updates reach the subscribers they are for

A task reaches the subscriptions of its name that its filter accepts and that
were opened before the one its filter threw at. A subscription gets the updates
of the tasks that reached it, in the order in which they ran, for as long as it is
registered. An open subscription is registered unless another of its identifier
was closed meanwhile: `close` removes by the identifier.
-/
namespace Kronos.QueryHandling.LocalQueryBus
open Kronos.Lib.OrderedMap Kronos.Lib.Slots Kronos.Lib.Transition
open UpdateHandler (Handler How acceptedIn yieldedIn endedBy Kept Ends kept_next offer_cases
  ends_complete ends_completeExceptionally ends_returns completeExceptionally_trace)

/-! ## One subscription -/

variable {I N P α ε : Type} [DecidableEq N]

/-- Whether the task that ran reached the subscription `k`. -/
def Ran.reaches (k : ℕ) (query : QueryMessage I N P) (r : Ran N P α ε) : Bool :=
  r.task.asks query == some true && r.thrownAt.all (k < ·)

def Kind.update : Kind α ε → Option α
  | .emitUpdate update => some update
  | _ => none

/-- The updates that reached the subscription `k` since it was opened, in the order in which they
were emitted. -/
def updatesFor (k : ℕ) (sub : Subscription I N P α ε) (ran : List (Ran N P α ε)) : List α :=
  (ran.drop sub.since).filterMap fun r => if r.reaches k sub.query then r.task.kind.update else none

/-- Some task of this kind reached the subscription `k` since it was opened. -/
def Reached (k : ℕ) (sub : Subscription I N P α ε) (ran : List (Ran N P α ε))
    (kind : Kind α ε) : Prop :=
  ∃ r ∈ ran.drop sub.since, r.reaches k sub.query = true ∧ r.task.kind = kind

/-- When the overflow ended the handler, `bufferSize` accepted updates were unread. -/
def FullAtOverflow (bufferSize : ℕ) (trace : List (UpdateHandler.Event α (Failure ε))) : Prop :=
  ∃ before, before ++ [.completed (.completeExceptionally .overflow)] <+: trace ∧
    (acceptedIn before).length = (yieldedIn before).length + bufferSize

/-- What a subscription may be ended by; an overflow refused an update that reached it. -/
def Caused (k : ℕ) (ran : List (Ran N P α ε)) (sub : Subscription I N P α ε) :
    How (Failure ε) → Prop
  | .return => True
  | .complete => sub.closed = true ∨ Reached k sub ran .completeSubscription
  | .completeExceptionally .overflow => FullAtOverflow sub.bufferSize sub.handler.trace ∧
      (acceptedIn sub.handler.trace).length < (updatesFor k sub ran).length
  | .completeExceptionally (.failed error) =>
      sub.initial = some (.rejected error) ∨
        Reached k sub ran (.completeSubscriptionExceptionally error)

structure Sound (k : ℕ) (ran : List (Ran N P α ε)) (sub : Subscription I N P α ε) : Prop where
  handler : ∃ reads, UpdateHandler.Inv sub.bufferSize reads sub.handler
  since : sub.since ≤ ran.length
  order : acceptedIn sub.handler.trace <+: updatesFor k sub ran
  caused : ∀ how, endedBy sub.handler.trace = some how → Caused k ran sub how

/-- The subscription has all that reached it, and nothing that reached it was to end it. -/
structure Current (k : ℕ) (ran : List (Ran N P α ε)) (sub : Subscription I N P α ε) : Prop where
  active : sub.handler.completed = false
  whole : acceptedIn sub.handler.trace = updatesFor k sub ran
  emitted : ∀ r ∈ ran.drop sub.since, r.reaches k sub.query = true → r.task.kind.emits = true

section One
variable {k : ℕ} {ran : List (Ran N P α ε)} {sub : Subscription I N P α ε} {r : Ran N P α ε}

omit [DecidableEq N] in
theorem drop_concat (hsince : sub.since ≤ ran.length) :
    (ran ++ [r]).drop sub.since = ran.drop sub.since ++ [r] :=
  List.drop_append_of_le_length hsince

theorem updatesFor_concat (hsince : sub.since ≤ ran.length) :
    updatesFor k sub (ran ++ [r]) =
      updatesFor k sub ran ++
      (if r.reaches k sub.query then r.task.kind.update else none).toList := by
  unfold updatesFor
  rw [drop_concat hsince, List.filterMap_append]
  congr 1

theorem updatesFor_concat_of_not (hsince : sub.since ≤ ran.length)
    (h : r.reaches k sub.query = false) :
    updatesFor k sub (ran ++ [r]) = updatesFor k sub ran := by
  rw [updatesFor_concat hsince, h]
  exact List.append_nil _

theorem Reached.concat {kind : Kind α ε} (hsince : sub.since ≤ ran.length)
    (h : Reached k sub ran kind) :
    Reached k sub (ran ++ [r]) kind := by
  obtain ⟨earlier, hmem, hreaches⟩ := h
  exact ⟨earlier, drop_concat hsince ▸ List.mem_append_left _ hmem, hreaches⟩

theorem Caused.concat {how : How (Failure ε)} (hsince : sub.since ≤ ran.length)
    (h : Caused k ran sub how) :
    Caused k (ran ++ [r]) sub how := by
  cases how with
  | «return» => trivial
  | complete => exact h.imp_right fun hreached => hreached.concat hsince
  | completeExceptionally failure =>
      cases failure with
      | failed error => exact h.imp_right fun hreached => hreached.concat hsince
      | overflow =>
          refine ⟨h.1, Nat.lt_of_lt_of_le h.2 ?_⟩
          rw [updatesFor_concat hsince, List.length_append]
          exact Nat.le_add_right _ _

/-- One more task ran. -/
theorem Sound.concat (h : Sound k ran sub) (r : Ran N P α ε) : Sound k (ran ++ [r]) sub := by
  refine ⟨h.handler, ?_, ?_, fun how hended => (h.caused how hended).concat h.since⟩
  · rw [List.length_append]
    exact Nat.le_add_right_of_le h.since
  · rw [updatesFor_concat h.since]
    exact h.order.trans (List.prefix_append _ _)

theorem Current.concat_of_not (hc : Current k ran sub) (h : Sound k ran sub)
    (hnot : r.reaches k sub.query = false) :
    Current k (ran ++ [r]) sub := by
  refine ⟨hc.active, hc.whole.trans (updatesFor_concat_of_not h.since hnot).symm,
    fun other hother hreaches => ?_⟩
  rw [drop_concat h.since] at hother
  rcases List.mem_append.mp hother with hearlier | hnow
  · exact hc.emitted other hearlier hreaches
  · rw [List.mem_singleton.mp hnow, hnot] at hreaches
    cases hreaches

omit [DecidableEq N] in
theorem rejected_change (f : Handler α (Failure ε) → Handler α (Failure ε)) {error : ε}
    (h : sub.initial = some (.rejected error)) :
    (sub.change f).initial = some (.rejected error) := by
  unfold Subscription.change
  dsimp only
  rw [h]
  exact ite_self _

theorem FullAtOverflow.mono {bufferSize : ℕ} {trace more : List (UpdateHandler.Event α (Failure ε))}
    (h : FullAtOverflow bufferSize trace) (hmore : trace <+: more) :
    FullAtOverflow bufferSize more := by
  obtain ⟨before, hbefore, hfull⟩ := h
  exact ⟨before, hbefore.trans hmore, hfull⟩

/-- A buffer that refuses an update while it is open is full of unread ones. -/
theorem fullAtOverflow {bufferSize reads : ℕ} {handler : Handler α (Failure ε)}
    (hinv : UpdateHandler.Inv bufferSize reads handler) (hopen : handler.completed = false)
    (hfull : bufferSize ≤ handler.buffer.length) :
    FullAtOverflow bufferSize (handler.completeExceptionally .overflow).trace := by
  refine ⟨handler.trace, completeExceptionally_trace hopen _, ?_⟩
  rw [hinv.core.queue (hinv.core.not_ended hopen).2.2, List.length_append,
    Nat.le_antisymm hinv.bounded hfull]

/-- What ended a subscription before still tells why after a call that accepts nothing. -/
theorem Caused.change {f : Handler α (Failure ε) → Handler α (Failure ε)} {how : How (Failure ε)}
    (htrace : sub.handler.trace <+: (f sub.handler).trace)
    (haccepted : acceptedIn (f sub.handler).trace = acceptedIn sub.handler.trace)
    (h : Caused k ran sub how) : Caused k ran (sub.change f) how := by
  cases how with
  | «return» => trivial
  | complete => exact h
  | completeExceptionally failure =>
      cases failure with
      | failed error => exact h.imp_left (rejected_change f)
      | overflow =>
          refine ⟨h.1.mono htrace, ?_⟩
          show (acceptedIn (f sub.handler).trace).length < (updatesFor k sub ran).length
          rw [haccepted]
          exact h.2

theorem Sound.kept (h : Sound k ran sub) {f : Handler α (Failure ε) → Handler α (Failure ε)}
    (hinv : ∃ reads, UpdateHandler.Inv sub.bufferSize reads (f sub.handler))
    (hkept : Kept sub.handler (f sub.handler)) :
    Sound k ran (sub.change f) := by
  refine ⟨hinv, h.since, ?_, fun how hended =>
    .change hkept.trace hkept.accepted (h.caused how (hkept.ended ▸ hended))⟩
  show acceptedIn (f sub.handler).trace <+: updatesFor k sub ran
  rw [hkept.accepted]
  exact h.order

theorem Sound.ends (h : Sound k ran sub) {f : Handler α (Failure ε) → Handler α (Failure ε)}
    {how : How (Failure ε)} (hinv : ∃ reads, UpdateHandler.Inv sub.bufferSize reads (f sub.handler))
    (hends : Ends how sub.handler (f sub.handler)) (hcaused : Caused k ran (sub.change f) how) :
    Sound k ran (sub.change f) := by
  refine ⟨hinv, h.since, ?_, fun how' hended => ?_⟩
  · show acceptedIn (f sub.handler).trace <+: updatesFor k sub ran
    rw [hends.accepted]
    exact h.order
  · rcases hends.cases hended with hbefore | rfl
    · exact .change hends.trace hends.accepted (h.caused how' hbefore)
    · exact hcaused

/-- What a task of this kind does to the handler of a subscription it means. -/
def Kind.act (kind : Kind α ε) (bufferSize : ℕ) (handler : Handler α (Failure ε)) :
    Handler α (Failure ε) :=
  match kind with
  | .emitUpdate update =>
      if (handler.offer bufferSize update).2 then (handler.offer bufferSize update).1
      else handler.completeExceptionally .overflow
  | .completeSubscription => handler.complete
  | .completeSubscriptionExceptionally error => handler.completeExceptionally (.failed error)

def Subscription.after (sub : Subscription I N P α ε) (task : Task N P α ε) :
    Subscription I N P α ε :=
  if task.asks sub.query = some true then sub.change (task.kind.act sub.bufferSize) else sub

omit [DecidableEq N] in
/-- An update is accepted, or ends the subscription, which was over or full. -/
theorem act_emitUpdate (handler : Handler α (Failure ε)) (bufferSize : ℕ) (update : α) :
    ((Kind.emitUpdate update : Kind α ε).act bufferSize handler =
      (handler.offer bufferSize update).1 ∧
      (handler.offer bufferSize update).1.completed = handler.completed ∧
      acceptedIn (handler.offer bufferSize update).1.trace = acceptedIn handler.trace ++ [update] ∧
      endedBy (handler.offer bufferSize update).1.trace = endedBy handler.trace) ∨
    (handler.completed = true ∨ bufferSize ≤ handler.buffer.length) ∧
      (Kind.emitUpdate update : Kind α ε).act bufferSize handler =
        handler.completeExceptionally .overflow := by
  rcases offer_cases handler bufferSize update with ⟨-, -, htook, hrest⟩ | ⟨hover, hrefused⟩
  · exact .inl ⟨if_pos htook, hrest⟩
  · refine .inr ⟨hover, if_neg ?_⟩
    rw [hrefused]
    exact Bool.false_ne_true

theorem Sound.reached (h : Sound k ran sub) (hc : Current k ran sub)
    (hreaches : r.reaches k sub.query = true) :
    Sound k (ran ++ [r]) (sub.change (r.task.kind.act sub.bufferSize)) ∧
      ((r.task.kind.act sub.bufferSize sub.handler).completed = false →
        Current k (ran ++ [r]) (sub.change (r.task.kind.act sub.bufferSize))) := by
  obtain ⟨reads, hinv⟩ := h.handler
  have hlater := h.concat r
  have hhere : Reached k sub (ran ++ [r]) r.task.kind :=
    ⟨r, drop_concat h.since ▸ List.mem_append_right _ List.mem_cons_self, hreaches, rfl⟩
  have hupdates := updatesFor_concat (r := r) (k := k) h.since
  rw [if_pos hreaches] at hupdates
  cases hkind : r.task.kind with
  | completeSubscription =>
      rw [hkind] at hhere
      exact ⟨hlater.ends ⟨reads, hinv.complete⟩ ends_complete (.inr hhere),
        fun hactive => absurd (ends_complete.completed.symm.trans hactive) nofun⟩
  | completeSubscriptionExceptionally error =>
      rw [hkind] at hhere
      exact ⟨hlater.ends ⟨reads,
        hinv.completeExceptionally _⟩ (ends_completeExceptionally _) (.inr hhere),
        fun hactive => absurd ((ends_completeExceptionally _).completed.symm.trans hactive) nofun⟩
  | emitUpdate update =>
      rw [hkind] at hupdates
      generalize hact : (Kind.emitUpdate update : Kind α ε).act sub.bufferSize = f
      rcases act_emitUpdate (ε := ε) sub.handler sub.bufferSize update with
        ⟨htook, -, haccepted, hended⟩ | ⟨hover, hrefused⟩
      · rw [hact] at htook
        have hwhole : acceptedIn (f sub.handler).trace = updatesFor k sub (ran ++ [r]) := by
          rw [htook, haccepted, hc.whole, hupdates]
          rfl
        refine ⟨⟨⟨reads, ?_⟩, hlater.since, ?_, ?_⟩, fun hactive => ⟨hactive, hwhole, ?_⟩⟩
        · show UpdateHandler.Inv sub.bufferSize reads (f sub.handler)
          rw [htook]
          exact hinv.offer update
        · show acceptedIn (f sub.handler).trace <+: updatesFor k sub (ran ++ [r])
          rw [hwhole]
        · intro how hended'
          change endedBy (f sub.handler).trace = some how at hended'
          rw [htook, hended, (hinv.core.not_ended hc.active).1] at hended'
          cases hended'
        · intro other hother hreached
          change other ∈ (ran ++ [r]).drop sub.since at hother
          rw [drop_concat h.since] at hother
          rcases List.mem_append.mp hother with hearlier | hnow
          · exact hc.emitted other hearlier hreached
          · rw [List.mem_singleton.mp hnow, hkind]
            rfl
      · rw [hact] at hrefused
        have hends : Ends (.completeExceptionally .overflow) sub.handler (f sub.handler) := by
          rw [hrefused]
          exact ends_completeExceptionally _
        refine ⟨hlater.ends ⟨reads, ?_⟩ hends ?_, fun hactive => ?_⟩
        · rw [hrefused]
          exact hinv.completeExceptionally _
        · have hfull := hover.resolve_left (Bool.eq_false_iff.mp hc.active)
          refine ⟨?_, ?_⟩
          · show FullAtOverflow sub.bufferSize (f sub.handler).trace
            rw [hrefused]
            exact fullAtOverflow hinv hc.active hfull
          · show (acceptedIn (f sub.handler).trace).length < (updatesFor k sub (ran ++ [r])).length
            rw [hends.accepted, hc.whole, hupdates, List.length_append]
            exact Nat.lt_add_one _
        · rw [hends.completed] at hactive
          cases hactive

/-- A subscription that is current, after a task that came to its turn. -/
theorem Sound.after (h : Sound k ran sub) (hc : Current k ran sub) {task : Task N P α ε}
    {thrownAt : Option ℕ} (hbefore : ∀ i ∈ thrownAt, k < i) :
    Sound k (ran ++ [⟨task, thrownAt⟩]) (sub.after task) ∧
      ((sub.after task).handler.completed = false →
        Current k (ran ++ [⟨task, thrownAt⟩]) (sub.after task)) := by
  unfold Subscription.after
  split_ifs with hasks
  · refine h.reached (r := ⟨task, thrownAt⟩) hc ?_
    rw [Ran.reaches, hasks, beq_self_eq_true, Bool.true_and, Option.all_eq_true]
    exact fun i hi => decide_eq_true (hbefore i hi)
  · refine ⟨h.concat _, fun _ => hc.concat_of_not h ?_⟩
    simp [Ran.reaches, hasks]

theorem Sound.settle (h : Sound k ran sub) (hpending : sub.initial = some .pending)
    (initial : Initial ε) :
    Sound k ran { sub with initial := some initial } := by
  refine ⟨h.handler, h.since, h.order, fun how hended => ?_⟩
  have hcaused := h.caused how hended
  cases how with
  | «return» => trivial
  | complete => exact hcaused
  | completeExceptionally failure =>
      cases failure with
      | overflow => exact hcaused
      | failed error =>
          rcases hcaused with hrejected | hreached
          · rw [hpending] at hrejected
            cases hrejected
          · exact .inr hreached

theorem Sound.close (h : Sound k ran sub) : Sound k ran { sub with closed := true } := by
  refine ⟨h.handler, h.since, h.order, fun how hended => ?_⟩
  have hcaused := h.caused how hended
  cases how with
  | «return» => trivial
  | complete => exact .inl rfl
  | completeExceptionally failure =>
      cases failure with
      | overflow => exact hcaused
      | failed error => exact hcaused

end One

/-! ## The map -/

structure Inv (s : Bus I N P α ε) : Prop where
  sorted : (s.subscriptions.map Prod.snd).Pairwise (· < ·)
  keys : (s.subscriptions.map Prod.fst).Nodup
  bounded : s.subscriptions.length ≤ maxSubscriptions
  registered : ∀ entry ∈ s.subscriptions, ∃ sub, s.opened[entry.2]? = some sub ∧
    sub.query.identifier = entry.1 ∧
    Current entry.2 s.ran sub
  sound : ∀ k sub, s.opened[k]? = some sub → Sound k s.ran sub

section Map
variable [DecidableEq I] {s t : Bus I N P α ε} {k : ℕ} {sub sub' : Subscription I N P α ε}
    {entry : I × ℕ}

omit [DecidableEq I] in
theorem Inv.current (hi : Inv s) (hmem : entry ∈ s.subscriptions)
    (hk : s.opened[entry.2]? = some sub) :
    sub.query.identifier = entry.1 ∧ Current entry.2 s.ran sub := by
  obtain ⟨other, hother, hrest⟩ := hi.registered entry hmem
  obtain rfl := Option.some.inj (hk.symm.trans hother)
  exact hrest

omit [DecidableEq I] in
theorem Inv.put (hi : Inv s) (hsound : Sound k s.ran sub')
    (hcurrent : ∀ entry ∈ s.subscriptions,
      entry.2 = k → sub'.query.identifier = entry.1 ∧ Current k s.ran sub') :
    Inv { s with opened := s.opened.set k sub' } := by
  refine ⟨hi.sorted, hi.keys, hi.bounded, fun entry hmem => ?_, fun j other hother => ?_⟩
  · obtain ⟨sub, hsub, hrest⟩ := hi.registered entry hmem
    rcases eq_or_ne entry.2 k with rfl | hne
    · exact ⟨sub', getElem?_set_of_some hsub, hcurrent entry hmem rfl⟩
    · exact ⟨sub, getElem?_set_of_ne hne hsub, hrest⟩
  · rcases getElem?_set_cases hother with ⟨rfl, rfl⟩ | ⟨-, hold⟩
    · exact hsound
    · exact hi.sound j other hold

omit [DecidableEq N] in
theorem mem_remove {identifier : I} : entry ∈ (s.remove identifier).subscriptions ↔
    entry ∈ s.subscriptions ∧ entry.1 ≠ identifier := by
  simp [Bus.remove, delete]

theorem Inv.remove (hi : Inv s) (identifier : I) : Inv (s.remove identifier) := by
  have hsublist : (s.remove identifier).subscriptions.Sublist s.subscriptions := List.filter_sublist
  exact ⟨hi.sorted.sublist (hsublist.map _), hi.keys.sublist (hsublist.map _),
    hsublist.length_le.trans hi.bounded,
    fun entry hmem => hi.registered entry (mem_remove.mp hmem).1, hi.sound⟩

omit [DecidableEq N] in
theorem change_of_ends (hk : s.opened[k]? = some sub)
    {f : Handler α (Failure ε) → Handler α (Failure ε)} (hactive : sub.handler.completed = false)
    (hends : (f sub.handler).completed = true) :
    s.change k f =
      { s with opened := s.opened.set k (sub.change f) }.remove sub.query.identifier := by
  unfold Bus.change
  rw [hk]
  dsimp only
  rw [hactive, hends]
  rfl

omit [DecidableEq N] in
theorem change_of_stays (hk : s.opened[k]? = some sub)
    {f : Handler α (Failure ε) → Handler α (Failure ε)}
    (hstays : sub.handler.completed = true ∨ (f sub.handler).completed = false) :
    s.change k f = { s with opened := s.opened.set k (sub.change f) } := by
  unfold Bus.change
  rw [hk]
  dsimp only
  rw [if_neg]
  rcases hstays with hcompleted | hactive
  · rw [hcompleted]
    exact Bool.false_ne_true
  · rw [hactive, Bool.and_false]
    exact Bool.false_ne_true

theorem Inv.change (hi : Inv s) (hk : s.opened[k]? = some sub)
    {f : Handler α (Failure ε) → Handler α (Failure ε)} (hsound : Sound k s.ran (sub.change f))
    (haccepted : acceptedIn (f sub.handler).trace = acceptedIn sub.handler.trace) :
    Inv (s.change k f) := by
  by_cases hends : sub.handler.completed = false ∧ (f sub.handler).completed = true
  · rw [change_of_ends hk hends.1 hends.2]
    refine (hi.remove sub.query.identifier).put hsound fun entry hmem hentry => ?_
    obtain ⟨hold, hother⟩ := mem_remove.mp hmem
    subst hentry
    exact absurd (hi.current hold hk).1.symm hother
  · have hstays : sub.handler.completed = true ∨ (f sub.handler).completed = false := by
      cases hcompleted : sub.handler.completed with
      | true => exact .inl rfl
      | false => exact .inr (Bool.eq_false_iff.mpr fun h => hends ⟨hcompleted, h⟩)
    rw [change_of_stays hk hstays]
    refine hi.put hsound fun entry hmem hentry => ?_
    subst hentry
    obtain ⟨hidentifier, hc⟩ := hi.current hmem hk
    refine ⟨hidentifier, ?_, haccepted.trans hc.whole, hc.emitted⟩
    exact hstays.resolve_left fun h => absurd (h.symm.trans hc.active) nofun

/-! ## One task -/

omit [DecidableEq N] in
theorem remove_remove (s : Bus I N P α ε) (identifier : I) :
    (s.remove identifier).remove identifier = s.remove identifier := by
  unfold Bus.remove
  rw [delete_eq_self (get_delete_self identifier s.subscriptions)]

omit [DecidableEq N] in
/-- What a task does to an open subscription; one that is ended is removed. -/
theorem affect_eq (hk : s.opened[k]? = some sub) (hactive : sub.handler.completed = false)
    (kind : Kind α ε) :
    s.affect kind sub.query.identifier k sub =
      { s with
        opened := s.opened.set k (sub.change (kind.act sub.bufferSize))
        subscriptions :=
          if (kind.act sub.bufferSize sub.handler).completed then
          delete sub.query.identifier s.subscriptions
          else s.subscriptions } := by
  have hended : ∀ f : Handler α (Failure ε) → Handler α (Failure ε),
      (f sub.handler).completed = true →
      (s.change k f).remove sub.query.identifier =
        { s with
          opened := s.opened.set k (sub.change f)
          subscriptions := delete sub.query.identifier s.subscriptions } := by
    intro f hf
    rw [change_of_ends hk hactive hf, remove_remove]
    rfl
  cases kind with
  | completeSubscription =>
      rw [if_pos
        (show ((Kind.completeSubscription : Kind α ε).act sub.bufferSize sub.handler).completed =
        true from
        ends_complete.completed)]
      exact hended _ ends_complete.completed
  | completeSubscriptionExceptionally error =>
      rw [if_pos
        (show ((Kind.completeSubscriptionExceptionally error : Kind α ε).act sub.bufferSize
        sub.handler).completed = true
        from (ends_completeExceptionally _).completed)]
      exact hended _ (ends_completeExceptionally _).completed
  | emitUpdate update =>
      have hoverflow :=
        (ends_completeExceptionally (h := sub.handler) (.overflow : Failure ε)).completed
      unfold Bus.affect
      dsimp only
      rcases offer_cases sub.handler sub.bufferSize update with
        ⟨-, -, htook, hsame, -, -⟩ | ⟨-, hrefused⟩
      · rw [if_pos htook]
        have hact : (Kind.emitUpdate update : Kind α ε).act sub.bufferSize sub.handler =
            (sub.handler.offer sub.bufferSize update).1 := if_pos htook
        have hstays := hsame.trans hactive
        rw [change_of_stays hk (.inr hstays),
          if_neg (by rw [hact, hstays]; exact Bool.false_ne_true)]
        unfold Subscription.change
        rw [hact]
      · have hnot : ¬(sub.handler.offer sub.bufferSize update).2 = true := by
          rw [hrefused]
          exact Bool.false_ne_true
        have hact : (Kind.emitUpdate update : Kind α ε).act sub.bufferSize sub.handler =
            sub.handler.completeExceptionally .overflow := if_neg hnot
        rw [if_neg hnot, hended _ hoverflow, if_pos (by rw [hact]; exact hoverflow)]
        unfold Subscription.change
        rw [hact]

/-- One turn of the loop, at an open subscription under its identifier. -/
theorem visit_eq (hk : s.opened[entry.2]? = some sub) (hactive : sub.handler.completed = false)
    (hidentifier : sub.query.identifier = entry.1) (task : Task N P α ε) :
    s.visit task entry =
      ({ s with
        opened := s.opened.set entry.2 (sub.after task)
        subscriptions := if (sub.after task).handler.completed then delete entry.1 s.subscriptions
          else s.subscriptions },
        (task.asks sub.query).isSome) := by
  have hsame : ∀ said : Option Bool, said ≠ some true →
      (if said = some true then sub.change (task.kind.act sub.bufferSize) else sub) = sub :=
    fun _ hne => if_neg hne
  have hunchanged : ({ s with
      opened := s.opened.set entry.2 sub
      subscriptions := if sub.handler.completed then delete entry.1 s.subscriptions
        else s.subscriptions } : Bus I N P α ε) = s := by
    rw [set_of_some hk, hactive, if_neg Bool.false_ne_true]
  unfold Bus.visit Subscription.after
  rw [hk]
  dsimp only
  rw [if_neg (by rw [hactive, Bool.and_false]; exact Bool.false_ne_true)]
  cases hasks : task.asks sub.query with
  | none =>
      rw [hsame none nofun, hunchanged]
      rfl
  | some means =>
      cases means with
      | false =>
          rw [hsame (some false) (by decide), hunchanged]
          rfl
      | true =>
          rw [if_pos rfl, ← hidentifier]
          exact congrArg (·, true) (affect_eq hk hactive task.kind)

/-- What a walk of a task over `entries` leaves. -/
structure Walked (task : Task N P α ε) (entries : List (I × ℕ)) (s t : Bus I N P α ε)
    (thrownAt : Option ℕ) : Prop where
  works : t.works = s.works
  emitted : t.emitted = s.emitted
  ran : t.ran = s.ran
  opened : ∀ k sub, s.opened[k]? = some sub →
    t.opened[k]? = some (if k ∈ entries.map Prod.snd ∧ ∀ i ∈ thrownAt,
      k < i then sub.after task else sub)
  length : t.opened.length = s.opened.length
  sublist : t.subscriptions.Sublist s.subscriptions
  active : ∀ entry ∈ entries, entry ∈ t.subscriptions → ∀ sub, t.opened[entry.2]? = some sub →
    sub.handler.completed = false
  held : ∀ entry ∈ s.subscriptions, ∀ sub, t.opened[entry.2]? = some sub →
    sub.handler.completed = false →
    entry ∈ t.subscriptions
  thrown : ∀ i ∈ thrownAt, i ∈ entries.map Prod.snd

/-- The entries that are walked over are registered, each once, and open. -/
structure Walkable (entries : List (I × ℕ)) (s : Bus I N P α ε) : Prop where
  sorted : (entries.map Prod.snd).Pairwise (· < ·)
  subset : entries ⊆ s.subscriptions
  keys : (s.subscriptions.map Prod.fst).Nodup
  active : ∀ entry ∈ entries, ∃ sub, s.opened[entry.2]? = some sub ∧
    sub.query.identifier = entry.1 ∧
    sub.handler.completed = false

theorem loop_of_throws {entries : List (I × ℕ)} {task : Task N P α ε}
    (hk : s.opened[entry.2]? = some sub) (hactive : sub.handler.completed = false)
    (hidentifier : sub.query.identifier = entry.1) (hasks : task.asks sub.query = none) :
    s.loop task (entry :: entries) = (s, some entry.2) := by
  have hafter : sub.after task = sub := if_neg (by rw [hasks]; nofun)
  rw [Bus.loop, visit_eq hk hactive hidentifier, hasks, hafter, set_of_some hk, hactive]
  rfl

theorem loop_of_goes_on {entries : List (I × ℕ)} {task : Task N P α ε}
    (hk : s.opened[entry.2]? = some sub) (hactive : sub.handler.completed = false)
    (hidentifier : sub.query.identifier = entry.1) (hasks : (task.asks sub.query).isSome = true) :
    s.loop task (entry :: entries) =
      { s with
        opened := s.opened.set entry.2 (sub.after task)
        subscriptions := if (sub.after task).handler.completed then delete entry.1 s.subscriptions
          else s.subscriptions }.loop task entries := by
  rw [Bus.loop, visit_eq hk hactive hidentifier, if_pos hasks]

omit [DecidableEq N] in
/-- The entries to come after one that was visited. -/
theorem Walkable.next {entries : List (I × ℕ)} (hw : Walkable (entry :: entries) s)
    (sub' : Subscription I N P α ε) :
    Walkable entries { s with
      opened := s.opened.set entry.2 sub'
      subscriptions := if sub'.handler.completed then delete entry.1 s.subscriptions
        else s.subscriptions } := by
  obtain ⟨hfirst, hrest⟩ := List.pairwise_cons.mp hw.sorted
  have hlater : ∀ other ∈ entries, other.2 ≠ entry.2 := fun other hmem =>
    (hfirst other.2 (List.mem_map_of_mem hmem)).ne'
  have hkey : ∀ other ∈ entries, other.1 ≠ entry.1 := by
    intro other hmem heq
    have hsame :=
      List.inj_on_of_nodup_map hw.keys (hw.subset (List.mem_cons_of_mem _ hmem))
      (hw.subset List.mem_cons_self) heq
    exact hlater other hmem (congrArg Prod.snd hsame)
  refine ⟨hrest, fun other hmem => ?_, ?_, fun other hmem => ?_⟩
  · have hold := hw.subset (List.mem_cons_of_mem _ hmem)
    dsimp only
    split_ifs
    · exact List.mem_filter.mpr ⟨hold, decide_eq_true (hkey other hmem)⟩
    · exact hold
  · dsimp only
    split_ifs
    · exact nodup_keys_delete hw.keys
    · exact hw.keys
  · obtain ⟨sub, hsub, hgood⟩ := hw.active other (List.mem_cons_of_mem _ hmem)
    exact ⟨sub, getElem?_set_of_ne (hlater other hmem) hsub, hgood⟩

theorem walked_loop (task : Task N P α ε) : ∀ (entries : List (I × ℕ)) (s : Bus I N P α ε),
    Walkable entries s →
    Walked task entries s (s.loop task entries).1 (s.loop task entries).2
  | [], s, _ =>
      ⟨rfl, rfl, rfl,
      fun k sub hk => by
        simpa [Bus.loop] using hk, rfl, .refl _, nofun, fun _ hmem _ _ _ => hmem, nofun⟩
  | entry :: entries, s, hw => by
      obtain ⟨sub, hk, hidentifier, hactive⟩ := hw.active entry List.mem_cons_self
      obtain ⟨hfirst, -⟩ := List.pairwise_cons.mp hw.sorted
      have hpast : ∀ k ∈ (entry :: entries).map Prod.snd, entry.2 ≤ k := by
        intro k hmem
        rcases List.mem_cons.mp hmem with rfl | hrest
        · exact le_rfl
        · exact (hfirst k hrest).le
      cases hasks : task.asks sub.query with
      | none =>
          rw [loop_of_throws hk hactive hidentifier hasks]
          refine ⟨rfl, rfl, rfl, fun j other hother => ?_, rfl, .refl _,
            fun e hmem _ other hother => ?_, fun _ hmem _ _ _ => hmem, ?_⟩
          · rw [if_neg]
            · exact hother
            · rintro ⟨hmem, hbefore⟩
              exact absurd (hbefore entry.2 rfl) (Nat.not_lt.mpr (hpast j hmem))
          · obtain ⟨this, hthis, -, hopen⟩ := hw.active e hmem
            exact Option.some.inj (hother.symm.trans hthis) ▸ hopen
          · intro i hi
            exact Option.some.inj hi ▸ List.mem_cons_self
      | some means =>
          rw [loop_of_goes_on hk hactive hidentifier (by rw [hasks]; rfl)]
          have hrest := walked_loop task entries _ (hw.next (sub.after task))
          set u : Bus I N P α ε := { s with
            opened := s.opened.set entry.2 (sub.after task)
            subscriptions :=
              if (sub.after task).handler.completed then delete entry.1 s.subscriptions
              else s.subscriptions } with hu
          have hfresh : entry.2 ∉ entries.map Prod.snd := fun hmem =>
            absurd (hfirst entry.2 hmem) (Nat.lt_irrefl _)
          have hthis := hrest.opened entry.2 (sub.after task) (getElem?_set_of_some hk)
          rw [if_neg fun h => hfresh h.1] at hthis
          have hsublist : u.subscriptions.Sublist s.subscriptions := by
            rw [hu]
            dsimp only
            split_ifs
            · exact List.filter_sublist
            · exact .refl _
          refine ⟨hrest.works, hrest.emitted, hrest.ran, fun j other hother => ?_,
            hrest.length.trans (List.length_set ..),
            hrest.sublist.trans hsublist, fun e hmem hstill other hother =>
              ?_, fun e hmem other hother hopen => ?_,
            fun i hi => List.mem_cons_of_mem _ (hrest.thrown i hi)⟩
          · rcases eq_or_ne j entry.2 with rfl | hne
            · obtain rfl := Option.some.inj (hk.symm.trans hother)
              rw [hthis, if_pos ⟨List.mem_cons_self, fun i hi => hfirst i (hrest.thrown i hi)⟩]
            · rw [hrest.opened j other (getElem?_set_of_ne hne hother)]
              simp only [List.map_cons, List.mem_cons, hne, false_or]
          · rcases List.mem_cons.mp hmem with rfl | hlater
            · obtain rfl := Option.some.inj (hthis.symm.trans hother)
              by_contra hcompleted
              have hgone := hrest.sublist.mem hstill
              rw [hu] at hgone
              dsimp only at hgone
              rw [if_pos (by simpa using hcompleted)] at hgone
              exact absurd rfl (of_decide_eq_true (List.mem_filter.mp hgone).2)
            · exact hrest.active e hlater hstill other hother
          · refine hrest.held e ?_ other hother hopen
            rw [hu]
            dsimp only
            split_ifs with hcompleted
            · refine List.mem_filter.mpr ⟨hmem, decide_eq_true fun heq => ?_⟩
              have hsame := List.inj_on_of_nodup_map hw.keys hmem (hw.subset List.mem_cons_self) heq
              rw [hsame] at hother
              obtain rfl := Option.some.inj (hthis.symm.trans hother)
              rw [hcompleted] at hopen
              cases hopen
            · exact hmem

/-! ## Steps -/

/-- Every open subscription is registered. -/
def Held (s : Bus I N P α ε) : Prop :=
  ∀ k sub, s.opened[k]? = some sub → sub.handler.completed = false →
    get sub.query.identifier s.subscriptions = some k

/-- The subscription `k` is not registered. -/
def Absent (k : ℕ) (s : Bus I N P α ε) : Prop := ∀ entry ∈ s.subscriptions, entry.2 ≠ k

/-- A subscription that is not registered stays so and gets nothing. -/
def Silent (s t : Bus I N P α ε) : Prop :=
  ∀ k sub, s.opened[k]? = some sub → Absent k s → Absent k t ∧
    ∃ later, t.opened[k]? = some later ∧
      acceptedIn later.handler.trace = acceptedIn sub.handler.trace

omit [DecidableEq I] [DecidableEq N] in
theorem Silent.trans {u : Bus I N P α ε} (h : Silent s t) (h' : Silent t u) : Silent s u := by
  intro k sub hk habsent
  obtain ⟨hnot, later, hlater, haccepted⟩ := h k sub hk habsent
  obtain ⟨hnot', latest, hlatest, haccepted'⟩ := h' k later hlater hnot
  exact ⟨hnot', latest, hlatest, haccepted'.trans haccepted⟩

omit [DecidableEq I] [DecidableEq N] in
theorem silent_put (hk : s.opened[k]? = some sub)
    (haccepted : acceptedIn sub'.handler.trace = acceptedIn sub.handler.trace)
    (hopened : t.opened = s.opened.set k sub') (hsubset : t.subscriptions ⊆ s.subscriptions) :
    Silent s t := by
  intro j other hother habsent
  refine ⟨fun entry hmem => habsent entry (hsubset hmem), ?_⟩
  rw [hopened]
  rcases eq_or_ne j k with rfl | hne
  · obtain rfl := Option.some.inj (hk.symm.trans hother)
    exact ⟨sub', getElem?_set_of_some hk, haccepted⟩
  · exact ⟨other, getElem?_set_of_ne hne hother, rfl⟩

structure Goes (s t : Bus I N P α ε) : Prop where
  inv : Inv t
  silent : Silent s t
  held : Held s → Held t

theorem Goes.trans {u : Bus I N P α ε} (h : Goes s t) (h' : Goes t u) : Goes s u :=
  ⟨h'.inv, h.silent.trans h'.silent, fun hheld => h'.held (h.held hheld)⟩

theorem Goes.works (hi : Inv s) (works : List (Work N P α ε)) (emitted : List (Option ℕ)) :
    Goes s { s with works, emitted } :=
  ⟨⟨hi.sorted, hi.keys, hi.bounded, hi.registered, hi.sound⟩,
    fun _ sub hk habsent => ⟨habsent, sub, hk, rfl⟩, id⟩

/-- What a subscription notes beside its handler. -/
theorem Goes.put (hi : Inv s) (hk : s.opened[k]? = some sub) (hsound : Sound k s.ran sub')
    (hsame : sub'.query = sub.query ∧ sub'.handler = sub.handler ∧ sub'.since = sub.since) :
    Goes s { s with opened := s.opened.set k sub' } := by
  obtain ⟨hquery, hhandler, hsince⟩ := hsame
  refine ⟨hi.put hsound fun entry hmem hentry => ?_,
    silent_put hk (by rw [hhandler]) rfl (List.Subset.refl _),
    fun hheld j other hother hactive => ?_⟩
  · subst hentry
    obtain ⟨hidentifier, hc⟩ := hi.current hmem hk
    refine ⟨hquery ▸ hidentifier, hhandler ▸ hc.active, ?_, ?_⟩
    · rw [hhandler, hc.whole]
      unfold updatesFor
      rw [hquery, hsince]
    · rw [hquery, hsince]
      exact hc.emitted
  · rcases getElem?_set_cases hother with ⟨rfl, rfl⟩ | ⟨-, hold⟩
    · rw [hquery]
      exact hheld j sub hk (hhandler ▸ hactive)
    · exact hheld j other hold hactive

theorem Goes.change (hi : Inv s) (hk : s.opened[k]? = some sub)
    {f : Handler α (Failure ε) → Handler α (Failure ε)} (hsound : Sound k s.ran (sub.change f))
    (haccepted : acceptedIn (f sub.handler).trace = acceptedIn sub.handler.trace)
    (hstill : sub.handler.completed = true → (f sub.handler).completed = true) :
    Goes s (s.change k f) := by
  have hinv := hi.change hk hsound haccepted
  by_cases hends : sub.handler.completed = false ∧ (f sub.handler).completed = true
  · rw [change_of_ends hk hends.1 hends.2] at hinv ⊢
    refine ⟨hinv, silent_put hk haccepted rfl (List.filter_subset_self _),
      fun hheld j other hother hactive => ?_⟩
    have hthis := hheld k sub hk hends.1
    rcases getElem?_set_cases hother with ⟨rfl, rfl⟩ | ⟨hne, hold⟩
    · exact absurd (hends.2.symm.trans hactive) nofun
    · have hget := hheld j other hold hactive
      refine (get_delete_of_ne (fun heq => hne ?_) _).trans hget
      exact Option.some.inj (hget.symm.trans (heq ▸ hthis))
  · have hstays : sub.handler.completed = true ∨ (f sub.handler).completed = false := by
      cases hcompleted : sub.handler.completed with
      | true => exact .inl rfl
      | false => exact .inr (Bool.eq_false_iff.mpr fun h => hends ⟨hcompleted, h⟩)
    rw [change_of_stays hk hstays] at hinv ⊢
    refine ⟨hinv, silent_put hk haccepted rfl (List.Subset.refl _),
      fun hheld j other hother hactive => ?_⟩
    rcases getElem?_set_cases hother with ⟨rfl, rfl⟩ | ⟨-, hold⟩
    · refine hheld j sub hk (Bool.eq_false_iff.mpr fun h => ?_)
      rw [show (sub.change f).handler.completed = true from hstill h] at hactive
      cases hactive
    · exact hheld j other hold hactive

theorem Goes.kept (hi : Inv s) (hk : s.opened[k]? = some sub)
    {f : Handler α (Failure ε) → Handler α (Failure ε)}
    (hinv : ∃ reads, UpdateHandler.Inv sub.bufferSize reads (f sub.handler))
    (hkept : Kept sub.handler (f sub.handler)) :
    Goes s (s.change k f) :=
  .change hi hk ((hi.sound k sub hk).kept hinv hkept) hkept.accepted fun h =>
    hkept.completed.trans h

theorem Goes.ends (hi : Inv s) (hk : s.opened[k]? = some sub)
    {f : Handler α (Failure ε) → Handler α (Failure ε)} {how : How (Failure ε)}
    (hinv : ∃ reads, UpdateHandler.Inv sub.bufferSize reads (f sub.handler))
    (hends : Ends how sub.handler (f sub.handler)) (hcaused : Caused k s.ran (sub.change f) how) :
    Goes s (s.change k f) :=
  .change hi hk ((hi.sound k sub hk).ends hinv hends hcaused) hends.accepted fun _ =>
    hends.completed

omit [DecidableEq I] in
theorem Inv.walkable (hi : Inv s) : Walkable s.subscriptions s := by
  refine ⟨hi.sorted, List.Subset.refl _, hi.keys, fun entry hmem => ?_⟩
  obtain ⟨sub, hk, hidentifier, hc⟩ := hi.registered entry hmem
  exact ⟨sub, hk, hidentifier, hc.active⟩

omit [DecidableEq I] in
/-- What was opened before a walk, from what is there after it. -/
theorem Walked.before {task : Task N P α ε} {entries : List (I × ℕ)} {thrownAt : Option ℕ}
    (hw : Walked task entries s t thrownAt) (hk : t.opened[k]? = some sub') :
    ∃ sub, s.opened[k]? = some sub ∧
      sub' = if k ∈ entries.map Prod.snd ∧ ∀ i ∈ thrownAt, k < i then sub.after task else sub := by
  cases hsub : s.opened[k]? with
  | none =>
      have hlt := (List.getElem?_eq_some_iff.mp hk).1
      rw [hw.length] at hlt
      exact absurd (List.getElem?_eq_none_iff.mp hsub) (Nat.not_le.mpr hlt)
  | some sub => exact ⟨sub, rfl, (Option.some.inj ((hw.opened k sub hsub).symm.trans hk)).symm⟩

omit [DecidableEq I] in
theorem query_after (sub : Subscription I N P α ε) (task : Task N P α ε) :
    (sub.after task).query = sub.query := by
  unfold Subscription.after
  split_ifs <;> rfl

/-- A task runs over the map. -/
theorem Goes.run (hi : Inv s) (task : Task N P α ε) : Goes s (s.run task).1 := by
  have hw := walked_loop task s.subscriptions s hi.walkable
  unfold Bus.run
  dsimp only
  generalize (s.loop task s.subscriptions).2 = thrownAt at hw ⊢
  generalize (s.loop task s.subscriptions).1 = t at hw ⊢
  have hmem : ∀ {k : ℕ} {sub : Subscription I N P α ε}, s.opened[k]? = some sub →
      k ∈ s.subscriptions.map Prod.snd →
      Current k s.ran sub := by
    intro k sub hk hregistered
    obtain ⟨entry, hentry, rfl⟩ := List.mem_map.mp hregistered
    exact (hi.current hentry hk).2
  have hreached : ∀ {k : ℕ} {sub' : Subscription I N P α ε}, t.opened[k]? = some sub' →
      Sound k (s.ran ++ [⟨task, thrownAt⟩]) sub' ∧
        (k ∈ s.subscriptions.map Prod.snd → sub'.handler.completed = false →
          Current k (s.ran ++ [⟨task, thrownAt⟩]) sub') := by
    intro k sub' hk'
    obtain ⟨sub, hk, rfl⟩ := hw.before hk'
    have hsound := hi.sound k sub hk
    split_ifs with hturn
    · obtain ⟨hafter, hcurrent⟩ := hsound.after (hmem hk hturn.1) hturn.2
      exact ⟨hafter, fun _ => hcurrent⟩
    · refine ⟨hsound.concat _, fun hregistered _ => (hmem hk hregistered).concat_of_not hsound ?_⟩
      refine Bool.eq_false_iff.mpr fun hreaches => hturn ⟨hregistered, fun i hi => ?_⟩
      exact of_decide_eq_true
        ((Option.all_eq_true _ _).mp (Bool.and_eq_true_iff.mp hreaches).2 i hi)
  refine ⟨⟨hi.sorted.sublist (hw.sublist.map _), hi.keys.sublist (hw.sublist.map _),
    hw.sublist.length_le.trans hi.bounded,
    fun entry hentry => ?_, fun k sub' hk' => ?_⟩, fun k sub hk habsent =>
      ?_, fun hheld k sub' hk' hactive => ?_⟩
  · have hold := hw.sublist.mem hentry
    obtain ⟨sub, hk, hidentifier, -⟩ := hi.registered entry hold
    have hk' := hw.opened entry.2 sub hk
    refine ⟨_, hk', ?_, ?_⟩
    · rw [← hidentifier]
      split_ifs
      · rw [query_after]
      · rfl
    · show Current entry.2 (t.ran ++ [⟨task, thrownAt⟩]) _
      rw [hw.ran]
      exact (hreached hk').2 (List.mem_map_of_mem hold) (hw.active entry hold hentry _ hk')
  · show Sound k (t.ran ++ [⟨task, thrownAt⟩]) sub'
    rw [hw.ran]
    exact (hreached hk').1
  · have hnot : k ∉ s.subscriptions.map Prod.snd := by
      intro hregistered
      obtain ⟨entry, hentry, rfl⟩ := List.mem_map.mp hregistered
      exact habsent entry hentry rfl
    have hk' := hw.opened k sub hk
    rw [if_neg fun h => hnot h.1] at hk'
    exact ⟨fun entry hentry => habsent entry (hw.sublist.mem hentry), sub, hk', rfl⟩
  · obtain ⟨sub, hk, hsub'⟩ := hw.before hk'
    have hopen : sub.handler.completed = false := by
      by_contra hcompleted
      have hnot : k ∉ s.subscriptions.map Prod.snd := fun hregistered =>
        hcompleted (hmem hk hregistered).active
      rw [if_neg fun h => hnot h.1] at hsub'
      rw [hsub'] at hactive
      exact hcompleted hactive
    have hentry := mem_of_get (hheld k sub hk hopen)
    have hstill := hw.held _ hentry sub' hk' hactive
    have hquery : sub'.query = sub.query := by
      rw [hsub']
      split_ifs
      · exact query_after sub task
      · rfl
    rw [hquery]
    exact get_of_mem (hi.keys.sublist (hw.sublist.map _)) hstill

theorem Goes.runTasks : ∀ (tasks : List (Task N P α ε)) (s : Bus I N P α ε), Inv s →
    Goes s (s.runTasks tasks).1
  | [], _, hi => .works hi _ _
  | task :: tasks, s, hi => by
      have hrun := Goes.run hi task
      unfold Bus.runTasks
      split_ifs
      · exact hrun.trans (Goes.runTasks tasks _ hrun.inv)
      · exact hrun

theorem Goes.runAfterCommitOrImmediately (hi : Inv s) (task : Task N P α ε) (uow : Option ℕ) :
    Goes s (s.runAfterCommitOrImmediately task uow) := by
  unfold Bus.runAfterCommitOrImmediately
  split
  · exact (Goes.works hi _ _).trans (.run (Goes.works hi _ _).inv task)
  · split
    · exact .works hi _ _
    · split_ifs
      · exact (Goes.works hi _ _).trans (.run (Goes.works hi _ _).inv task)
      · exact .works hi _ _

theorem Goes.afterCommit (hi : Inv s) (w : ℕ) (work : Work N P α ε) (tasks : List (Task N P α ε)) :
    Goes s (s.afterCommit w work tasks) :=
  (Goes.runTasks tasks s hi).trans (.works (Goes.runTasks tasks s hi).inv _ _)

theorem Goes.register {query : QueryMessage I N P} {bufferSize : ℕ} {initial : Option (Initial ε)}
    (hi : Inv s) (h : s.register query bufferSize initial = some t) : Goes s t := by
  unfold Bus.register at h
  split_ifs at h with hknown hfull hsize
  obtain rfl := Option.some.inj h
  have hget : get query.identifier s.subscriptions = none := Option.not_isSome_iff_eq_none.mp hknown
  have hnew : query.identifier ∉ s.subscriptions.map Prod.fst := by
    intro hmem
    obtain ⟨entry, hentry, hidentifier⟩ := List.mem_map.mp hmem
    have hthere :=
      get_of_mem hi.keys
      (show (query.identifier, entry.2) ∈ s.subscriptions from hidentifier ▸ hentry)
    rw [hget] at hthere
    cases hthere
  have hend := set_of_not_mem hnew s.opened.length
  have hbelow : ∀ entry ∈ s.subscriptions, entry.2 < s.opened.length := by
    intro entry hentry
    obtain ⟨sub, hk, -⟩ := hi.registered entry hentry
    exact (List.getElem?_eq_some_iff.mp hk).1
  have hnothing : s.ran.drop s.ran.length = [] := List.drop_length
  have hsound : Sound s.opened.length s.ran
      (⟨query, bufferSize, UpdateHandler.initial, initial, s.ran.length,
        false⟩ : Subscription I N P α ε) :=
    ⟨⟨0, UpdateHandler.inv_initial⟩, le_rfl, List.nil_prefix, fun _ hended => by cases hended⟩
  refine ⟨⟨?_, nodup_keys_set hi.keys, ?_, fun entry hentry => ?_, fun k sub hk => ?_⟩,
    fun k sub hk habsent => ?_,
    fun hheld k sub hk hactive => ?_⟩
  · show ((set query.identifier s.opened.length s.subscriptions).map Prod.snd).Pairwise (· < ·)
    rw [hend, List.map_append]
    refine List.pairwise_append.mpr ⟨hi.sorted, List.pairwise_singleton _ _, fun a ha b hb => ?_⟩
    obtain ⟨entry, hentry, rfl⟩ := List.mem_map.mp ha
    rw [List.mem_singleton.mp hb]
    exact hbelow entry hentry
  · show (set query.identifier s.opened.length s.subscriptions).length ≤ maxSubscriptions
    rw [hend, List.length_append]
    exact Nat.lt_of_not_le hfull
  · change entry ∈ set query.identifier s.opened.length s.subscriptions at hentry
    rw [hend] at hentry
    rcases List.mem_append.mp hentry with hold | hnow
    · obtain ⟨sub, hk, hrest⟩ := hi.registered entry hold
      exact ⟨sub, getElem?_append_of_some hk, hrest⟩
    · obtain rfl := List.mem_singleton.mp hnow
      refine ⟨_, List.getElem?_concat_length, rfl, rfl, ?_, ?_⟩
      · show [] = updatesFor s.opened.length _ s.ran
        unfold updatesFor
        rw [hnothing]
        rfl
      · intro r hr
        change r ∈ s.ran.drop s.ran.length at hr
        rw [hnothing] at hr
        cases hr
  · rcases getElem?_concat_cases hk with ⟨rfl, rfl⟩ | hold
    · exact hsound
    · exact hi.sound k sub hold
  · refine ⟨fun entry hentry => ?_, sub, getElem?_append_of_some hk, rfl⟩
    change entry ∈ set query.identifier s.opened.length s.subscriptions at hentry
    rw [hend] at hentry
    rcases List.mem_append.mp hentry with hold | hnow
    · exact habsent entry hold
    · rw [List.mem_singleton.mp hnow]
      exact ((List.getElem?_eq_some_iff.mp hk).1).ne'
  · rcases getElem?_concat_cases hk with ⟨rfl, rfl⟩ | hold
    · exact get_set_self _ _ _
    · have hthis := hheld k sub hold hactive
      refine (get_set_of_ne (fun heq => ?_) _ _).trans hthis
      rw [heq, hget] at hthis
      cases hthis

theorem Goes.answered (hi : Inv s) (hk : s.opened[k]? = some sub)
    (hpending : sub.initial = some .pending) (error : Option ε) :
    Goes s (s.answered k sub error) := by
  have hput : ∀ initial : Initial ε,
      Goes s { s with opened := s.opened.set k { sub with initial := some initial } } :=
    fun initial => .put hi hk ((hi.sound k sub hk).settle hpending initial) ⟨rfl, rfl, rfl⟩
  cases error with
  | none => exact hput .resolved
  | some error =>
      have hsettled := hput (.rejected error)
      obtain ⟨reads, hinv⟩ := (hi.sound k sub hk).handler
      have hends :
          Ends (.completeExceptionally (.failed error)) sub.handler
          (sub.handler.completeExceptionally (.failed error)) :=
        ends_completeExceptionally _
      refine hsettled.trans
        (.ends (f := fun handler => handler.completeExceptionally (.failed error)) hsettled.inv
        (getElem?_set_of_some hk) ⟨reads, hinv.completeExceptionally _⟩ hends (.inl ?_))
      exact rejected_change _ rfl

/-- What is registered when a subscription is closed stays so, unless it is under its identifier. -/
theorem close_spec (hi : Inv s) (hk : s.opened[k]? = some sub) :
    Inv (s.close k sub) ∧ Silent s (s.close k sub) ∧
      (∀ entry,
        entry ∈ (s.close k sub).subscriptions ↔ entry ∈ s.subscriptions ∧
        entry.1 ≠ sub.query.identifier) ∧
      ∃ sub', (s.close k sub).opened = s.opened.set k sub' ∧ sub'.handler.completed = true := by
  obtain ⟨reads, hinv⟩ := (hi.sound k sub hk).handler
  have hput : Goes s { s with opened := s.opened.set k { sub with closed := true } } :=
    .put hi hk (hi.sound k sub hk).close ⟨rfl, rfl, rfl⟩
  have hremoved := hput.inv.remove sub.query.identifier
  have hthere :
      ({ s with opened := s.opened.set k { sub with closed := true } }.remove
        sub.query.identifier).opened[k]? = some { sub with closed := true } :=
    getElem?_set_of_some hk
  have hends : Ends .complete sub.handler sub.handler.complete := ends_complete
  have hclosed := Goes.ends hremoved hthere ⟨reads, hinv.complete⟩ hends (.inl rfl)
  have hsilent :
      Silent s ({ s with opened := s.opened.set k { sub with closed := true } }.remove
        sub.query.identifier) :=
    silent_put hk
      (show acceptedIn ({ sub with closed := true } : Subscription I N P α ε).handler.trace = _
        from rfl) rfl
      (List.filter_subset_self _)
  refine ⟨hclosed.inv, hsilent.trans hclosed.silent, fun entry => ?_, ?_⟩
  · unfold Bus.close
    cases hactive : sub.handler.completed with
    | true =>
        rw [change_of_stays hthere (.inl hactive)]
        exact mem_remove
    | false =>
        rw [change_of_ends hthere hactive hends.completed]
        exact (mem_remove.trans (and_congr_left fun _ => mem_remove)).trans
          (by rw [and_assoc, and_self])
  · unfold Bus.close
    cases hactive : sub.handler.completed with
    | true =>
        rw [change_of_stays hthere (.inl hactive)]
        exact ⟨_, List.set_set .., hends.completed⟩
    | false =>
        rw [change_of_ends hthere hactive hends.completed]
        exact ⟨_, List.set_set .., hends.completed⟩

theorem inv_step {action : Action I N P α ε} (hi : Inv s) (h : step s action = some t) :
    Inv t ∧ Silent s t ∧ (own s action = true → Held s → Held t) := by
  have hgoes : ∀ {u : Bus I N P α ε}, Goes s u → some u = some t → Inv t ∧ Silent s t ∧
      (own s action = true → Held s → Held t) := by
    intro u hg hu
    obtain rfl := Option.some.inj hu
    exact ⟨hg.inv, hg.silent, fun _ => hg.held⟩
  cases action with
  | subscriptionQuery query bufferSize => exact hgoes (.register hi h) rfl
  | subscribeToUpdates query bufferSize => exact hgoes (.register hi h) rfl
  | answered k error =>
      obtain ⟨sub, hk, hthen⟩ := Option.bind_eq_some_iff.mp h
      cases hinitial : sub.initial with
      | none =>
          rw [hinitial] at hthen
          cases hthen
      | some initial =>
          rw [hinitial] at hthen
          cases initial with
          | pending => exact hgoes (.answered hi hk hinitial error) hthen
          | closed => exact hgoes (.works hi s.works s.emitted) hthen
          | resolved => cases hthen
          | rejected _ => cases hthen
  | next k =>
      dsimp only [step] at h
      split_ifs at h with hthere
      obtain ⟨sub, hk⟩ := Option.isSome_iff_exists.mp hthere
      obtain ⟨reads, hinv⟩ := (hi.sound k sub hk).handler
      exact hgoes (.kept hi hk ⟨reads + 1, hinv.next⟩ kept_next) h
  | «return» k =>
      dsimp only [step] at h
      split_ifs at h with hthere
      obtain ⟨sub, hk⟩ := Option.isSome_iff_exists.mp hthere
      obtain ⟨reads, hinv⟩ := (hi.sound k sub hk).handler
      exact hgoes (.ends hi hk ⟨reads, hinv.returns⟩ ends_returns trivial) h
  | close k =>
      obtain ⟨sub, hk, rfl⟩ := Option.map_eq_some_iff.mp h
      obtain ⟨hinv, hsilent, hsubscriptions, sub', hopened, hcompleted⟩ := close_spec hi hk
      refine ⟨hinv, hsilent, fun hown hheld j other hother hactive => ?_⟩
      rw [hopened] at hother
      rcases getElem?_set_cases hother with ⟨rfl, rfl⟩ | ⟨hne, hold⟩
      · exact absurd (hcompleted.symm.trans hactive) nofun
      · have hget := hheld j other hold hactive
        have hentry : (other.query.identifier, j) ∈ (s.close k sub).subscriptions := by
          refine (hsubscriptions _).mpr ⟨mem_of_get hget, fun heq => hne ?_⟩
          change other.query.identifier = sub.query.identifier at heq
          rw [own, hk, Option.all_some, ← heq, hget, Option.all_some] at hown
          exact of_decide_eq_true hown
        exact get_of_mem hinv.keys hentry
  | emit queryName filter kind uow =>
      dsimp only [step] at h
      split_ifs at h
      exact hgoes (.runAfterCommitOrImmediately hi _ uow) h
  | unitOfWork => exact hgoes (.works hi _ s.emitted) h
  | afterCommit w =>
      obtain ⟨work, -, hthen⟩ := Option.bind_eq_some_iff.mp h
      split_ifs at hthen
      obtain ⟨tasks, -, rfl⟩ := Option.map_eq_some_iff.mp hthen
      exact hgoes (.afterCommit hi w work tasks) rfl
  | closes w =>
      obtain ⟨work, -, rfl⟩ := Option.map_eq_some_iff.mp h
      exact hgoes (.works hi _ s.emitted) rfl

omit [DecidableEq I] in
theorem inv_start : Inv (localQueryBus I N P α ε) :=
  ⟨.nil, List.nodup_nil, Nat.zero_le _, nofun, nofun⟩

theorem inv_of_reach (h : Reach step always (localQueryBus I N P α ε) s) : Inv s :=
  h.invariant inv_start fun _ _ _ _ hi _ hs => (inv_step hi hs).1

theorem silent_of_reach (hi : Inv s) (h : Reach step always s t) : Inv t ∧ Silent s t := by
  induction h with
  | start => exact ⟨hi, fun _ sub hk habsent => ⟨habsent, sub, hk, rfl⟩⟩
  | next _ _ hs ih =>
      obtain ⟨hinv, hsilent, -⟩ := inv_step ih.1 hs
      exact ⟨hinv, ih.2.trans hsilent⟩

end Map

/-! ## Every run -/

variable [DecidableEq I]

/-- A subscription gets the updates that reach it in the order in which they are emitted, from the
first on and, while it is registered, all of them; and whatever ended it, it did so by right: an
overflow only when an update reached it while its buffer was full of unread ones. -/
theorem updates_reach_their_subscribers (s : Bus I N P α ε)
    (h : Reach step always (localQueryBus I N P α ε) s) :
    s.subscriptions.length ≤ maxSubscriptions ∧
      ∀ (k : ℕ) (sub : Subscription I N P α ε), s.opened[k]? = some sub →
        (∃ reads, UpdateHandler.Faithful sub.bufferSize reads sub.handler) ∧
        UpdateHandler.Answers sub.bufferSize sub.handler ∧
        acceptedIn sub.handler.trace <+: updatesFor k sub s.ran ∧
        (get sub.query.identifier s.subscriptions = some k →
          sub.handler.completed = false ∧ acceptedIn sub.handler.trace = updatesFor k sub s.ran) ∧
        ∀ how, endedBy sub.handler.trace = some how → Caused k s.ran sub how := by
  have hi := inv_of_reach h
  refine ⟨hi.bounded, fun k sub hk => ?_⟩
  have hsound := hi.sound k sub hk
  obtain ⟨reads, hinv⟩ := hsound.handler
  refine ⟨⟨reads, hinv.faithful⟩, hinv.answers, hsound.order, fun hget => ?_, hsound.caused⟩
  obtain ⟨-, hc⟩ := hi.current (mem_of_get hget) hk
  exact ⟨hc.active, hc.whole⟩

/-- Two subscriptions of one name; the second update comes when the first subscription is full. -/
def filled : List (Action ℕ ℕ ℕ ℕ ℕ) :=
  [.subscriptionQuery ⟨0, 7, 5⟩ 1, .subscribeToUpdates ⟨1, 7, 6⟩ 8,
    .emit 7 none (.emitUpdate 3) none, .emit 7 none (.emitUpdate 4) none]

theorem full_subscription_is_ended_alone : ∃ s : Bus ℕ ℕ ℕ ℕ ℕ,
    Reach step always (localQueryBus ℕ ℕ ℕ ℕ ℕ) s ∧ s.subscriptions = [(1, 1)] ∧
      (∃ sub, s.opened[1]? = some sub ∧ acceptedIn sub.handler.trace = [3, 4]) ∧
      ∃ sub, s.opened[0]? = some sub ∧ FullAtOverflow 1 sub.handler.trace := by
  obtain ⟨s, hs, hsubscriptions, hfirst, hsecond⟩ := reach_exec_any
    (s := localQueryBus ℕ ℕ ℕ ℕ ℕ)
    (P := fun s : Bus ℕ ℕ ℕ ℕ ℕ => s.subscriptions = [(1, 1)] ∧
      s.opened[0]?.any (fun sub : Subscription ℕ ℕ ℕ ℕ ℕ => decide (sub.bufferSize = 1 ∧
        endedBy sub.handler.trace = some (.completeExceptionally .overflow))) = true ∧
      s.opened[1]?.any (fun sub : Subscription ℕ ℕ ℕ ℕ ℕ => decide (sub.query.identifier = 1 ∧
        updatesFor 1 sub s.ran = [3, 4])) = true)
    (show ((exec step (localQueryBus ℕ ℕ ℕ ℕ ℕ) filled).any fun s => decide _) = true by decide)
  obtain ⟨first, hk₀, hboth₀⟩ := (Option.any_eq_true _ _).mp hfirst
  obtain ⟨second, hk₁, hboth₁⟩ := (Option.any_eq_true _ _).mp hsecond
  obtain ⟨hsize, hended⟩ := of_decide_eq_true hboth₀
  obtain ⟨hidentifier, hupdates⟩ := of_decide_eq_true hboth₁
  have hall := (updates_reach_their_subscribers s hs).2
  obtain ⟨-, -, -, -, hcaused⟩ := hall 0 first hk₀
  obtain ⟨-, -, -, hcurrent, -⟩ := hall 1 second hk₁
  obtain ⟨-, hwhole⟩ := hcurrent (by rw [hsubscriptions, hidentifier]; rfl)
  exact ⟨s, hs, hsubscriptions, ⟨second, hk₁, hwhole.trans hupdates⟩, first, hk₀,
    hsize ▸ (hcaused _ hended).1⟩

/-- Where no `close` removes another's subscription, every open subscription is registered. A
`close` of an earlier subscription under the identifier of an open one leaves that open, and it gets
nothing from then on. -/
theorem open_subscriptions_are_registered :
    (∀ s : Bus I N P α ε,
      Reach step (fun s action => own s action = true) (localQueryBus I N P α ε) s →
      ∀ (k : ℕ) (sub : Subscription I N P α ε), s.opened[k]? = some sub →
        sub.handler.completed = false →
        get sub.query.identifier s.subscriptions = some k) ∧
    ∀ s : Bus I N P α ε, Reach step always (localQueryBus I N P α ε) s →
      ∀ (j k : ℕ) (earlier sub : Subscription I N P α ε), s.opened[j]? = some earlier →
        s.opened[k]? = some sub → k ≠ j →
        earlier.query.identifier = sub.query.identifier →
          (s.close j earlier).opened[k]? = some sub ∧
          ∀ t, Reach step always (s.close j earlier) t →
            ∃ later, t.opened[k]? = some later ∧
              acceptedIn later.handler.trace = acceptedIn sub.handler.trace := by
  constructor
  · intro s h
    have hboth : Inv s ∧ Held s :=
      h.invariant (I := fun s => Inv s ∧ Held s) ⟨inv_start, nofun⟩ fun _ _ _ _ hi hown hs =>
        ⟨(inv_step hi.1 hs).1, (inv_step hi.1 hs).2.2 hown hi.2⟩
    exact hboth.2
  · intro s h j k earlier sub hj hk hne heq
    obtain ⟨hinv, -, hsubscriptions, sub', hopened, -⟩ := close_spec (inv_of_reach h) hj
    have hthere : (s.close j earlier).opened[k]? = some sub := by
      rw [hopened]
      exact getElem?_set_of_ne hne hk
    refine ⟨hthere, fun t ht => ?_⟩
    have habsent : Absent k (s.close j earlier) := by
      rintro entry hmem rfl
      exact ((hsubscriptions entry).mp hmem).2 ((hinv.current hmem hthere).1.symm.trans heq.symm)
    exact ((silent_of_reach hinv ht).2 k sub hthere habsent).2

/-- A subscription is returned from and another opened under its identifier. -/
def reopened : List (Action ℕ ℕ ℕ ℕ ℕ) :=
  [.subscriptionQuery ⟨0, 7, 5⟩ 1, .return 0, .subscribeToUpdates ⟨0, 7, 6⟩ 8]

/-- Both are there; the one that is open is registered, until the other one is closed. -/
theorem open_subscription_is_closed_away :
    ∃ (s : Bus ℕ ℕ ℕ ℕ ℕ) (earlier sub : Subscription ℕ ℕ ℕ ℕ ℕ),
    s.opened[0]? = some earlier ∧ s.opened[1]? = some sub ∧ get 0 s.subscriptions = some 1 ∧
      (s.close 0 earlier).opened[1]? = some sub ∧
        ∀ t, Reach step always (s.close 0 earlier) t → ∃ later, t.opened[1]? = some later ∧
          acceptedIn later.handler.trace = acceptedIn sub.handler.trace := by
  obtain ⟨s, hs, htwo⟩ := reach_guarded_any
    (s := localQueryBus ℕ ℕ ℕ ℕ ℕ)
    (P := fun s : Bus ℕ ℕ ℕ ℕ ℕ =>
      s.opened[0]?.any (fun earlier : Subscription ℕ ℕ ℕ ℕ ℕ =>
        s.opened[1]?.any fun sub : Subscription ℕ ℕ ℕ ℕ ℕ => decide (earlier.query.identifier = 0 ∧
          sub.query.identifier = 0 ∧ sub.handler.completed = false)) = true)
    (show ((exec (guarded step fun s action => own s action = true)
      (localQueryBus ℕ ℕ ℕ ℕ ℕ) reopened).any fun s => decide _) = true by decide)
  obtain ⟨earlier, hk₀, hrest⟩ := (Option.any_eq_true _ _).mp htwo
  obtain ⟨sub, hk₁, hboth⟩ := (Option.any_eq_true _ _).mp hrest
  obtain ⟨hzero, hone, hopen⟩ := of_decide_eq_true hboth
  have hregistered := open_subscriptions_are_registered.1 s hs 1 sub hk₁ hopen
  rw [hone] at hregistered
  have haway :=
    open_subscriptions_are_registered.2 s (hs.weaken fun _ _ _ => trivial) 0 1 earlier sub
    hk₀ hk₁ Nat.one_ne_zero (hzero.trans hone.symm)
  exact ⟨s, earlier, sub, hk₀, hk₁, hregistered, haway⟩

end Kronos.QueryHandling.LocalQueryBus
