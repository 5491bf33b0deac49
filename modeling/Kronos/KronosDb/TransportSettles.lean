import Kronos.KronosDb.NativeTransport
import Kronos.Lib.Slots
import Mathlib.Data.List.Nodup

/-!
# Every request on a native connection settles

A request or a stream stands in its slot until it is over, and whatever ends the
connection fails the slots that are left. Two paths of `frame` leave this: a
failure frame whose body cannot be read gives up the slot before it is decoded,
and a sink that throws fails its stream once more when the connection was closed
while it ran. In every run without them a request is settled or stands in its
slot on a connection that is open.
-/
namespace Kronos.KronosDb.NativeTransport
open Kronos.Lib Kronos.Lib.Transition Kronos.Lib.Slots

/-- The next frame of `buf` is a whole failure frame for an open slot, and its body
cannot be read. -/
def unreadableFailure (s : State) (buf : Bytes) : Bool :=
  (readU32 buf).any fun length =>
    let total := length.1 + 4
    frameHeaderLen ≤ total && total ≤ s.maxFrame && total ≤ buf.length &&
      (readHeader length.2).any fun header =>
        header.1 = 0x8007 && header.2.2 != 0 && (OrderedMap.get header.2.2 s.slots).isSome &&
          (decodeRequestFailed ((buf.take total).drop frameHeaderLen)).isNone

/-- The stream at `i` may throw from its sink: it has its slot, or it is cancelled
or at its end and nobody else has the slot. -/
def mayThrow (s : State) (i : ℕ) : Bool :=
  s.parties[i]?.all fun party =>
    OrderedMap.get party.stream s.slots = some i ||
      ((OrderedMap.get party.stream s.slots).isNone && (party.ended || party.cancelled))

/-- The actions that keep clear of the two paths. -/
def steady (s : State) : Action → Bool
  | .consume _ _ =>
      match s.control with
      | .consuming buf _ => !unreadableFailure s buf || s.closed
      | _ => true
  | .sinkThrows _ =>
      match s.control with
      | .inSink i _ _ => mayThrow s i
      | _ => true
  | _ => true

namespace Party
variable (party : Party)

/-- Nothing has happened to it yet. -/
structure Waiting : Prop where
  outcome : party.outcome = none
  fails : party.fails = 0
  cancelled : party.cancelled = false
  ended : party.ended = false

/-- A request is settled; a stream is cancelled, at its end, or was failed once. -/
def Over : Prop :=
  (party.unary = true ∧ party.outcome.isSome = true) ∨
    (party.unary = false ∧ (party.cancelled = true ∨ party.ended = true ∨ party.fails = 1))

/-- `after` is the same request or stream, and a settled promise stays as it is. -/
structure Keeps (after : Party) : Prop where
  unary : after.unary = party.unary
  stream : after.stream = party.stream
  outcome : ∀ outcome, party.outcome = some outcome → after.outcome = some outcome

variable {party}

theorem keeps_fail : party.Keeps party.fail := by
  refine ⟨rfl, rfl, ?_⟩
  intro outcome houtcome
  by_cases hunary : party.unary = true
  · simp [fail, hunary, houtcome]
  · simp [fail, hunary, houtcome]

theorem keeps_reply (outcome : Outcome) : party.Keeps (party.reply outcome) := by
  refine ⟨rfl, rfl, ?_⟩
  intro settled hsettled
  simp [reply, hsettled]

theorem Waiting.over_fail (h : party.Waiting) : party.fail.Over := by
  cases hunary : party.unary with
  | true => exact .inl ⟨hunary, by simp [fail, hunary, h.outcome]⟩
  | false => exact .inr ⟨hunary, .inr (.inr (by simp [fail, h.fails]))⟩

theorem over_reply (hunary : party.unary = true) (outcome : Outcome) :
    (party.reply outcome).Over := by
  refine .inl ⟨hunary, ?_⟩
  cases hsettled : party.outcome with
  | none => simp [reply, hsettled]
  | some settled => simp [reply, hsettled]

/-- One more `fail` changes nothing for a stream whose end is known otherwise. -/
theorem Over.fail (h : party.Over) (hknown : party.ended = true ∨ party.cancelled = true) :
    party.fail.Over := by
  rcases h with ⟨hunary, hsettled⟩ | ⟨hunary, -⟩
  · refine .inl ⟨hunary, ?_⟩
    obtain ⟨outcome, houtcome⟩ := Option.isSome_iff_exists.mp hsettled
    rw [keeps_fail.outcome outcome houtcome]
    rfl
  · refine .inr ⟨hunary, ?_⟩
    rcases hknown with hended | hcancelled
    · exact .inr (.inl hended)
    · exact .inl hcancelled

end Party

/-! ## What a step can do -/

/-- The changes of slots and parties that the actions are made of. -/
inductive Change : State → State → Prop
  | quiet {s t : State} (slots : t.slots = s.slots) (parties : t.parties = s.parties)
      (closed : t.closed = s.closed) : Change s t
  /-- A request that could not be sent. -/
  | refused {s : State} (stream : ℕ) :
      Change s { s with parties := s.parties ++ [⟨true, stream, some .rejected, 0, false, false⟩] }
  | joined {s : State} (unary : Bool) (stream : ℕ) (free : OrderedMap.get stream s.slots = none)
      (isOpen : s.closed = false) :
      Change s
        { s with
          slots := OrderedMap.set stream s.parties.length s.slots
          parties := s.parties ++ [⟨unary, stream, none, 0, false, false⟩] }
  /-- The one that waits under `stream` gives up its slot and is over. -/
  | settled {s : State} {stream i : ℕ} (f : Party → Party)
      (holds : OrderedMap.get stream s.slots = some i)
      (ends : ∀ party, s.parties[i]? = some party → party.Waiting → (f party).Over)
      (keeps : ∀ party : Party, party.Keeps (f party)) :
      Change s ((s.release stream).update i f)
  /-- A stream that is at its end, or cancelled, has its `fail` called. -/
  | failed {s : State} {i : ℕ} {party : Party} (at_ : s.parties[i]? = some party)
      (known : party.ended = true ∨ party.cancelled = true) :
      Change s (s.update i Party.fail)
  | shut {s : State} : Change s s.shutdown
  | trans {s t u : State} : Change s t → Change t u → Change s u

theorem Change.throws {s t : State} (h : Change s t) : Change s t.throws :=
  (h.trans .shut).trans (.quiet rfl rfl rfl)

theorem nextStream_free {slots : List (ℕ × ℕ)} {tries last stream : ℕ}
    (h : nextStream slots tries last = some stream) : OrderedMap.get stream slots = none := by
  induction tries generalizing last with
  | zero => cases h
  | succ tries ih =>
      simp only [nextStream] at h
      split_ifs at h with hfree
      · cases h
        exact Option.isNone_iff_eq_none.mp hfree
      · exact ih h

section Changes
variable {s t : State}

theorem change_onData (chunk : Bytes) : Change s (s.onData chunk) := by
  unfold State.onData
  split
  · exact .quiet rfl rfl rfl
  · split_ifs
    · exact .quiet rfl rfl rfl
    · dsimp only
      split_ifs
      · exact .quiet rfl rfl rfl
      · exact .quiet rfl rfl rfl

theorem change_consumed (later : Bytes) : Change s (s.consumed later) := by
  unfold State.consumed
  split_ifs
  · exact .quiet rfl rfl rfl
  · exact change_onData later

theorem change_connectionFrame (kind : ℕ) (body buf later : Bytes) :
    Change s (s.connectionFrame kind body buf later) := by
  have hthrows : Change s s.throws := Change.throws (.quiet rfl rfl rfl)
  unfold State.connectionFrame
  dsimp only
  split
  · split
    · exact hthrows
    · split
      · exact hthrows
      · split
        · exact .quiet rfl rfl rfl
        · exact hthrows
  · split
    · split
      · exact hthrows
      · split
        · exact .quiet rfl rfl rfl
        · exact hthrows
    · split
      · exact .quiet rfl rfl rfl
      · exact hthrows

theorem change_slotFrame {i stream kind flags : ℕ} {party : Party} {body buf later : Bytes}
    {parses failThrows : Bool} (hslot : OrderedMap.get stream s.slots = some i)
    (hparty : s.parties[i]? = some party)
    (hreadable : ¬ (kind = 0x8007 ∧ decodeRequestFailed body = none)) :
    Change s (s.slotFrame i party stream kind flags body buf later parses failThrows) := by
  have hfails : Change s ((s.release stream).update i Party.fail) :=
    .settled Party.fail hslot (fun _ _ hwaiting => hwaiting.over_fail) fun _ => Party.keeps_fail
  unfold State.slotFrame
  dsimp only
  split
  case isTrue hkind =>
    split
    case h_1 hnone => exact absurd ⟨hkind, hnone⟩ hreadable
    case h_2 =>
      split
      · exact hfails.throws
      · exact hfails.trans (.quiet rfl rfl rfl)
  case isFalse =>
    split
    case isTrue hunary =>
      refine Change.trans (.settled _ hslot ?_ fun _ => Party.keeps_reply _) (.quiet rfl rfl rfl)
      intro waiting hwaiting _
      rw [hparty] at hwaiting
      cases hwaiting
      exact Party.over_reply hunary _
    case isFalse hunary =>
      split
      · refine Change.trans (.settled (fun party => { party with ended := true }) hslot ?_
          fun _ => ⟨rfl, rfl, fun _ h => h⟩) (.quiet rfl rfl rfl)
        intro waiting hwaiting _
        rw [hparty] at hwaiting
        cases hwaiting
        exact .inr ⟨Bool.eq_false_iff.mpr hunary, .inr (.inl rfl)⟩
      · exact .quiet rfl rfl rfl

theorem change_frame {kind flags stream : ℕ} {body buf later : Bytes} {parses failThrows : Bool}
    (hreadable : ¬ (kind = 0x8007 ∧ stream ≠ 0 ∧ (OrderedMap.get stream s.slots).isSome = true ∧
      decodeRequestFailed body = none)) :
    Change s (s.frame kind flags stream body buf later parses failThrows) := by
  unfold State.frame
  split
  · exact change_connectionFrame kind body buf later
  case isFalse hstream =>
    split
    · exact .quiet rfl rfl rfl
    case h_2 i hslot =>
      split
      · exact .quiet rfl rfl rfl
      case h_2 party hparty =>
        refine change_slotFrame hslot hparty ?_
        rintro ⟨hkind, hnone⟩
        exact hreadable ⟨hkind, hstream, by rw [hslot]; rfl, hnone⟩

theorem change_consume {buf later : Bytes} {parses failThrows : Bool}
    (hreadable : unreadableFailure s buf = false) :
    Change s (s.consume buf later parses failThrows) := by
  have hpending : ∀ pending, Change s ({ s with pending := pending }.consumed later) :=
    fun pending =>
      Change.trans (t := { s with pending := pending }) (.quiet rfl rfl rfl) (change_consumed later)
  have hthrows : Change s s.throws := Change.throws (.quiet rfl rfl rfl)
  unfold State.consume
  split
  · split
    · exact change_consumed later
    · exact hpending _
  case h_2 len afterLength hlen =>
    dsimp only
    split
    · exact hthrows
    case isFalse hfits =>
      split
      · exact hpending _
      case isFalse hwhole =>
        split
        · exact hthrows
        case h_2 kind flags stream hheader =>
          refine change_frame ?_
          rintro ⟨hkind, hstream, hslot, hnone⟩
          rw [not_or, Nat.not_lt, Nat.not_lt] at hfits
          have hshort : frameHeaderLen ≤ len + 4 := Nat.sub_le_iff_le_add.mp hfits.1
          simp [unreadableFailure, hlen, hheader, hkind, hstream, hslot, hnone, hshort, hfits.2,
            Nat.not_lt.mp hwhole] at hreadable

theorem step_changes {a : Action} (h : step s a = some t) (hok : steady s a = true) :
    Change s t := by
  cases a with
  | request sent =>
      simp only [step] at h
      split_ifs at h with hwelcome hopen
      · obtain ⟨stream, -, rfl⟩ := Option.map_eq_some_iff.mp h
        exact (Change.refused stream).trans (.quiet rfl rfl rfl)
      · obtain ⟨stream, hstream, rfl⟩ := Option.map_eq_some_iff.mp h
        rw [Bool.or_eq_true, not_or] at hopen
        exact (Change.joined true stream (nextStream_free hstream)
          (Bool.eq_false_iff.mpr hopen.1)).trans
          (.quiet rfl rfl rfl)
  | opened sent =>
      simp only [step] at h
      split_ifs at h with hwelcome hopen
      · obtain ⟨stream, -, rfl⟩ := Option.map_eq_some_iff.mp h
        exact .quiet rfl rfl rfl
      · obtain ⟨stream, hstream, rfl⟩ := Option.map_eq_some_iff.mp h
        rw [Bool.or_eq_true, not_or] at hopen
        exact (Change.joined false stream (nextStream_free hstream)
          (Bool.eq_false_iff.mpr hopen.1)).trans
          (.quiet rfl rfl rfl)
  | cancel i =>
      simp only [step] at h
      split at h
      · cases h
      case h_2 party hparty =>
        split_ifs at h with hunary hslot
        · cases h
          refine .settled _ hslot ?_ fun _ => ⟨rfl, rfl, fun _ h => h⟩
          intro waiting hwaiting _
          rw [hparty] at hwaiting
          cases hwaiting
          exact .inr ⟨Bool.eq_false_iff.mpr hunary, .inl rfl⟩
        · cases h
          exact .quiet rfl rfl rfl
  | close =>
      cases h
      exact .shut
  | data chunk =>
      simp only [step] at h
      split at h
      · split_ifs at h
        cases h
        exact change_onData chunk
      · cases h
  | consume parses failThrows =>
      simp only [step] at h
      split at h
      case h_1 buf later hcontrol =>
        split_ifs at h with hclosed
        · cases h
          exact .quiet rfl rfl rfl
        · cases h
          simp only [steady, hcontrol, hclosed, Bool.or_false, Bool.not_eq_true'] at hok
          exact change_consume hok
      · cases h
  | sinkReturns =>
      simp only [step] at h
      split at h
      · cases h
        exact .quiet rfl rfl rfl
      · cases h
  | sinkThrows failThrows =>
      simp only [step] at h
      split at h
      case h_1 i buf later hcontrol =>
        split at h
        · cases h
        case h_2 party hparty =>
          have hfails : Change s ((s.release party.stream).update i Party.fail) := by
            simp only [steady, hcontrol, mayThrow, hparty, Option.all_some, Bool.or_eq_true,
              decide_eq_true_eq, Bool.and_eq_true] at hok
            rcases hok with hslot | ⟨hnone, hknown⟩
            · exact .settled Party.fail hslot (fun _ _ hwaiting => hwaiting.over_fail)
                fun _ => Party.keeps_fail
            · have hsame : s.release party.stream = s := by
                rw [State.release, OrderedMap.delete_eq_self (Option.isNone_iff_eq_none.mp hnone)]
              rw [hsame]
              exact .failed hparty hknown
          split_ifs at h
          · cases h
            exact hfails.throws
          · cases h
            exact hfails.trans (.quiet rfl rfl rfl)
      · cases h

end Changes

/-! ## The invariant -/

structure Inv (s : State) : Prop where
  nodup : (s.slots.map Prod.fst).Nodup
  waits : ∀ {stream i}, OrderedMap.get stream s.slots = some i →
    ∃ party, s.parties[i]? = some party ∧ party.stream = stream ∧ party.Waiting
  closed : s.closed = true → s.slots = []
  fate : ∀ {i party}, s.parties[i]? = some party →
    OrderedMap.get party.stream s.slots = some i ∨ party.Over

theorem inv_initial : Inv initial where
  nodup := List.nodup_nil
  waits := by
    intro stream i hget
    cases hget
  closed := fun _ => rfl
  fate := by
    intro i party hparty
    cases hparty

section Invariant
variable {s t : State}

theorem Inv.quiet (hi : Inv s) (hslots : t.slots = s.slots) (hparties : t.parties = s.parties)
    (hclosed : t.closed = s.closed) : Inv t where
  nodup := hslots ▸ hi.nodup
  waits := by
    rw [hslots, hparties]
    exact hi.waits
  closed := by
    rw [hslots, hclosed]
    exact hi.closed
  fate := by
    rw [hslots, hparties]
    exact hi.fate

theorem Inv.refused (hi : Inv s) (stream : ℕ) :
    Inv { s with parties := s.parties ++ [⟨true, stream, some .rejected, 0, false, false⟩] } where
  nodup := hi.nodup
  waits := by
    intro id i hget
    obtain ⟨party, hparty, hwaits⟩ := hi.waits hget
    exact ⟨party, getElem?_append_of_some hparty, hwaits⟩
  closed := hi.closed
  fate := by
    intro i party hparty
    rcases getElem?_concat_cases hparty with ⟨-, rfl⟩ | hold
    · exact .inr (.inl ⟨rfl, rfl⟩)
    · exact hi.fate hold

theorem Inv.joined (hi : Inv s) (unary : Bool) {stream : ℕ}
    (hfree : OrderedMap.get stream s.slots = none) (hopen : s.closed = false) :
    Inv { s with
          slots := OrderedMap.set stream s.parties.length s.slots
          parties := s.parties ++ [⟨unary, stream, none, 0, false, false⟩] } where
  nodup := OrderedMap.nodup_keys_set hi.nodup
  waits := by
    intro id i hget
    rcases OrderedMap.get_set_cases hget with ⟨rfl, rfl⟩ | ⟨-, hold⟩
    · exact ⟨_, List.getElem?_concat_length, rfl, rfl, rfl, rfl, rfl⟩
    · obtain ⟨party, hparty, hwaits⟩ := hi.waits hold
      exact ⟨party, getElem?_append_of_some hparty, hwaits⟩
  closed := by
    intro hclosed
    rw [hopen] at hclosed
    cases hclosed
  fate := by
    intro i party hparty
    rcases getElem?_concat_cases hparty with ⟨rfl, rfl⟩ | hold
    · exact .inl (OrderedMap.get_set_self _ _ _)
    · rcases hi.fate hold with hslot | hover
      · have hne : party.stream ≠ stream := by
          rintro rfl
          rw [hfree] at hslot
          cases hslot
        exact .inl ((OrderedMap.get_set_of_ne hne _ _).trans hslot)
      · exact .inr hover

/-- Two slots never hold the same party. -/
theorem Inv.stream_eq (hi : Inv s) {stream id i : ℕ}
    (h : OrderedMap.get stream s.slots = some i) (k : OrderedMap.get id s.slots = some i) :
    id = stream := by
  obtain ⟨party, hparty, rfl, -⟩ := hi.waits h
  obtain ⟨other, hother, rfl, -⟩ := hi.waits k
  rw [hparty] at hother
  cases hother
  rfl

theorem Inv.settled (hi : Inv s) {stream i : ℕ} {f : Party → Party}
    (hslot : OrderedMap.get stream s.slots = some i)
    (hover : ∀ party, s.parties[i]? = some party → party.Waiting → (f party).Over) :
    Inv ((s.release stream).update i f) where
  nodup := OrderedMap.nodup_keys_delete hi.nodup
  waits := by
    intro id j hget
    obtain ⟨hne, hold⟩ : id ≠ stream ∧ OrderedMap.get id s.slots = some j :=
      OrderedMap.get_delete_cases hget
    obtain ⟨party, hparty, hwaits⟩ := hi.waits hold
    have hother : j ≠ i := by
      rintro rfl
      exact hne (hi.stream_eq hslot hold)
    exact ⟨party, (getElem?_modify_of_ne hother f).trans hparty, hwaits⟩
  closed := by
    intro hclosed
    have hnone : s.slots = [] := hi.closed hclosed
    rw [hnone] at hslot
    cases hslot
  fate := by
    intro j party hparty
    obtain ⟨waiting, hwaiting, hstream, hwaits⟩ := hi.waits hslot
    rcases eq_or_ne j i with rfl | hne
    · have hafter : some (f waiting) = some party := by
        rw [← hparty]
        exact ((getElem?_modify_self f).trans (congrArg (Option.map f) hwaiting)).symm
      cases hafter
      exact .inr (hover waiting hwaiting hwaits)
    · have hold : s.parties[j]? = some party := (getElem?_modify_of_ne hne f).symm.trans hparty
      rcases hi.fate hold with hmine | hdone
      · have hother : party.stream ≠ stream := by
          intro hsame
          rw [hsame, hslot] at hmine
          exact hne (Option.some.inj hmine).symm
        exact .inl ((OrderedMap.get_delete_of_ne hother _).trans hmine)
      · exact .inr hdone

theorem Inv.failed (hi : Inv s) {i : ℕ} {party : Party} (hparty : s.parties[i]? = some party)
    (hknown : party.ended = true ∨ party.cancelled = true) : Inv (s.update i Party.fail) where
  nodup := hi.nodup
  waits := by
    intro id j hget
    obtain ⟨waiting, hwaiting, hstream, hwaits⟩ := hi.waits hget
    have hne : j ≠ i := by
      rintro rfl
      rw [hparty] at hwaiting
      cases hwaiting
      rw [hwaits.ended, hwaits.cancelled] at hknown
      simp at hknown
    exact ⟨waiting, (getElem?_modify_of_ne hne _).trans hwaiting, hstream, hwaits⟩
  closed := hi.closed
  fate := by
    intro j after hafter
    rcases eq_or_ne j i with rfl | hne
    · have hfail : some party.fail = some after := by
        rw [← hafter]
        exact ((getElem?_modify_self _).trans (congrArg (Option.map Party.fail) hparty)).symm
      cases hfail
      rcases hi.fate hparty with hslot | hover
      · exact .inl hslot
      · exact .inr (hover.fail hknown)
    · exact hi.fate ((getElem?_modify_of_ne hne _).symm.trans hafter)

/-- Every party that stands in a slot stands in one only. -/
theorem Inv.nodup_waiting (hi : Inv s) : (s.slots.map Prod.snd).Nodup := by
  refine List.Nodup.map_on ?_ (List.Nodup.of_map _ hi.nodup)
  rintro ⟨stream, i⟩ hmem ⟨id, j⟩ hother heq
  cases heq
  have hsame :=
    hi.stream_eq (OrderedMap.get_of_mem hi.nodup hmem) (OrderedMap.get_of_mem hi.nodup hother)
  rw [hsame]

theorem Inv.shutdown (hi : Inv s) : Inv s.shutdown := by
  unfold State.shutdown
  split_ifs
  · exact hi
  · refine ⟨List.nodup_nil, ?_, fun _ => rfl, ?_⟩
    · intro stream i hget
      cases hget
    · intro i after hafter
      refine .inr ?_
      rw [getElem?_foldl_modify hi.nodup_waiting] at hafter
      split_ifs at hafter with hmem
      · obtain ⟨⟨stream, _⟩, hslot, rfl⟩ := List.mem_map.mp hmem
        obtain ⟨party, hparty, -, hwaits⟩ := hi.waits (OrderedMap.get_of_mem hi.nodup hslot)
        rw [hparty] at hafter
        cases hafter
        exact hwaits.over_fail
      · rcases hi.fate hafter with hslot | hover
        · exact absurd (List.mem_map_of_mem (OrderedMap.mem_of_get hslot)) hmem
        · exact hover

theorem Inv.change (hi : Inv s) (h : Change s t) : Inv t := by
  induction h with
  | quiet hslots hparties hclosed => exact hi.quiet hslots hparties hclosed
  | refused stream => exact hi.refused stream
  | joined unary stream hfree hopen => exact hi.joined unary hfree hopen
  | settled f hslot hover _ => exact hi.settled hslot hover
  | failed hparty hknown => exact hi.failed hparty hknown
  | shut => exact hi.shutdown
  | trans _ _ first second => exact second (first hi)

end Invariant

theorem inv_of_reach {s : State} (h : Reach step (fun s a => steady s a = true) initial s) :
    Inv s :=
  h.invariant inv_initial fun _ _ _ _ hi hok hstep => hi.change (step_changes hstep hok)

/-! ## A settled promise stays settled -/

/-- Every party of `s` is there in `t`. -/
def Kept (s t : State) : Prop :=
  ∀ (i : ℕ) (party : Party), s.parties[i]? = some party →
    ∃ after, t.parties[i]? = some after ∧ party.Keeps after

theorem kept_modify {s t : State} {i : ℕ} {f : Party → Party} (h : t.parties = s.parties.modify i f)
    (hkeeps : ∀ party : Party, party.Keeps (f party)) : Kept s t := by
  intro j party hparty
  rw [h]
  rcases eq_or_ne j i with rfl | hne
  · exact ⟨f party, (getElem?_modify_self f).trans (congrArg (Option.map f) hparty), hkeeps party⟩
  · exact ⟨party, (getElem?_modify_of_ne hne f).trans hparty, rfl, rfl, fun _ h => h⟩

theorem kept_append {s t : State} {party : Party} (h : t.parties = s.parties ++ [party]) :
    Kept s t := by
  intro i old hold
  refine ⟨old, ?_, rfl, rfl, fun _ h => h⟩
  rw [h]
  exact getElem?_append_of_some hold

theorem Kept.trans {s t u : State} (h : Kept s t) (k : Kept t u) : Kept s u := by
  intro i party hparty
  obtain ⟨middle, hmiddle, hfirst⟩ := h i party hparty
  obtain ⟨after, hafter, hsecond⟩ := k i middle hmiddle
  refine ⟨after, hafter, hsecond.unary.trans hfirst.unary, hsecond.stream.trans hfirst.stream, ?_⟩
  intro outcome houtcome
  exact hsecond.outcome outcome (hfirst.outcome outcome houtcome)

theorem kept_shutdown {s : State} (hi : Inv s) : Kept s s.shutdown := by
  intro i party hparty
  unfold State.shutdown
  split_ifs
  · exact ⟨party, hparty, rfl, rfl, fun _ h => h⟩
  · dsimp only
    rw [getElem?_foldl_modify hi.nodup_waiting, hparty]
    split_ifs
    · exact ⟨party.fail, rfl, Party.keeps_fail⟩
    · exact ⟨party, rfl, rfl, rfl, fun _ h => h⟩

theorem Inv.kept {s t : State} (hi : Inv s) (h : Change s t) : Kept s t := by
  induction h with
  | quiet _ hparties _ =>
      intro i party hparty
      rw [hparties]
      exact ⟨party, hparty, rfl, rfl, fun _ h => h⟩
  | refused stream => exact kept_append rfl
  | joined unary stream _ _ => exact kept_append rfl
  | settled f _ _ hkeeps => exact kept_modify rfl hkeeps
  | failed _ _ => exact kept_modify rfl fun _ => Party.keeps_fail
  | shut => exact kept_shutdown hi
  | trans first _ ih ih' => exact (ih hi).trans (ih' (hi.change first))

theorem kept_of_reach {s t : State} (h : Reach step (fun s a => steady s a = true) initial s)
    (k : Reach step (fun s a => steady s a = true) s t) : Kept s t := by
  induction k with
  | start => exact fun i party hparty => ⟨party, hparty, rfl, rfl, fun _ h => h⟩
  | next hmid hok hstep ih =>
      exact ih.trans ((inv_of_reach (h.trans hmid)).kept (step_changes hstep hok))

/-! ## Every run -/

/-- In a run that keeps clear of the two paths: a request that is not settled stands
in its slot on an open connection, and a settled one stays as it settled; a stream
that was neither cancelled nor at its end stands in its slot on an open connection
and has heard of no failure, or it was failed once. -/
theorem every_request_settles {s : State} (h : Reach step (fun s a => steady s a = true) initial s)
    {i : ℕ} {party : Party} (hparty : s.parties[i]? = some party) :
    (party.unary = true →
      (party.outcome = none → s.closed = false ∧ OrderedMap.get party.stream s.slots = some i) ∧
      ∀ outcome, party.outcome = some outcome →
        ∀ t, Reach step (fun s a => steady s a = true) s t →
          ∃ after : Party, t.parties[i]? = some after ∧ after.outcome = some outcome) ∧
    (party.unary = false → party.cancelled = false → party.ended = false →
      (party.fails = 0 ∧ s.closed = false ∧ OrderedMap.get party.stream s.slots = some i) ∨
        party.fails = 1) := by
  have hi : Inv s := inv_of_reach h
  have hopen : OrderedMap.get party.stream s.slots = some i → s.closed = false := by
    intro hslot
    cases hclosed : s.closed with
    | false => rfl
    | true =>
        rw [hi.closed hclosed] at hslot
        cases hslot
  refine ⟨fun hunary => ⟨fun hnone => ?_, fun outcome houtcome t hreach => ?_⟩,
    fun hunary hcancelled hended => ?_⟩
  · rcases hi.fate hparty with hslot | ⟨-, hsettled⟩ | ⟨hstream, -⟩
    · exact ⟨hopen hslot, hslot⟩
    · rw [hnone] at hsettled
      cases hsettled
    · rw [hunary] at hstream
      cases hstream
  · obtain ⟨after, hafter, hkeeps⟩ := kept_of_reach h hreach i party hparty
    exact ⟨after, hafter, hkeeps.outcome outcome houtcome⟩
  · rcases hi.fate hparty with hslot | ⟨hrequest, -⟩ | ⟨-, hover⟩
    · obtain ⟨waiting, hwaiting, -, hwaits⟩ := hi.waits hslot
      rw [hparty] at hwaiting
      cases hwaiting
      exact .inl ⟨hwaits.fails, hopen hslot, hslot⟩
    · rw [hunary] at hrequest
      cases hrequest
    · rw [hcancelled, hended] at hover
      exact .inr (by simpa using hover)

def welcomeFrame : Bytes :=
  [30, 0, 0, 0, 0x01, 0x80, 0, 0, 0, 0, 0, 1, 0, 0, 0, 0, 0, 0, 0, 0, 0, 3, 0, 0, 0, 0, 0, 4, 0, 0,
    0, 0, 0, 0]

/-- A failure frame on stream 1 with `body`, of fewer than 200 bytes. -/
def failureFrame (body : Bytes) : Bytes :=
  [UInt8.ofNat (7 + body.length), 0, 0, 0, 0x07, 0x80, 0, 1, 0, 0, 0] ++ body

/-- A request and a stream are open when a failure frame arrives for the request, in
two chunks, and the connection closes: the request is settled, the stream failed. -/
theorem both_hear_of_the_end :
    ∃ s, Reach step (fun s a => steady s a = true) initial s ∧ s.closed = true ∧
      (∃ party : Party, s.parties[0]? = some party ∧ party.outcome.isSome = true) ∧
      ∃ party : Party, s.parties[1]? = some party ∧ party.fails = 1 := by
  obtain ⟨s, hs, hclosed, hrequest, hstream⟩ := reach_guarded_any (s := initial)
    (P := fun s => s.closed = true ∧
      (s.parties[0]?.any fun party => party.unary) = true ∧
      (s.parties[1]?.any fun party => !party.unary && !party.cancelled && !party.ended) = true)
    (show ((exec (guarded step fun s a => steady s a = true) initial
      [.data welcomeFrame, .consume true false, .consume true false, .request true, .opened true,
        .data ((failureFrame [5, 0, 0, 0, 0, 0]).take 6), .consume true false,
        .data ((failureFrame [5, 0, 0, 0, 0, 0]).drop 6), .consume true false, .close]).any
          fun s => decide _) = true by decide +kernel)
  obtain ⟨request, hfirst, hunary⟩ := (Option.any_eq_true _ _).mp hrequest
  obtain ⟨stream, hsecond, hkind⟩ := (Option.any_eq_true _ _).mp hstream
  simp only [Bool.and_eq_true, Bool.not_eq_true'] at hkind
  refine ⟨s, hs, hclosed, ⟨request, hfirst, ?_⟩, stream, hsecond, ?_⟩
  · cases hnone : request.outcome with
    | some outcome => rfl
    | none =>
        have hopen := (((every_request_settles hs hfirst).1 hunary).1 hnone).1
        rw [hclosed] at hopen
        cases hopen
  · rcases (every_request_settles hs hsecond).2 hkind.1.1 hkind.1.2 hkind.2 with
      ⟨-, hopen, -⟩ | hfails
    · rw [hclosed] at hopen
      cases hopen
    · exact hfails

/-- A failure frame with no body for the only request: the connection is closed and
the request waits for ever. -/
theorem request_left_pending :
    ∃ s, Reach step always initial s ∧ s.closed = true ∧ s.slots = [] ∧
      ∃ party : Party, s.parties[0]? = some party ∧ party.unary = true ∧ party.outcome = none := by
  obtain ⟨s, hs, hclosed, hslots, hparty⟩ := reach_exec_any (s := initial)
    (P := fun s => s.closed = true ∧ s.slots = [] ∧
      (s.parties[0]?.any fun party => party.unary && party.outcome.isNone) = true)
    (show ((exec step initial
      [.data welcomeFrame, .consume true false, .consume true false, .request true,
        .data (failureFrame []), .consume true false]).any fun s => decide _) = true by
      decide +kernel)
  obtain ⟨party, hfirst, hpending⟩ := (Option.any_eq_true _ _).mp hparty
  rw [Bool.and_eq_true] at hpending
  exact ⟨s, hs, hclosed, hslots, party, hfirst, hpending.1, Option.isNone_iff_eq_none.mp hpending.2⟩

end Kronos.KronosDb.NativeTransport
