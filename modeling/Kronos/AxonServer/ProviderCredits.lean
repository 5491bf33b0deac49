import Kronos.AxonServer.ProviderStream
import Kronos.Lib.Slots
import Kronos.Lib.Trace
import Mathlib.Algebra.Ring.Nat

/-!
# Announcements and credits of the provider stream

On every incarnation the names come before the credits, and the bus's count of credits
is that of the server: what was granted on the current stream less what came on it. As
long as the server sends against credits only, it always holds more than the threshold.
-/
namespace Kronos.AxonServer.ProviderStream
open Kronos.AxonServer.OutboundStream Kronos.Lib.Slots Kronos.Lib.Trace Kronos.Lib.Transition

section Sent
variable {N M : Type}

/-- The credits granted. -/
def credits (sent : List (Frame N M)) : ℕ :=
  (sent.map fun
    | .flowControl permits => permits
    | _ => 0).sum

/-- On a stream that was opened again all the names there were are announced. The first one
announces only names whose handler the next bus took, each in its `subscribe`, so there it
is one. -/
def Announced (k : ℕ) (names : List N) (sent : List (Frame N M)) : Prop :=
  if k = 0 then ∃ name, .subscribe name ∈ sent else ∀ name ∈ names, .subscribe name ∈ sent

/-- Credits are granted only after the names are announced, on the incarnation `k`. -/
def NamesFirst (k : ℕ) (names : List N) (sent : List (Frame N M)) : Prop :=
  Each (fun past frame => ∀ permits, frame = .flowControl permits → Announced k names past) sent

theorem credits_append (sent later : List (Frame N M)) :
    credits (sent ++ later) = credits sent + credits later := by
  simp [credits]

theorem credits_subscribe (names : List N) :
    credits (names.map Frame.subscribe : List (Frame N M)) = 0 := by
  induction names with
  | nil => rfl
  | cons name names ih =>
      exact (credits_append [Frame.subscribe name] (names.map Frame.subscribe)).trans
        (by rw [ih]; rfl)

/-- A frame that grants none changes no count. -/
theorem credits_concat {frame : Frame N M} (hframe : ∀ permits, frame ≠ .flowControl permits)
    (sent : List (Frame N M)) :
    credits (sent ++ [frame]) = credits sent := by
  rw [credits_append]
  cases frame with
  | subscribe name => rfl
  | flowControl permits => exact absurd rfl (hframe permits)
  | ack => rfl
  | message body => rfl

variable {k : ℕ} {names : List N} {sent : List (Frame N M)}

theorem namesFirst_concat {frame : Frame N M} (h : NamesFirst k names sent)
    (hframe : ∀ permits, frame ≠ .flowControl permits) : NamesFirst k names (sent ++ [frame]) :=
  each_concat h fun permits heq => absurd heq (hframe permits)

theorem namesFirst_grant (h : NamesFirst k names sent) (hnames : Announced k names sent)
    (permits : ℕ) : NamesFirst k names (sent ++ [.flowControl permits]) :=
  each_concat h fun _ _ => hnames

theorem Announced.mono {later : List (Frame N M)} (h : Announced k names sent)
    (hlater : sent ⊆ later) : Announced k names later := by
  unfold Announced at h ⊢
  split_ifs at h ⊢
  · obtain ⟨name, hname⟩ := h
    exact ⟨name, hlater hname⟩
  · exact fun name hname => hlater (h name hname)

theorem exists_grant (hgranted : 0 < credits sent) : ∃ permits, .flowControl permits ∈ sent := by
  induction sent using List.reverseRecOn with
  | nil => exact absurd hgranted (lt_irrefl 0)
  | append_singleton sent frame ih =>
      by_cases hframe : ∃ permits, frame = .flowControl permits
      · obtain ⟨permits, rfl⟩ := hframe
        exact ⟨permits, List.mem_append_right _ List.mem_cons_self⟩
      · rw [credits_concat fun permits heq => hframe ⟨permits, heq⟩] at hgranted
        obtain ⟨permits, hmem⟩ := ih hgranted
        exact ⟨permits, List.mem_append_left _ hmem⟩

/-- Where credits were granted the names are announced. -/
theorem announced_of_credits (h : NamesFirst k names sent) (hgranted : 0 < credits sent) :
    Announced k names sent := by
  obtain ⟨permits, hmem⟩ := exists_grant hgranted
  obtain ⟨before, after, rfl⟩ := List.append_of_mem hmem
  exact (h before _ after rfl permits rfl).mono (List.subset_append_left _ _)

theorem namesFirst_subscribe (k : ℕ) (names announced : List N) :
    NamesFirst k names (announced.map Frame.subscribe : List (Frame N M)) := by
  intro before frame after heq permits hframe
  have hmem : frame ∈ announced.map Frame.subscribe := by
    rw [heq]
    exact List.mem_append_right _ List.mem_cons_self
  obtain ⟨name, -, rfl⟩ := List.mem_map.mp hmem
  cases hframe

end Sent

variable {N M : Type}

/-! ## The invariant -/

/-- What holds of the incarnation `k`, the current one or not. -/
structure Kept (c : Config) (k : ℕ) (mine : Incarnation N M) : Prop where
  stream : OutboundStream.Inv c.maxBuffered mine.out
  announced : k ≠ 0 → ∀ name ∈ mine.names, .subscribe name ∈ mine.out.accepted
  order : NamesFirst k mine.names mine.out.accepted

/-- What holds of the current incarnation. -/
structure Serving (s : Provider N M) (mine : Incarnation N M) : Prop where
  announced : ∀ name ∈ s.returned, .subscribe name ∈ mine.out.accepted
  counted : s.permits = (credits mine.out.accepted : ℤ) - mine.received
  afforded : mine.received ≤ credits mine.out.accepted
  idle : s.streamStarted = false → credits mine.out.accepted = 0

structure Inv (c : Config) (s : Provider N M) : Prop where
  bounded : s.subscribedNames.length ≤ c.maxBuffered
  known : s.returned ⊆ s.subscribedNames
  begun : s.streamStarted = false → s.retired = []
  retired : ∀ k mine, s.retired[k]? = some mine → Kept c k mine
  kept : Kept c s.current s.outbound
  serving : Serving s s.outbound

theorem kept_fresh (c : Config) (k : ℕ) : Kept c k (.fresh N M) where
  stream := inv_initial c.maxBuffered
  announced := nofun
  order := each_nil

theorem inv_start (c : Config) : Inv c (initial N M) where
  bounded := Nat.zero_le _
  known := List.nil_subset _
  begun := fun _ => rfl
  retired := nofun
  kept := kept_fresh c 0
  serving := ⟨nofun, rfl, le_rfl, fun _ => rfl⟩

/-- The server holds more credits than the threshold, once it was granted any. -/
def Window (c : Config) (s : Provider N M) : Prop :=
  s.outbound.reading = true → s.shuttingDown = false → 0 < credits s.outbound.out.accepted →
    (c.threshold : ℤ) < s.permits

section Steps
variable {c : Config} {s t : Provider N M} {i : ℕ} {mine : Incarnation N M} {frame : Frame N M}

theorem getElem?_current (s : Provider N M) : s.incarnations[s.current]? = some s.outbound :=
  List.getElem?_concat_length

theorem send_of_some {out : Stream (Frame N M)}
    (h : s.outbound.out.send c.maxBuffered frame = some out) :
    s.send c frame = ({ s with outbound := { s.outbound with out } }, true) := by
  unfold Provider.send Provider.sendOn
  rw [getElem?_current, Option.bind_some, h]
  simp only [Provider.update, if_true]

/-- What `send` does: it throws, or the frame is accepted by the current stream. -/
theorem send_cases (c : Config) (s : Provider N M) (frame : Frame N M) :
    s.send c frame = (s, false) ∨
      ∃ out, s.outbound.out.send c.maxBuffered frame = some out ∧
        out.accepted = s.outbound.out.accepted ++ [frame] ∧
        s.send c frame = ({ s with outbound := { s.outbound with out } }, true) := by
  cases hsend : s.outbound.out.send c.maxBuffered frame with
  | none =>
      refine .inl ?_
      unfold Provider.send Provider.sendOn
      rw [getElem?_current, Option.bind_some, hsend]
  | some out => exact .inr ⟨out, rfl, accepted_of_send hsend, send_of_some hsend⟩

theorem Kept.send {k : ℕ} {out : Stream (Frame N M)} (h : Kept c k mine)
    (hframe : ∀ permits, frame ≠ .flowControl permits)
    (hsend : mine.out.send c.maxBuffered frame = some out) : Kept c k { mine with out } := by
  have haccepted := accepted_of_send hsend
  refine ⟨h.stream.send hsend, fun hk name hname => ?_, ?_⟩
  · rw [haccepted]
    exact List.mem_append_left _ (h.announced hk name hname)
  · rw [haccepted]
    exact namesFirst_concat h.order hframe

theorem Kept.grant {k permits : ℕ} {out : Stream (Frame N M)} (h : Kept c k mine)
    (hnames : Announced k mine.names mine.out.accepted)
    (hsend : mine.out.send c.maxBuffered (.flowControl permits) = some out) :
    Kept c k { mine with out } := by
  have haccepted := accepted_of_send hsend
  refine ⟨h.stream.send hsend, fun hk name hname => ?_, ?_⟩
  · rw [haccepted]
    exact List.mem_append_left _ (h.announced hk name hname)
  · rw [haccepted]
    exact namesFirst_grant h.order hnames permits

theorem Serving.send {out : Stream (Frame N M)} (h : Serving s mine)
    (hframe : ∀ permits, frame ≠ .flowControl permits)
    (hsend : mine.out.send c.maxBuffered frame = some out) : Serving s { mine with out } := by
  have haccepted := accepted_of_send hsend
  have hcredits : credits out.accepted = credits mine.out.accepted := by
    rw [haccepted, credits_concat hframe]
  refine ⟨fun name hname => ?_, ?_, ?_, ?_⟩
  · rw [haccepted]
    exact List.mem_append_left _ (h.announced name hname)
  · rw [hcredits]
    exact h.counted
  · rw [hcredits]
    exact h.afforded
  · rw [hcredits]
    exact h.idle

/-- A frame that grants nothing leaves the count and the window as they are. -/
theorem Inv.send (hi : Inv c s) (hframe : ∀ permits, frame ≠ .flowControl permits) :
    Inv c (s.send c frame).1 := by
  rcases send_cases c s frame with hthrown | ⟨out, hsend, -, hsent⟩
  · rw [hthrown]
    exact hi
  · rw [hsent]
    exact ⟨hi.bounded, hi.known, hi.begun, hi.retired, hi.kept.send hframe hsend,
      { hi.serving.send hframe hsend with }⟩

theorem Window.send (h : Window c s) (hframe : ∀ permits, frame ≠ .flowControl permits) :
    Window c (s.send c frame).1 := by
  rcases send_cases c s frame with hthrown | ⟨out, -, haccepted, hsent⟩
  · rw [hthrown]
    exact h
  · rw [hsent]
    unfold Window
    rw [haccepted, credits_concat hframe]
    exact h

/-- A grant throws and changes nothing, or the window is open after it. -/
theorem Inv.grantPermits (hi : Inv c s) (hstarted : s.streamStarted = true)
    (hnames : Announced s.current s.outbound.names s.outbound.out.accepted) :
    Inv c (s.grantPermits c).1 ∧ ((s.grantPermits c).2 = false → (s.grantPermits c).1 = s) ∧
      ((s.grantPermits c).2 = true → (c.threshold : ℤ) < (s.grantPermits c).1.permits) := by
  unfold Provider.grantPermits
  rcases send_cases c s (.flowControl c.permits) with hthrown | ⟨out, hsend, haccepted, hsent⟩
  · rw [hthrown]
    exact ⟨hi, fun _ => rfl, nofun⟩
  · rw [hsent]
    have hcredits : credits out.accepted = credits s.outbound.out.accepted + c.permits := by
      rw [haccepted, credits_append]
      rfl
    have hcounted := hi.serving.counted
    have hafforded := hi.serving.afforded
    have hbelow := c.below
    refine ⟨⟨hi.bounded, hi.known, hi.begun, hi.retired, hi.kept.grant hnames hsend,
      ⟨fun name hname => ?_, ?_, ?_, ?_⟩⟩, nofun, fun _ => ?_⟩
    · show .subscribe name ∈ out.accepted
      rw [haccepted]
      exact List.mem_append_left _ (hi.serving.announced name hname)
    · show s.permits + c.permits = (credits out.accepted : ℤ) - s.outbound.received
      rw [hcredits]
      push_cast
      omega
    · show s.outbound.received ≤ credits out.accepted
      omega
    · intro hidle
      exact absurd (hstarted.symm.trans hidle) nofun
    · show (c.threshold : ℤ) < s.permits + c.permits
      omega

/-! ## Steps that write nothing -/

/-- The incarnation is read, flushed, closed or left. -/
structure Quiet (mine after : Incarnation N M) : Prop where
  accepted : after.out.accepted = mine.out.accepted
  names : after.names = mine.names
  received : after.received = mine.received
  reading : after.reading = true → mine.reading = true

theorem Kept.quiet {k : ℕ} {after : Incarnation N M} (h : Kept c k mine) (hquiet : Quiet mine after)
    (hstream : OutboundStream.Inv c.maxBuffered after.out) : Kept c k after := by
  refine ⟨hstream, ?_, ?_⟩
  · rw [hquiet.names, hquiet.accepted]
    exact h.announced
  · rw [hquiet.names, hquiet.accepted]
    exact h.order

theorem Inv.update {f : Incarnation N M → Incarnation N M} (hi : Inv c s) (i : ℕ)
    (hquiet : ∀ mine, Quiet mine (f mine))
    (hstream : ∀ mine,
    OutboundStream.Inv c.maxBuffered mine.out → OutboundStream.Inv c.maxBuffered (f mine).out) :
    Inv c (s.update i f) := by
  have hkept : ∀ k mine, Kept c k mine → Kept c k (f mine) :=
    fun k mine h => h.quiet (hquiet mine) (hstream mine h.stream)
  unfold Provider.update
  split_ifs
  · have hserving := hi.serving
    refine ⟨hi.bounded, hi.known, hi.begun, hi.retired, hkept _ _ hi.kept, ⟨?_, ?_, ?_, ?_⟩⟩
    · rw [(hquiet _).accepted]
      exact hserving.announced
    · rw [(hquiet _).accepted, (hquiet _).received]
      exact hserving.counted
    · rw [(hquiet _).accepted, (hquiet _).received]
      exact hserving.afforded
    · rw [(hquiet _).accepted]
      exact hserving.idle
  · have hlength : (s.retired.modify i f).length = s.retired.length := List.length_modify _ _ _
    refine ⟨hi.bounded, hi.known, fun hidle => ?_, fun k mine hk => ?_, ?_, { hi.serving with }⟩
    · show s.retired.modify i f = []
      rw [hi.begun hidle]
      cases i <;> rfl
    · rcases eq_or_ne k i with rfl | hne
      · rw [getElem?_modify_self] at hk
        obtain ⟨earlier, hearlier, rfl⟩ := Option.map_eq_some_iff.mp hk
        exact hkept k earlier (hi.retired k earlier hearlier)
      · rw [getElem?_modify_of_ne hne] at hk
        exact hi.retired k mine hk
    · show Kept c (s.retired.modify i f).length s.outbound
      rw [hlength]
      exact hi.kept

theorem Window.update {f : Incarnation N M → Incarnation N M} (h : Window c s) (i : ℕ)
    (hquiet : ∀ mine, Quiet mine (f mine)) :
    Window c (s.update i f) := by
  unfold Provider.update
  split_ifs
  · intro hreading hup hgranted
    refine h ((hquiet _).reading hreading) hup ?_
    rw [← (hquiet _).accepted]
    exact hgranted
  · exact h

/-- An operation of a stream that accepts nothing. -/
theorem quiet_stream {f : Stream (Frame N M) → Stream (Frame N M)}
    (haccepted : ∀ stream, (f stream).accepted = stream.accepted) (mine : Incarnation N M) :
    Quiet mine { mine with out := f mine.out } :=
  ⟨haccepted _, rfl, rfl, id⟩

theorem quiet_quit (mine : Incarnation N M) : Quiet mine { mine with reading := false } :=
  ⟨rfl, rfl, rfl, nofun⟩

theorem Inv.stream {f : Stream (Frame N M) → Stream (Frame N M)} (hi : Inv c s) (i : ℕ)
    (haccepted : ∀ stream, (f stream).accepted = stream.accepted)
    (hstream : ∀ stream,
      OutboundStream.Inv c.maxBuffered stream → OutboundStream.Inv c.maxBuffered (f stream)) :
    Inv c (s.stream i f) :=
  hi.update i (quiet_stream haccepted) fun mine => hstream mine.out

theorem Window.stream {f : Stream (Frame N M) → Stream (Frame N M)} (h : Window c s) (i : ℕ)
    (haccepted : ∀ stream, (f stream).accepted = stream.accepted) : Window c (s.stream i f) :=
  h.update i (quiet_stream haccepted)

theorem Inv.closeOutbound (hi : Inv c s) : Inv c s.closeOutbound := by
  have hsame : s.closeOutbound = s.stream s.current Stream.close := by
    simp only [Provider.closeOutbound, Provider.stream, Provider.update, if_true]
  rw [hsame]
  exact hi.stream _ accepted_close fun _ h => h.close

theorem Inv.quit (hi : Inv c s) (i : ℕ) : Inv c (s.quit i) := hi.update i quiet_quit fun _ h => h

theorem Inv.failed (hi : Inv c s) (retryable : Bool) : Inv c (s.failed c retryable) := by
  unfold Provider.failed
  split_ifs
  · exact hi
  · exact hi
  · exact { hi with serving := { hi.serving with } }

theorem Window.failed (h : Window c s) (retryable : Bool) : Window c (s.failed c retryable) := by
  unfold Provider.failed
  split_ifs
  · exact h
  · exact h
  · exact h

theorem Inv.loopEnds (hi : Inv c s) (i : ℕ) (retryable : Bool) :
    Inv c (s.loopEnds c i retryable) := by
  unfold Provider.loopEnds
  split_ifs
  · exact (hi.quit i).failed retryable
  · exact hi.quit i

theorem Window.loopEnds (h : Window c s) (i : ℕ) (retryable : Bool) :
    Window c (s.loopEnds c i retryable) := by
  unfold Provider.loopEnds
  split_ifs
  · exact (h.update i quiet_quit).failed retryable
  · exact h.update i quiet_quit

/-- The loop over the current incarnation is over, so no window is asked for. -/
theorem window_loopEnds (s : Provider N M) (retryable : Bool) :
    Window c (s.loopEnds c s.current retryable) := by
  have hquit : Window c (s.quit s.current) := by
    intro hreading
    simp [Provider.quit, Provider.update] at hreading
  unfold Provider.loopEnds
  split_ifs
  · exact hquit.failed retryable
  · exact hquit

theorem Inv.ensureStreamStarted (hi : Inv c s) : Inv c s.ensureStreamStarted ∧
    s.ensureStreamStarted.streamStarted = true := by
  unfold Provider.ensureStreamStarted
  split_ifs with hstarted
  · exact ⟨hi, hstarted⟩
  · have haccepted : (s.openStream s.outbound).out.accepted = s.outbound.out.accepted := by
      unfold Provider.openStream Stream.iterator
      split_ifs <;> rfl
    have hstream : OutboundStream.Inv c.maxBuffered (s.openStream s.outbound).out := by
      unfold Provider.openStream
      cases hiterator : s.outbound.out.iterator with
      | none => exact hi.kept.stream
      | some out => exact hi.kept.stream.iterator hiterator
    have hserving := hi.serving
    have hfirst : s.current = 0 := by
      rw [Provider.current, hi.begun (Bool.eq_false_iff.mpr hstarted)]
      rfl
    refine ⟨⟨hi.bounded, hi.known, nofun, hi.retired, ⟨hstream, fun hk => absurd hfirst hk, ?_⟩,
      ⟨?_, ?_, ?_, nofun⟩⟩, rfl⟩
    · -- On the first stream the names do not matter.
      rw [haccepted]
      have horder := hi.kept.order
      rw [hfirst] at horder
      change NamesFirst s.current _ _
      rw [hfirst]
      exact horder
    · rw [haccepted]
      exact hserving.announced
    · rw [haccepted]
      exact hserving.counted
    · rw [haccepted]
      exact hserving.afforded

theorem Window.ensureStreamStarted (h : Window c s) (hi : Inv c s) :
    Window c s.ensureStreamStarted := by
  unfold Provider.ensureStreamStarted
  split_ifs with hstarted
  · exact h
  · intro _ _ hgranted
    have hidle := hi.serving.idle (Bool.eq_false_iff.mpr hstarted)
    have haccepted : (s.openStream s.outbound).out.accepted = s.outbound.out.accepted := by
      unfold Provider.openStream Stream.iterator
      split_ifs <;> rfl
    dsimp only at hgranted
    rw [haccepted, hidle] at hgranted
    exact absurd hgranted (lt_irrefl 0)

/-! ## Opening the stream again -/

theorem andThen_of_true {outcome : Provider.Outcome N M} (h : outcome.2 = true)
    (rest : Provider N M → Provider.Outcome N M) :
    outcome.andThen rest = rest outcome.1 := if_pos h

/-- On a stream with room enough all names are accepted, in their order. -/
theorem announce_eq (names : List N) (s : Provider N M) (hclosed : s.outbound.out.closed = false)
    (hwaiting : s.outbound.out.waiting = false)
    (hroom : s.outbound.out.queue.length + names.length ≤ c.maxBuffered) :
    s.announce c names =
      ({ s with
          outbound := { s.outbound with
            out := { s.outbound.out with
              queue := s.outbound.out.queue ++ names.map .subscribe
              accepted := s.outbound.out.accepted ++ names.map .subscribe } } }, true) := by
  induction names generalizing s with
  | nil => simp [Provider.announce]
  | cons name names ih =>
      have hfree : ¬c.maxBuffered ≤ s.outbound.out.queue.length := by
        rw [List.length_cons] at hroom
        omega
      have hsend : s.outbound.out.send c.maxBuffered (.subscribe name) =
          some { s.outbound.out with
            queue := s.outbound.out.queue ++ [.subscribe name]
            accepted := s.outbound.out.accepted ++ [.subscribe name] } := by
        simp [Stream.send, hclosed, hwaiting, hfree]
      have hsent := send_of_some (c := c) hsend
      rw [Provider.announce, Provider.sendSubscribe, hsent, andThen_of_true rfl, ih]
      · simp
      · exact hclosed
      · exact hwaiting
      · simp only [List.length_append, List.length_cons, List.length_nil] at hroom ⊢
        omega

/-- The stream that takes the place of the current one, with the names announced on it. -/
def Provider.announced (s : Provider N M) : Provider N M :=
  { s with
    retired := s.retired ++ [s.outbound]
    outbound :=
      { out :=
          { (outboundStream : Stream (Frame N M)) with
            claimed := true
            queue := s.subscribedNames.map .subscribe
            accepted := s.subscribedNames.map .subscribe }
        signal := some s.providerAbort
        reading := true
        received := 0
        names := s.subscribedNames }
    streamStarted := true
    permits := 0 }

theorem reestablishStreamBody_eq (c : Config) (s : Provider N M)
    (hbounded : s.subscribedNames.length ≤ c.maxBuffered) :
    s.reestablishStreamBody c =
      ((if c.renews then s.renew else s).closeOutbound.announced).grantPermits c := by
  have hnames : (if c.renews then s.renew else s).closeOutbound.subscribedNames.length ≤
      c.maxBuffered := by
    split_ifs
    · exact hbounded
    · exact hbounded
  unfold Provider.reestablishStreamBody
  dsimp only
  generalize (if c.renews then s.renew else s).closeOutbound = u at hnames
  rw [announce_eq u.subscribedNames, andThen_of_true rfl]
  · rfl
  · rfl
  · rfl
  · exact (Nat.zero_add _).trans_le hnames

theorem Inv.announced (hi : Inv c s) : Inv c s.announced ∧ Window c s.announced := by
  have hcredits : credits s.announced.outbound.out.accepted = 0 :=
    credits_subscribe s.subscribedNames
  have hmem : ∀ name ∈ s.subscribedNames,
      Frame.subscribe name ∈ s.announced.outbound.out.accepted :=
    fun name hname => List.mem_map.mpr ⟨name, hname, rfl⟩
  refine ⟨⟨hi.bounded, hi.known, nofun, fun k mine hk => ?_,
    ⟨?_, fun _ => hmem, namesFirst_subscribe _ _ _⟩, ⟨?_, ?_, Nat.zero_le _, nofun⟩⟩, ?_⟩
  · rcases getElem?_concat_cases hk with ⟨rfl, rfl⟩ | hold
    · exact hi.kept
    · exact hi.retired k mine hold
  · refine ⟨List.nil_prefix, fun _ => (List.nil_append _).symm, nofun, ?_, nofun, le_rfl,
      fun _ => rfl, nofun, nofun⟩
    exact (List.length_map _).trans_le hi.bounded
  · exact fun name hname => hmem name (hi.known hname)
  · rw [hcredits]
    rfl
  · intro _ _ hgranted
    rw [hcredits] at hgranted
    exact absurd hgranted (lt_irrefl 0)

theorem Inv.reopen (hi : Inv c s) (retryable : Bool) : Inv c (s.reopen c retryable) ∧
    Window c (s.reopen c retryable) := by
  have hclosed : Inv c (if c.renews then s.renew else s).closeOutbound := by
    split_ifs
    · exact ({ hi with serving := { hi.serving with } } : Inv c s.renew).closeOutbound
    · exact hi.closeOutbound
  unfold Provider.reopen
  rw [reestablishStreamBody_eq c s hi.bounded]
  generalize (if c.renews then s.renew else s).closeOutbound = closed at hclosed
  obtain ⟨hannounced, hwindow⟩ := hclosed.announced
  have hnames : Announced closed.announced.current closed.announced.outbound.names
      closed.announced.outbound.out.accepted := by
    have hlater : closed.announced.current ≠ 0 := by
      show (closed.retired ++ [closed.outbound]).length ≠ 0
      rw [List.length_append]
      exact Nat.succ_ne_zero _
    rw [Announced, if_neg hlater]
    exact hannounced.kept.announced hlater
  obtain ⟨hgranted, hthrown, hopen⟩ := hannounced.grantPermits rfl hnames
  split_ifs with hcame
  · exact ⟨hgranted, fun _ _ _ => hopen hcame⟩
  · have hback := hthrown (Bool.eq_false_iff.mpr hcame)
    rw [hback]
    exact ⟨hannounced.failed retryable, hwindow.failed retryable⟩

theorem Inv.timerFires (hi : Inv c s) (hw : Window c s) (retryable : Bool) :
    Inv c (s.timerFires c retryable) ∧ Window c (s.timerFires c retryable) := by
  have hfired : Inv c { s with timer := false } := { hi with serving := { hi.serving with } }
  unfold Provider.timerFires
  dsimp only
  split_ifs
  · exact ⟨hfired, hw⟩
  · exact hfired.reopen retryable

theorem Inv.restart (hi : Inv c s) (hw : Window c s) (retryable : Bool) :
    Inv c (s.restart c retryable) ∧ Window c (s.restart c retryable) := by
  have hrestarted : Inv c { s with timer := false, attempts := 0 } :=
    { hi with serving := { hi.serving with } }
  unfold Provider.restart
  split_ifs
  · exact ⟨hi, hw⟩
  · exact hrestarted.reopen retryable

/-! ## Receiving -/

theorem Inv.heard (hi : Inv c s) (stable : Bool) : Inv c (s.heard stable) := by
  unfold Provider.heard
  split_ifs
  · exact { hi with serving := { hi.serving with } }
  · exact hi

/-- What came against a credit is counted, and the window is open again unless a grant threw. -/
theorem Inv.consume (hi : Inv c s)
    (hcredit : s.outbound.received < credits s.outbound.out.accepted) :
    Inv c (s.consume c).1 ∧ ((s.consume c).2 = true → Window c (s.consume c).1) := by
  have hcounted := hi.serving.counted
  have hstarted : s.streamStarted = true := by
    by_contra hidle
    rw [hi.serving.idle (Bool.eq_false_iff.mpr hidle)] at hcredit
    exact absurd hcredit (Nat.not_lt_zero _)
  have hreceived : Inv c
      { s with
        permits := s.permits - 1
        outbound := { s.outbound with received := s.outbound.received + 1 } } := by
    refine ⟨hi.bounded, hi.known, hi.begun, hi.retired, { hi.kept with },
      ⟨hi.serving.announced, ?_, hcredit, hi.serving.idle⟩⟩
    push_cast
    omega
  unfold Provider.consume
  dsimp only
  split_ifs with hlow
  · obtain ⟨hgranted, -, hopen⟩ := hreceived.grantPermits hstarted
      (announced_of_credits hi.kept.order (Nat.zero_lt_of_lt hcredit))
    exact ⟨hgranted, fun hcame _ _ _ => hopen hcame⟩
  · refine ⟨hreceived, fun _ _ hup _ => ?_⟩
    exact Int.not_le.mp fun hle => hlow ⟨hle, hup⟩

theorem current_send (s : Provider N M) (frame : Frame N M) :
    (s.send c frame).1.current = s.current := by
  rcases send_cases c s frame with hthrown | ⟨out, -, -, hsent⟩
  · rw [hthrown]
  · rw [hsent]
    rfl

theorem current_consume (s : Provider N M) : (s.consume c).1.current = s.current := by
  unfold Provider.consume Provider.grantPermits Provider.Outcome.andThen
  dsimp only
  split_ifs
  · exact current_send _ _
  · exact current_send _ _
  · rfl

/-- An acknowledgement is counted nowhere. -/
theorem acknowledge_cases (c : Config) (s : Provider N M) (instruction : Bool) :
    (s.acknowledge c instruction).1.current = s.current ∧
      (s.acknowledge c instruction).1.outbound.received = s.outbound.received ∧
      credits (s.acknowledge c instruction).1.outbound.out.accepted =
        credits s.outbound.out.accepted := by
  have hack : ∀ permits, (Frame.ack : Frame N M) ≠ .flowControl permits := nofun
  unfold Provider.acknowledge
  split_ifs
  · rcases send_cases c s .ack with hthrown | ⟨out, -, haccepted, hsent⟩
    · rw [hthrown]
      exact ⟨rfl, rfl, rfl⟩
    · rw [hsent]
      refine ⟨rfl, rfl, ?_⟩
      rw [haccepted, credits_concat hack]
  · exact ⟨rfl, rfl, rfl⟩

theorem Inv.acknowledge (hi : Inv c s) (hw : Window c s) (instruction : Bool) :
    Inv c (s.acknowledge c instruction).1 ∧ Window c (s.acknowledge c instruction).1 := by
  unfold Provider.acknowledge
  split_ifs
  · exact ⟨hi.send nofun, hw.send nofun⟩
  · exact ⟨hi, hw⟩

theorem heard_cases (s : Provider N M) (stable : Bool) :
    (s.heard stable).current = s.current ∧ (s.heard stable).outbound = s.outbound := by
  unfold Provider.heard
  split_ifs <;> exact ⟨rfl, rfl⟩

theorem Window.heard (hw : Window c s) (stable : Bool) : Window c (s.heard stable) := by
  unfold Provider.heard
  split_ifs
  · exact hw
  · exact hw

/-- The server sent against a credit. -/
theorem Inv.receive (hi : Inv c s) (hw : Window c s) (i : ℕ) (instruction stable retryable : Bool)
    (hcredit : i = s.current → s.outbound.received < credits s.outbound.out.accepted) :
    Inv c (s.receive c i instruction stable retryable).1 ∧
      Window c (s.receive c i instruction stable retryable).1 := by
  unfold Provider.receive
  split_ifs with hcurrent
  · obtain ⟨hnumber, hout⟩ := heard_cases s stable
    obtain ⟨hnumber', hreceived, hcredits⟩ := acknowledge_cases c (s.heard stable) instruction
    obtain ⟨hi', hw'⟩ := (hi.heard stable).acknowledge (hw.heard stable) instruction
    have hthis : ((s.heard stable).acknowledge c instruction).1.outbound.received <
        credits ((s.heard stable).acknowledge c instruction).1.outbound.out.accepted := by
      rw [hreceived, hcredits, hout]
      exact hcredit hcurrent
    have hsame : ((s.heard stable).acknowledge c instruction).1.current = i := by
      rw [hnumber', hnumber, hcurrent]
    generalize (s.heard stable).acknowledge c instruction = acknowledged at hi' hw' hthis hsame
    obtain ⟨hconsumed, hopen⟩ := hi'.consume hthis
    have hstays := current_consume (c := c) acknowledged.1
    unfold Provider.Outcome.andThen
    cases hcame : acknowledged.2 with
    | false =>
        simp only [hcame, Bool.false_eq_true, if_false]
        exact ⟨hi'.loopEnds i retryable, hw'.loopEnds i retryable⟩
    | true =>
        simp only [if_true]
        split_ifs with hgranted
        · exact ⟨hconsumed, hopen hgranted⟩
        · refine ⟨hconsumed.loopEnds i retryable, ?_⟩
          rw [← hsame, ← hstays]
          exact window_loopEnds _ retryable
  · exact ⟨hi.quit i, hw.update i quiet_quit⟩

/-! ## The other steps -/

/-- What a bus sends on an incarnation of its choice. -/
theorem Inv.sendOn (hi : Inv c s) (hw : Window c s) (i : ℕ) (body : M) :
    Inv c (s.sendOn c i (.message body)).1 ∧ Window c (s.sendOn c i (.message body)).1 := by
  have hframe : ∀ permits, (Frame.message body : Frame N M) ≠ .flowControl permits := nofun
  rcases eq_or_ne i s.current with rfl | hne
  · exact ⟨hi.send hframe, hw.send hframe⟩
  · unfold Provider.sendOn
    cases hsend : s.incarnations[i]?.bind fun mine =>
      mine.out.send c.maxBuffered (.message body) with
    | none => exact ⟨hi, hw⟩
    | some out =>
        obtain ⟨mine, hmine, hout⟩ := Option.bind_eq_some_iff.mp hsend
        have hretired : s.retired[i]? = some mine := by
          rcases getElem?_concat_cases hmine with ⟨hlast, -⟩ | hold
          · exact absurd hlast hne
          · exact hold
        simp only [Provider.update, hne, if_false]
        rw [modify_of_some hretired]
        refine ⟨⟨hi.bounded, hi.known, fun hidle => ?_, fun k other hother => ?_, ?_,
          { hi.serving with }⟩, hw⟩
        · show s.retired.set i { mine with out } = []
          rw [hi.begun hidle]
          rfl
        · rcases getElem?_set_cases hother with ⟨rfl, rfl⟩ | ⟨-, hold⟩
          · exact (hi.retired k mine hretired).send hframe hout
          · exact hi.retired k other hold
        · show Kept c (s.retired.set i { mine with out }).length s.outbound
          rw [List.length_set]
          exact hi.kept

theorem Inv.disconnect (hi : Inv c s) : Inv c s.disconnect := by
  have habort : Inv c s.abort := { hi with serving := { hi.serving with } }
  have hclosed := habort.closeOutbound
  exact { hclosed with serving := { hclosed.serving with } }

theorem Window.disconnect (hw : Window c s) : Window c s.disconnect := by
  intro hreading hup hgranted
  exact hw hreading hup (by rwa [← accepted_close s.outbound.out])

theorem Inv.shutdown (hi : Inv c s) : Inv c s.shutdown ∧ Window c s.shutdown :=
  ⟨{ hi with serving := { hi.serving with } }, fun _ hup => absurd hup nofun⟩

theorem Inv.reconnect (hi : Inv c s) (hw : Window c s) (retryable : Bool) :
    Inv c (s.reconnect c retryable) ∧ Window c (s.reconnect c retryable) := by
  have hback : Inv c { s with connected := true } := { hi with serving := { hi.serving with } }
  unfold Provider.reconnect
  dsimp only
  split_ifs
  · exact hback.restart hw retryable
  · exact ⟨hback, hw⟩

theorem accepted_grantPermits (c : Config) (s : Provider N M) :
    s.outbound.out.accepted <+: (s.grantPermits c).1.outbound.out.accepted ∧
      (s.grantPermits c).1.subscribedNames = s.subscribedNames := by
  unfold Provider.grantPermits
  rcases send_cases c s (.flowControl c.permits) with hthrown | ⟨out, -, haccepted, hsent⟩
  · rw [hthrown]
    exact ⟨List.prefix_rfl, rfl⟩
  · rw [hsent]
    refine ⟨?_, rfl⟩
    show s.outbound.out.accepted <+: out.accepted
    rw [haccepted]
    exact List.prefix_append _ _

theorem subscribedNames_ensureStreamStarted (s : Provider N M) :
    s.ensureStreamStarted.subscribedNames = s.subscribedNames := by
  unfold Provider.ensureStreamStarted
  split_ifs <;> rfl

/-- The name whose `subscribe` returns is announced on the current stream. -/
theorem Inv.returned (hi : Inv c s) {name : N} (hname : name ∈ s.subscribedNames)
    (hannounced : .subscribe name ∈ s.outbound.out.accepted) :
    Inv c { s with returned := s.returned ++ [name] } := by
  refine { hi with
    known := fun other hother => ?_,
    serving := { hi.serving with announced := fun other hother => ?_ } }
  · rcases List.mem_append.mp hother with hold | hnow
    · exact hi.known hold
    · exact List.mem_singleton.mp hnow ▸ hname
  · rcases List.mem_append.mp hother with hold | hnow
    · exact hi.serving.announced other hold
    · exact List.mem_singleton.mp hnow ▸ hannounced

/-- A name is announced, and then credits are granted. -/
theorem Inv.announceOne (hi : Inv c s) (hw : Window c s) (name : N) :
    ∀ announced, (s.ensureStreamStarted.sendSubscribe c name).andThen (fun s => s.grantPermits c) =
      announced →
      Inv c announced.1 ∧ Window c announced.1 ∧ announced.1.subscribedNames = s.subscribedNames ∧
        (announced.2 = true → .subscribe name ∈ announced.1.outbound.out.accepted) := by
  rintro announced rfl
  have hframe : ∀ permits, (Frame.subscribe name : Frame N M) ≠ .flowControl permits := nofun
  obtain ⟨hstarted, hon⟩ := hi.ensureStreamStarted
  have hopen := hw.ensureStreamStarted hi
  have hnames := subscribedNames_ensureStreamStarted s
  generalize s.ensureStreamStarted = started at hstarted hon hopen hnames
  have hsent : Inv c (started.send c (.subscribe name)).1 := hstarted.send hframe
  have hwindow : Window c (started.send c (.subscribe name)).1 := hopen.send hframe
  unfold Provider.sendSubscribe
  rcases send_cases c started (.subscribe name) with hthrown | ⟨out, -, haccepted, hout⟩
  · rw [hthrown]
    exact ⟨hstarted, hopen, hnames, nofun⟩
  · rw [hout] at hsent hwindow ⊢
    rw [andThen_of_true rfl]
    have hmem : .subscribe name ∈ out.accepted := by
      rw [haccepted]
      exact List.mem_append_right _ List.mem_cons_self
    have hall : Announced started.current started.outbound.names out.accepted := by
      unfold Announced
      split_ifs with hfirst
      · exact ⟨name, hmem⟩
      · exact hsent.kept.announced hfirst
    obtain ⟨hgranted, hback, hcame⟩ := hsent.grantPermits hon hall
    obtain ⟨hkept, hsame⟩ :=
      accepted_grantPermits c { started with outbound := { started.outbound with out } }
    refine ⟨hgranted, ?_, hsame.trans hnames, fun _ => hkept.subset hmem⟩
    cases hgrant : (Provider.grantPermits c
      { started with outbound := { started.outbound with out } }).2 with
    | false =>
        rw [hback hgrant]
        exact hwindow
    | true => exact fun _ _ _ => hcame hgrant

theorem Inv.subscribe [DecidableEq N] (hi : Inv c s) (hw : Window c s) (name : N) (accepted : Bool)
    (hroom : name ∈ s.subscribedNames ∨ s.subscribedNames.length < c.maxBuffered) :
    Inv c (s.subscribe c name accepted) ∧ Window c (s.subscribe c name accepted) := by
  have hnamed : Inv c (s.addName name) := by
    unfold Provider.addName
    split_ifs with hold
    · exact { hi with serving := { hi.serving with } }
    · refine { hi with
        bounded := ?_, known := fun other hother => ?_, serving := { hi.serving with } }
      · rw [List.length_append]
        exact Nat.succ_le_of_lt (hroom.resolve_left hold)
      · exact List.mem_append_left _ (hi.known hother)
  have hmem : name ∈ (s.addName name).subscribedNames := by
    simp only [Provider.addName]
    split_ifs with hold
    · exact hold
    · exact List.mem_append_right _ List.mem_cons_self
  have hwn : Window c (s.addName name) := hw
  unfold Provider.subscribe
  dsimp only
  generalize s.addName name = named at hnamed hmem hwn
  obtain ⟨hannounced, hwindow, hnames, hcame⟩ := hnamed.announceOne hwn name _ rfl
  split_ifs with haccepted hreturns
  · exact ⟨hannounced.returned (hnames ▸ hmem) (hcame hreturns), hwindow⟩
  · exact ⟨hannounced, hwindow⟩
  · exact ⟨hnamed, hwn⟩

end Steps

/-- The names fit the stream, and the server sends against credits. -/
def lawful [DecidableEq N] (c : Config) (s : Provider N M) : Action N M → Bool
  | .subscribe name _ =>
      s.subscribedNames.contains name || decide (s.subscribedNames.length < c.maxBuffered)
  | .receive i _ _ _ =>
      decide (i = s.current → s.outbound.received < credits s.outbound.out.accepted)
  | _ => true

theorem inv_step [DecidableEq N] {c : Config} {s t : Provider N M} {action : Action N M}
    (hi : Inv c s) (hw : Window c s) (hok : lawful c s action = true)
    (h : step c s action = some t) : Inv c t ∧ Window c t := by
  cases action with
  | subscribe name accepted =>
      obtain rfl := Option.some.inj h
      refine hi.subscribe hw name accepted ?_
      simpa [lawful] using hok
  | receive i instruction stable retryable =>
      simp only [step, Option.ite_none_right_eq_some, Option.some.injEq] at h
      exact h.2 ▸ hi.receive hw i instruction stable retryable (of_decide_eq_true hok)
  | loopEnds i retryable =>
      simp only [step, Option.ite_none_right_eq_some, Option.some.injEq] at h
      exact h.2 ▸ ⟨hi.loopEnds i retryable, hw.loopEnds i retryable⟩
  | giveUp i =>
      simp only [step, Option.ite_none_right_eq_some, Option.some.injEq] at h
      exact h.2 ▸ ⟨(hi.stream i accepted_close fun _ h => h.close).quit i,
        (hw.stream i accepted_close).update i quiet_quit⟩
  | sendOn i body =>
      obtain rfl := Option.some.inj h
      exact hi.sendOn hw i body
  | flush i =>
      obtain rfl := Option.some.inj h
      exact ⟨hi.stream i (fun _ => rfl) fun _ h => h.flush, hw.stream i fun _ => rfl⟩
  | next i =>
      simp only [step, Option.ite_none_right_eq_some, Option.some.injEq] at h
      exact h.2 ▸ ⟨hi.stream i accepted_next fun _ h => h.next, hw.stream i accepted_next⟩
  | «return» i =>
      simp only [step, Option.ite_none_right_eq_some, Option.some.injEq] at h
      exact h.2 ▸ ⟨hi.stream i accepted_return fun _ h => h.return, hw.stream i accepted_return⟩
  | timer retryable =>
      simp only [step, Option.ite_none_right_eq_some, Option.some.injEq] at h
      exact h.2 ▸ hi.timerFires hw retryable
  | disconnect =>
      obtain rfl := Option.some.inj h
      exact ⟨hi.disconnect, hw.disconnect⟩
  | reconnect retryable =>
      obtain rfl := Option.some.inj h
      exact hi.reconnect hw retryable
  | shutdown =>
      obtain rfl := Option.some.inj h
      exact hi.shutdown

theorem inv_of_reach [DecidableEq N] {c : Config} {s : Provider N M}
    (h : Reach (step c) (fun s action => lawful c s action = true) (initial N M) s) :
    Inv c s ∧ Window c s :=
  h.invariant (I := fun s => Inv c s ∧ Window c s) ⟨inv_start c, nofun⟩
    fun _ _ _ _ hi hok hs => inv_step hi.1 hi.2 hok hs

/-- On every incarnation credits are granted only after its names are announced: on one that was
opened again every name there was, on the first one at least one. What the
transport reads is the beginning of what was sent, and each name whose `subscribe` returned is
announced on the current stream. The bus counts the credits the server has left on it, and while the
bus serves the stream and is not shutting down the server never runs out of them: once granted any,
it has more than the threshold. -/
theorem names_come_first_and_credits_never_run_out [DecidableEq N] (c : Config) (s : Provider N M)
    (h : Reach (step c) (fun s action => lawful c s action = true) (initial N M) s) :
    (∀ k mine, s.incarnations[k]? = some mine →
        NamesFirst k mine.names mine.out.accepted ∧ mine.out.delivered <+: mine.out.accepted) ∧
      (∀ name ∈ s.returned, .subscribe name ∈ s.outbound.out.accepted) ∧
      s.permits = (credits s.outbound.out.accepted : ℤ) - s.outbound.received ∧
      (s.outbound.reading = true → s.shuttingDown = false → 0 < credits s.outbound.out.accepted →
        (c.threshold : ℤ) < s.permits) := by
  obtain ⟨hi, hw⟩ := inv_of_reach h
  refine ⟨fun k mine hmine => ?_, hi.serving.announced, hi.serving.counted, hw⟩
  rcases getElem?_concat_cases hmine with ⟨rfl, rfl⟩ | hold
  · exact ⟨hi.kept.order, hi.kept.stream.order⟩
  · exact ⟨(hi.retired k mine hold).order, (hi.retired k mine hold).stream.order⟩

/-- One credit at a time. -/
def oneCredit : Config := ⟨1, 0, Nat.one_pos, 4096, 30, true⟩

/-- A name is refused and two are served; the stream is lost, opened again, and topped up after a
message. -/
def reopened : List (Action Char Unit) :=
  [.subscribe 'x' false, .subscribe 'a' true, .subscribe 'b' true, .disconnect, .reconnect true,
    .receive 1 true false true]

theorem names_come_first_after_reconnect : ∃ s : Provider Char Unit,
    (∃ first, s.incarnations[0]? = some first ∧ first.names = ['x', 'a'] ∧
      first.out.accepted = [.subscribe 'a', .flowControl 1, .subscribe 'b', .flowControl 1] ∧
        NamesFirst 0 first.names first.out.accepted) ∧
      s.outbound.names = ['x', 'a', 'b'] ∧
      s.outbound.out.accepted = [.subscribe 'x', .subscribe 'a', .subscribe 'b',
        .flowControl 1, .ack,
        .flowControl 1] ∧
      NamesFirst 1 s.outbound.names s.outbound.out.accepted ∧
      s.permits = (credits s.outbound.out.accepted : ℤ) - s.outbound.received := by
  obtain ⟨s, hs, hfirst, hcurrent, hnames, haccepted⟩ := reach_guarded_any (s := initial Char Unit)
    (P := fun s : Provider Char Unit => s.incarnations[0]?.any
        (fun first : Incarnation Char Unit => decide (first.names = ['x', 'a'] ∧
          first.out.accepted = [.subscribe 'a', .flowControl 1, .subscribe 'b', .flowControl 1])) =
            true ∧
      s.incarnations[1]? = some s.outbound ∧ s.outbound.names = ['x', 'a', 'b'] ∧
      s.outbound.out.accepted = [.subscribe 'x', .subscribe 'a', .subscribe 'b',
        .flowControl 1, .ack,
        .flowControl 1])
    (show ((exec (guarded (step oneCredit) fun s action => lawful oneCredit s action = true)
      (initial Char Unit) reopened).any fun s => decide _) = true by decide)
  obtain ⟨first, hk, hboth⟩ := (Option.any_eq_true _ _).mp hfirst
  obtain ⟨hknown, hsent⟩ := of_decide_eq_true hboth
  obtain ⟨horder, -, hcounted, -⟩ := names_come_first_and_credits_never_run_out oneCredit s hs
  exact ⟨s, ⟨first, hk, hknown, hsent, (horder 0 first hk).1⟩, hnames, haccepted,
    (horder 1 _ hcurrent).1, hcounted⟩

end Kronos.AxonServer.ProviderStream
