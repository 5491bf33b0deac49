import Kronos.RabbitMq.InstanceGossip
import Kronos.Lib.Transition

/-!
# The mirrors agree

What an instance has published about a subscription and what it still has to publish
end, for every other instance, in what it claims now; for one that joins this is so
once its request is answered. So when nothing is under way the mirrors agree. An
instance that closes tells nobody: its subscriptions stay in the mirrors, unless they
were released, and the releases published, before.
-/
namespace Kronos.RabbitMq.SubscriberRegistry
open Kronos.Lib Kronos.Lib.Transition

variable {I X R : Type} [DecidableEq X]

/-- The actions under which the mirrors agree: a subscription is claimed by its own
instance only, no mirror overflows, and an instance is closed only when nobody is left
with one of its records by what it has published. -/
def steady [DecidableEq I] [Fintype I] (origin : X → I) (s : State I X R) : Action I X R → Bool
  | .claim i subId _ => origin subId = i
  | .deliver j i =>
      match (s j).inbox i with
      | .claim subId _ :: _ => (s j).closed || decide (i = j) || !(s j).full subId
      | _ => true
  | .close i => decide (∀ j, j ≠ i → (s j).phase ≠ .away → (s j).closed = false →
      ∀ entry ∈ hearAll i (s j).mirror ((s j).inbox i), entry.2.2 ≠ i)
  | _ => true

/-! ## The cluster -/

section Cluster
variable {origin : X → I} {s t : State I X R} {a b i : I} {x : X}

/-- `j` has a request to `i` under way. -/
def Asking (s : State I X R) (j i : I) : Prop :=
  (s j).phase = .bound ∨ (s j).phase = .consuming ∨ .syncRequest ∈ (s i).inbox j

/-- What `j` will hold when all that `i` has to say has reached it. -/
def view (s : State I X R) (i j : I) (x : X) : Option (R × I) :=
  (word i x ((s j).inbox i ++ (s i).outbox)).getD (OrderedMap.get x (s j).mirror)

/-- It is what `i` claims, or nothing while `j` asks. -/
def Seen (s : State I X R) (i j : I) (x : X) : Prop :=
  view s i j x = current i (s i) x ∨ (view s i j x = none ∧ Asking s j i)

structure Inv (origin : X → I) (s : State I X R) : Prop where
  each : ∀ i, Local origin i (s i)
  /-- One that does not consume yet has published nothing. -/
  silent : ∀ i, (s i).phase = .away ∨ (s i).phase = .bound → ∀ j, (s j).inbox i = [] ∧
    (j ≠ i → ∀ x, origin x = i → OrderedMap.get x (s j).mirror = none)
  seen : ∀ i j, i ≠ j → (s j).phase ≠ .away → (s j).closed = false → ∀ x, origin x = i →
    Seen s i j x

theorem inv_initial (origin : X → I) : Inv origin (initial I X R) where
  each := local_initial origin
  silent := fun _ _ _ => ⟨rfl, fun _ _ _ => rfl⟩
  seen := fun _ _ _ haway => absurd rfl haway

theorem Seen.congr (h : Seen s a b x) (hview : view t a b x = view s a b x)
    (hcurrent : current a (t a) x = current a (s a) x) (hasking : Asking s b a → Asking t b a) :
    Seen t a b x := by
  unfold Seen
  rw [hview, hcurrent]
  exact h.imp id fun hnone => ⟨hnone.1, hasking hnone.2⟩

/-- One that claims nothing has nothing to be asked for. -/
theorem Seen.of_current_none (h : Seen s a b x) (hnone : current a (s a) x = none)
    (hview : view t a b x = view s a b x) (hcurrent : current a (t a) x = current a (s a) x) :
    Seen t a b x := by
  refine .inl ?_
  rw [hview, hcurrent, hnone]
  rcases h with heq | ⟨hview, -⟩
  · rw [heq, hnone]
  · exact hview

theorem Local.current_of_closed {mine : Instance I X R} (h : Local origin i mine)
    (hclosed : mine.closed = true) : current i mine x = none := by
  rw [current, (h.gone hclosed).1]
  rfl

variable [DecidableEq I]

omit [DecidableEq X] in
theorem update_self (s : State I X R) (i : I) (mine : Instance I X R) :
    s.update i mine i = mine := by
  simp [State.update]

omit [DecidableEq X] in
theorem update_of_ne (s : State I X R) {i j : I} (hne : j ≠ i) (mine : Instance I X R) :
    s.update i mine j = s j := by
  simp [State.update, hne]

theorem Inv.each_update (hi : Inv origin s) {after : Instance I X R}
    (h : Local origin i after) (k : I) :
    Local origin k (s.update i after k) := by
  rcases eq_or_ne k i with rfl | hne
  · rw [update_self]
    exact h
  · rw [update_of_ne s hne]
    exact hi.each k

/-- The bus of `i` claims or releases. -/
theorem Inv.speaks (hi : Inv origin s) {after : Instance I X R} {said : List (GossipEnvelope X R)}
    (hlocal : Local origin i after) (h : Speaks origin i (s i) after said) :
    Inv origin (s.update i after) where
  each := hi.each_update hlocal
  silent := by
    intro k hphase j
    have hold : (s k).phase = .away ∨ (s k).phase = .bound := by
      rcases eq_or_ne k i with rfl | hne
      · rw [update_self, h.phase] at hphase
        exact hphase
      · rw [update_of_ne s hne] at hphase
        exact hphase
    rcases eq_or_ne j i with rfl | hne
    · rw [update_self, h.inbox]
      refine ⟨(hi.silent k hold j).1, fun hother x hx => ?_⟩
      rw [h.mirror x (by rw [hx]; exact hother.symm)]
      exact (hi.silent k hold j).2 hother x hx
    · rw [update_of_ne s hne]
      exact hi.silent k hold j
  seen := by
    intro a b hab hphase hclosed x hx
    rcases eq_or_ne a i with rfl | ha
    · rw [update_of_ne s hab.symm] at hphase hclosed
      have hview : view (s.update a after) a b x = (word a x said).getD (view s a b x) := by
        rw [view, update_self, update_of_ne s hab.symm, h.outbox, ← List.append_assoc, word_append,
          Option.getD_or]
        rfl
      have hasking : Asking s b a → Asking (s.update a after) b a := by
        unfold Asking
        rw [update_self, update_of_ne s hab.symm, h.inbox]
        exact id
      unfold Seen
      rw [hview, update_self, h.current]
      rcases hi.seen a b hab hphase hclosed x hx with heq | ⟨hnone, hask⟩
      · exact .inl (by rw [heq])
      · rw [hnone]
        cases word a x said with
        | none => exact .inr ⟨rfl, hasking hask⟩
        | some said => exact .inl rfl
    · rcases eq_or_ne b i with rfl | hb
      · rw [update_self, h.phase] at hphase
        rw [update_self, h.closed] at hclosed
        refine (hi.seen a b hab hphase hclosed x hx).congr ?_ (by rw [update_of_ne s ha]) ?_
        · rw [view, update_self, update_of_ne s ha, h.inbox, h.mirror x (by rw [hx]; exact ha)]
          rfl
        · unfold Asking
          rw [update_self, update_of_ne s ha, h.phase]
          exact id
      · rw [update_of_ne s hb] at hphase hclosed
        refine (hi.seen a b hab hphase hclosed x hx).congr ?_ (by rw [update_of_ne s ha]) ?_
        · rw [view, update_of_ne s ha, update_of_ne s hb]
          rfl
        · unfold Asking
          rw [update_of_ne s ha, update_of_ne s hb]
          exact id

/-! ## Joining -/

omit [DecidableEq X] in
theorem update_phase (s : State I X R) (i : I) (phase : Phase) (k : I) :
    s.update i { s i with phase := phase } k =
      { s k with phase := if k = i then phase else (s k).phase } := by
  rcases eq_or_ne k i with rfl | hne
  · rw [update_self, if_pos rfl]
  · rw [update_of_ne s hne, if_neg hne]

/-- An instance whose queue is bound goes on to `phase`. -/
theorem Inv.seen_phase (hi : Inv origin s) {phase : Phase} (hbound : (s i).phase ≠ .away)
    (hasking : phase = .bound ∨ phase = .consuming) (hab : a ≠ b)
    (hphase : (s b).phase ≠ .away ∨ b = i) (hclosed : (s b).closed = false) (hx : origin x = a) :
    Seen (s.update i { s i with phase := phase }) a b x := by
  have hold : (s b).phase ≠ .away := by
    rcases hphase with hphase | rfl
    · exact hphase
    · exact hbound
  refine (hi.seen a b hab hold hclosed x hx).congr ?_ ?_ ?_
  · rw [view, update_phase, update_phase]
    rfl
  · rw [update_phase]
    rfl
  · unfold Asking
    rw [update_phase, update_phase]
    dsimp only
    split_ifs
    · exact fun _ => hasking.imp id .inl
    · exact id

theorem Inv.bind (hi : Inv origin s) (haway : (s i).phase = .away) :
    Inv origin (s.update i { s i with phase := .bound }) where
  each := by
    refine hi.each_update ((hi.each i).phase nofun fun _ hconnected => ?_)
    rw [haway] at hconnected
    cases hconnected
  silent := by
    intro k hphase j
    have hold : (s k).phase = .away ∨ (s k).phase = .bound := by
      rcases eq_or_ne k i with rfl | hne
      · exact .inl haway
      · rw [update_of_ne s hne] at hphase
        exact hphase
    rw [update_phase]
    exact hi.silent k hold j
  seen := by
    intro a b hab hphase hclosed x hx
    rw [update_phase] at hclosed
    rcases eq_or_ne b i with rfl | hb
    · -- A mirror that has heard of nobody, before the request.
      obtain ⟨hinbox, hmirror⟩ := (hi.each b).fresh haway
      have hview : view (s.update b { s b with phase := .bound }) a b x =
          (word a x (s a).outbox).getD none := by
        rw [view, update_phase, update_phase]
        dsimp only
        rw [hinbox a, List.nil_append, hmirror x (by rw [hx]; exact hab)]
      unfold Seen
      rw [hview, update_of_ne s hab]
      rcases (hi.each a).truth x with hnone | hsome
      · refine .inr ⟨by rw [hnone]; rfl, .inl ?_⟩
        rw [update_self]
      · exact .inl (by rw [hsome]; rfl)
    · rw [update_of_ne s hb] at hphase
      refine (hi.seen a b hab hphase hclosed x hx).congr ?_ ?_ ?_
      · rw [view, update_phase, update_phase]
        rfl
      · rw [update_phase]
        rfl
      · unfold Asking
        rw [update_of_ne s hb, update_phase]
        exact id

theorem Inv.consume (hi : Inv origin s) (hbound : (s i).phase = .bound) :
    Inv origin (s.update i { s i with phase := .consuming }) where
  each := by
    refine hi.each_update ((hi.each i).phase nofun fun _ hconnected => ?_)
    rw [hbound] at hconnected
    cases hconnected
  silent := by
    intro k hphase j
    rw [update_phase] at hphase ⊢
    dsimp only at hphase
    split_ifs at hphase with hk
    · rcases hphase with hphase | hphase
      · cases hphase
      · cases hphase
    · exact hi.silent k hphase j
  seen := by
    intro a b hab hphase hclosed x hx
    rw [update_phase] at hclosed
    refine hi.seen_phase (by rw [hbound]; nofun) (.inr rfl) hab ?_ hclosed hx
    rcases eq_or_ne b i with rfl | hb
    · exact .inr rfl
    · rw [update_of_ne s hb] at hphase
      exact .inl hphase

/-! ## Publishing -/

section Broadcast
variable {envelopes : List (GossipEnvelope X R)}

omit [DecidableEq X] in
theorem broadcast_eq (s : State I X R) (i : I) (envelopes : List (GossipEnvelope X R)) (j : I) :
    s.broadcast i envelopes j = { s j with inbox := (s.broadcast i envelopes j).inbox } := by
  unfold State.broadcast
  split_ifs
  · rfl
  · rfl

omit [DecidableEq X] in
theorem inbox_broadcast_of_ne (s : State I X R) {i k : I} (hne : k ≠ i)
    (envelopes : List (GossipEnvelope X R)) (j : I) :
    (s.broadcast i envelopes j).inbox k = (s j).inbox k := by
  unfold State.broadcast
  split_ifs
  · simp [hne]
  · rfl

omit [DecidableEq X] in
theorem inbox_broadcast (s : State I X R) (i : I) (envelopes : List (GossipEnvelope X R)) {j : I}
    (hbound : (s j).phase ≠ .away) (hopen : (s j).closed = false) :
    (s.broadcast i envelopes j).inbox i = (s j).inbox i ++ envelopes := by
  simp [State.broadcast, hbound, hopen]

omit [DecidableEq X] in
theorem mem_inbox_broadcast {k j : I} {envelope : GossipEnvelope X R}
    (h : envelope ∈ (s j).inbox k) :
    envelope ∈ (s.broadcast i envelopes j).inbox k := by
  rcases eq_or_ne k i with rfl | hne
  · unfold State.broadcast
    split_ifs
    · simp only [Function.update_self, List.mem_append]
      exact .inl h
    · exact h
  · rw [inbox_broadcast_of_ne s hne]
    exact h

omit [DecidableEq X] in
theorem asking_broadcast (h : Asking s b a) : Asking (s.broadcast i envelopes) b a := by
  unfold Asking at h ⊢
  rw [broadcast_eq s i envelopes b]
  exact h.imp id fun h => h.imp id mem_inbox_broadcast

theorem view_broadcast_of_ne (hne : a ≠ i) :
    view (s.broadcast i envelopes) a b x = view s a b x := by
  rw [view, inbox_broadcast_of_ne s hne, broadcast_eq s i envelopes a, broadcast_eq s i envelopes b]
  rfl

theorem current_broadcast : current a (s.broadcast i envelopes a) x = current a (s a) x := by
  rw [broadcast_eq s i envelopes a]
  rfl

theorem Seen.broadcast_of_ne (h : Seen s a b x) (hne : a ≠ i) :
    Seen (s.broadcast i envelopes) a b x :=
  h.congr (view_broadcast_of_ne hne) current_broadcast asking_broadcast

/-- `i` publishes. What the others said is untouched; `hsender` is what becomes of
its own word. -/
theorem inv_broadcast (heach : ∀ k, Local origin k (s k))
    (htells : ∀ envelope ∈ envelopes, Tells origin i envelope)
    (hconsuming : (s i).phase ≠ .away ∧ (s i).phase ≠ .bound)
    (hsilent : ∀ k, (s k).phase = .away ∨ (s k).phase = .bound → ∀ j, (s j).inbox k = [] ∧
      (j ≠ k → ∀ x, origin x = k → OrderedMap.get x (s j).mirror = none))
    (hothers : ∀ a b, a ≠ i → a ≠ b → (s b).phase ≠ .away → (s b).closed = false → ∀ x,
      origin x = a →
      Seen (s.broadcast i envelopes) a b x)
    (hsender : ∀ b, i ≠ b → (s b).phase ≠ .away → (s b).closed = false → ∀ x, origin x = i →
      (word i x ((s b).inbox i ++ (envelopes ++ (s i).outbox))).getD
        (OrderedMap.get x (s b).mirror) =
        current i (s i) x ∨
      ((word i x ((s b).inbox i ++ (envelopes ++ (s i).outbox))).getD
        (OrderedMap.get x (s b).mirror) =
        none ∧ Asking s b i)) :
    Inv origin (s.broadcast i envelopes) where
  each := by
    intro k
    unfold State.broadcast
    split_ifs with hbound
    · refine (heach k).inbox_update hbound.1 ?_
      intro envelope hmem
      rcases List.mem_append.mp hmem with hold | hnew
      · exact (heach k).inbox i envelope hold
      · exact htells envelope hnew
    · exact heach k
  silent := by
    intro k hphase j
    rw [broadcast_eq s i envelopes k] at hphase
    have hne : k ≠ i := by
      rintro rfl
      exact hphase.elim hconsuming.1 hconsuming.2
    rw [inbox_broadcast_of_ne s hne, broadcast_eq s i envelopes j]
    exact hsilent k hphase j
  seen := by
    intro a b hab hphase hclosed x hx
    rw [broadcast_eq s i envelopes b] at hphase hclosed
    rcases eq_or_ne a i with rfl | hne
    · have hview : view (s.broadcast a envelopes) a b x =
          (word a x ((s b).inbox a ++ (envelopes ++ (s a).outbox))).getD
            (OrderedMap.get x (s b).mirror) := by
        rw [view, inbox_broadcast s a envelopes hphase hclosed, broadcast_eq s a envelopes a,
          broadcast_eq s a envelopes b, List.append_assoc]
      unfold Seen
      rw [hview, current_broadcast]
      exact (hsender b hab hphase hclosed x hx).imp id fun h => ⟨h.1, asking_broadcast h.2⟩
    · exact hothers a b hne hab hphase hclosed x hx

end Broadcast

/-- The joiner asks. One that is not bound yet will publish all it has to say. -/
theorem Inv.announce (hi : Inv origin s) (hconsuming : (s i).phase = .consuming) :
    Inv origin ((s.update i { s i with phase := .connected }).broadcast i [.syncRequest]) := by
  have hbound : (s i).phase ≠ .away := by
    rw [hconsuming]
    nofun
  refine inv_broadcast ?_ ?_ ?_ ?_ ?_ ?_
  · exact hi.each_update ((hi.each i).phase nofun fun hne => absurd rfl hne)
  · intro envelope hmem
    rw [List.mem_singleton.mp hmem]
    exact fun x hsaid => absurd rfl hsaid
  · rw [update_self]
    exact ⟨nofun, nofun⟩
  · intro k hphase j
    rw [update_phase] at hphase ⊢
    dsimp only at hphase
    split_ifs at hphase with hk
    · rcases hphase with hphase | hphase
      · cases hphase
      · cases hphase
    · exact hi.silent k hphase j
  · intro a b ha hab hphase hclosed x hx
    rw [update_phase] at hclosed
    have hview : view (s.update i { s i with phase := .connected }) a b x = view s a b x := by
      rw [view, update_phase, update_phase]
      rfl
    have hcurrent : current a (s.update i { s i with phase := .connected } a) x =
      current a (s a) x := by
      rw [update_phase]
      rfl
    rcases eq_or_ne b i with rfl | hb
    · unfold Seen
      rw [view_broadcast_of_ne ha, current_broadcast, hview, hcurrent]
      cases hover : (s a).closed with
      | true =>
          have hnone : current a (s a) x = none := (hi.each a).current_of_closed hover
          rw [hnone]
          rcases hi.seen a b hab hbound hclosed x hx with heq | ⟨hview, -⟩
          · exact .inl (heq.trans hnone)
          · exact .inl hview
      | false =>
          by_cases haway : (s a).phase = .away
          · refine .inl ?_
            obtain ⟨hinbox, hmirror⟩ := hi.silent a (.inl haway) b
            rw [view, hinbox, List.nil_append, hmirror hab.symm x hx]
            exact (hi.each a).unsaid (by rw [haway]; nofun) x
          · refine (hi.seen a b hab hbound hclosed x hx).imp id fun hnone =>
              ⟨hnone.1, .inr (.inr ?_)⟩
            have hopen : (s.update b { s b with phase := .connected } a).closed = false := by
              rw [update_of_ne s ha]
              exact hover
            have hthere : (s.update b { s b with phase := .connected } a).phase ≠ .away := by
              rw [update_of_ne s ha]
              exact haway
            rw [inbox_broadcast _ b _ hthere hopen]
            exact List.mem_append_right _ List.mem_cons_self
    · rw [update_of_ne s hb] at hphase
      refine Seen.broadcast_of_ne ?_ ha
      refine (hi.seen a b hab hphase hclosed x hx).congr hview hcurrent ?_
      unfold Asking
      rw [update_of_ne s hb, update_phase]
      exact id
  · intro b hb hphase hclosed x hx
    rw [update_of_ne s hb.symm] at hphase hclosed ⊢
    rw [update_self]
    dsimp only
    have hview : (word i x ((s b).inbox i ++ ([.syncRequest] ++ (s i).outbox))).getD
        (OrderedMap.get x (s b).mirror) = view s i b x := by
      rw [view, word_append, word_append, word_append]
      simp [word, say]
    rw [hview]
    refine (hi.seen i b hb hphase hclosed x hx).imp id fun hnone => ⟨hnone.1, ?_⟩
    have hask := hnone.2
    unfold Asking at hask ⊢
    rw [update_self, update_of_ne s hb.symm]
    exact hask

theorem Inv.publish (hi : Inv origin s) {envelope : GossipEnvelope X R}
    {outbox : List (GossipEnvelope X R)} (houtbox : (s i).outbox = envelope :: outbox)
    (hconnected : (s i).phase = .connected) :
    Inv origin ((s.update i { s i with outbox := outbox }).broadcast i [envelope]) := by
  have hsame : ∀ k, (s.update i { s i with outbox := outbox } k) =
      { s k with outbox := if k = i then outbox else (s k).outbox } := by
    intro k
    rcases eq_or_ne k i with rfl | hne
    · rw [update_self, if_pos rfl]
    · rw [update_of_ne s hne, if_neg hne]
  have hasking : ∀ a b, Asking s b a → Asking (s.update i { s i with outbox := outbox }) b a := by
    intro a b
    unfold Asking
    rw [hsame, hsame]
    exact id
  refine inv_broadcast (hi.each_update ((hi.each i).published houtbox hconnected)) ?_ ?_ ?_ ?_ ?_
  · intro later hmem
    rw [List.mem_singleton.mp hmem]
    exact (hi.each i).outbox envelope (by rw [houtbox]; exact List.mem_cons_self)
  · rw [hsame]
    dsimp only
    rw [hconnected]
    exact ⟨nofun, nofun⟩
  · intro k hphase j
    rw [hsame] at hphase ⊢
    exact hi.silent k hphase j
  · intro a b ha hab hphase hclosed x hx
    rw [hsame] at hphase hclosed
    refine Seen.broadcast_of_ne ?_ ha
    refine (hi.seen a b hab hphase hclosed x hx).congr ?_ ?_ (hasking a b)
    · rw [view, update_of_ne s ha, hsame]
      rfl
    · rw [update_of_ne s ha]
  · intro b hb hphase hclosed x hx
    rw [update_of_ne s hb.symm] at hphase hclosed ⊢
    rw [update_self]
    dsimp only
    rw [List.singleton_append, ← houtbox]
    exact (hi.seen i b hb hphase hclosed x hx).imp id fun hnone => ⟨hnone.1, hasking i b hnone.2⟩

/-! ## Receiving -/

section Deliver
variable {j : I} {envelope : GossipEnvelope X R} {rest : List (GossipEnvelope X R)}
  {mirror : List (X × R × I)}

/-- `j` after it took the next message of `i`. -/
def taken (s : State I X R) (j i : I) (rest : List (GossipEnvelope X R))
    (mirror : List (X × R × I)) :
    State I X R :=
  s.update j { s j with inbox := Function.update (s j).inbox i rest, mirror := mirror }

theorem Inv.silent_taken (hi : Inv origin s) (hinbox : (s j).inbox i = envelope :: rest)
    (hothers : ∀ x, origin x ≠ i → OrderedMap.get x mirror = OrderedMap.get x (s j).mirror) (k : I)
    (hphase : (taken s j i rest mirror k).phase = .away ∨
      (taken s j i rest mirror k).phase = .bound) (l : I) :
    (taken s j i rest mirror l).inbox k = [] ∧
      (l ≠ k → ∀ x, origin x = k → OrderedMap.get x (taken s j i rest mirror l).mirror = none) := by
  have hold : (s k).phase = .away ∨ (s k).phase = .bound := by
    unfold taken at hphase
    rcases eq_or_ne k j with rfl | hne
    · rw [update_self] at hphase
      exact hphase
    · rw [update_of_ne s hne] at hphase
      exact hphase
  have hne : k ≠ i := by
    rintro rfl
    rw [(hi.silent k hold j).1] at hinbox
    cases hinbox
  unfold taken
  rcases eq_or_ne l j with rfl | hl
  · rw [update_self]
    dsimp only
    rw [Function.update_of_ne hne]
    refine ⟨(hi.silent k hold l).1, fun hother x hx => ?_⟩
    rw [hothers x (by rw [hx]; exact hne)]
    exact (hi.silent k hold l).2 hother x hx
  · rw [update_of_ne s hl]
    exact hi.silent k hold l

/-- What the others have to say to anybody is the same as before. -/
theorem Inv.seen_taken (hi : Inv origin s) (hinbox : (s j).inbox i = envelope :: rest)
    (hheard : (s j).closed = false → i ≠ j → ∀ x, origin x = i →
      OrderedMap.get x mirror = (say i x envelope).getD (OrderedMap.get x (s j).mirror))
    (hothers : ∀ x, origin x ≠ i → OrderedMap.get x mirror = OrderedMap.get x (s j).mirror)
    (ha : a ≠ j) (hab : a ≠ b) (hphase : (s b).phase ≠ .away) (hclosed : (s b).closed = false)
    (hx : origin x = a) : Seen (taken s j i rest mirror) a b x := by
  have hseen := hi.seen a b hab hphase hclosed x hx
  unfold taken
  refine hseen.congr ?_ (by rw [update_of_ne s ha]) ?_
  · rcases eq_or_ne b j with rfl | hb
    · rw [view, update_self, update_of_ne s ha]
      dsimp only
      rcases eq_or_ne a i with rfl | hai
      · rw [Function.update_self, hheard hclosed hab x hx, view, hinbox, List.cons_append, word,
          Option.getD_or]
      · rw [Function.update_of_ne hai, hothers x (by rw [hx]; exact hai)]
        rfl
    · rw [view, update_of_ne s hb, update_of_ne s ha]
      rfl
  · unfold Asking
    rcases eq_or_ne b j with rfl | hb
    · rw [update_self, update_of_ne s ha]
      exact id
    · rw [update_of_ne s hb, update_of_ne s ha]
      exact id

/-- `j` takes a message that it need not answer. -/
theorem Inv.taken (hi : Inv origin s) (hinbox : (s j).inbox i = envelope :: rest)
    (hlocal : Local origin j
      { s j with inbox := Function.update (s j).inbox i rest, mirror := mirror })
    (hheard : (s j).closed = false → i ≠ j → ∀ x, origin x = i →
      OrderedMap.get x mirror = (say i x envelope).getD (OrderedMap.get x (s j).mirror))
    (hothers : ∀ x, origin x ≠ i → OrderedMap.get x mirror = OrderedMap.get x (s j).mirror)
    (hanswer : envelope = .syncRequest → (s j).closed = true ∨ i = j) :
    Inv origin (taken s j i rest mirror) where
  each := hi.each_update hlocal
  silent := hi.silent_taken hinbox hothers
  seen := by
    intro a b hab hphase hclosed x hx
    have hsame : (SubscriberRegistry.taken s j i rest mirror b).phase = (s b).phase ∧
        (SubscriberRegistry.taken s j i rest mirror b).closed = (s b).closed := by
      unfold SubscriberRegistry.taken
      rcases eq_or_ne b j with rfl | hb
      · rw [update_self]
        exact ⟨rfl, rfl⟩
      · rw [update_of_ne s hb]
        exact ⟨rfl, rfl⟩
    rw [hsame.1] at hphase
    rw [hsame.2] at hclosed
    rcases eq_or_ne a j with rfl | ha
    swap
    · exact hi.seen_taken hinbox hheard hothers ha hab hphase hclosed hx
    have hseen := hi.seen a b hab hphase hclosed x hx
    unfold SubscriberRegistry.taken
    have hview : view (s.update a { s a with
        inbox := Function.update (s a).inbox i rest, mirror := mirror }) a b x = view s a b x := by
      rw [view, update_self, update_of_ne s hab.symm]
      rfl
    cases hover : (s a).closed with
    | true =>
        refine hseen.of_current_none ((hi.each a).current_of_closed hover) hview ?_
        rw [update_self]
        rfl
    | false =>
        refine hseen.congr hview (by rw [update_self]; rfl) ?_
        unfold Asking
        rw [update_self, update_of_ne s hab.symm]
        dsimp only
        refine fun hask => hask.imp id fun hask => hask.imp id fun hmem => ?_
        rcases eq_or_ne b i with rfl | hb
        · rw [Function.update_self]
          rw [hinbox] at hmem
          rcases List.mem_cons.mp hmem with heq | hrest
          · rcases hanswer heq.symm with hclosed | hsame
            · rw [hover] at hclosed
              cases hclosed
            · exact absurd hsame.symm hab
          · exact hrest
        · rw [Function.update_of_ne hb]
          exact hmem

omit [DecidableEq X] [DecidableEq I] in
theorem bound_of_consuming (h : (s j).phase = .consuming ∨ (s j).phase = .connected) :
    (s j).phase ≠ .away := by
  rcases h with hphase | hphase
  · rw [hphase]
    decide
  · rw [hphase]
    decide

/-- `j` is asked and tells everybody what it claims. -/
theorem Inv.answered (hi : Inv origin s) (hinbox : (s j).inbox i = .syncRequest :: rest)
    (hconsuming : (s j).phase = .consuming ∨ (s j).phase = .connected)
    (hopen : (s j).closed = false) (hne : i ≠ j) :
    Inv origin
      ((SubscriberRegistry.taken s j i rest (s j).mirror).broadcast j (s j).ownClaims) := by
  have hbound : (s j).phase ≠ .away := bound_of_consuming hconsuming
  have hlocal : Local origin j
      { s j with inbox := Function.update (s j).inbox i rest, mirror := (s j).mirror } := by
    refine (hi.each j).inbox_update hbound ?_
    intro envelope hmem
    refine (hi.each j).inbox i envelope ?_
    rw [hinbox]
    exact List.mem_cons_of_mem _ hmem
  have hmine : SubscriberRegistry.taken s j i rest (s j).mirror j =
      { s j with inbox := Function.update (s j).inbox i rest, mirror := (s j).mirror } :=
          update_self _ _ _
  have hothers : ∀ b, b ≠ j → SubscriberRegistry.taken s j i rest (s j).mirror b = s b :=
    fun b hb => update_of_ne s hb _
  refine inv_broadcast (hi.each_update hlocal) ((hi.each j).tells_ownClaims hopen) ?_ ?_ ?_ ?_
  · rw [hmine]
    refine ⟨hbound, fun hphase => ?_⟩
    dsimp only at hphase
    rw [hphase] at hconsuming
    rcases hconsuming with hconsuming | hconsuming
    · cases hconsuming
    · cases hconsuming
  · exact hi.silent_taken hinbox fun _ _ => rfl
  · intro a b ha hab hphase hclosed x hx
    refine Seen.broadcast_of_ne ?_ ha
    have hthere : (s b).phase ≠ .away ∧ (s b).closed = false := by
      rcases eq_or_ne b j with rfl | hb
      · exact ⟨hbound, hopen⟩
      · rw [hothers b hb] at hphase hclosed
        exact ⟨hphase, hclosed⟩
    exact hi.seen_taken hinbox (fun _ _ _ _ => rfl) (fun _ _ => rfl) ha hab hthere.1 hthere.2 hx
  · intro b hb hphase hclosed x hx
    rw [hothers b hb.symm] at hphase hclosed ⊢
    rw [hmine]
    refine .inl ?_
    change _ = current j (s j) x
    rw [word_append, word_append, (hi.each j).word_ownClaims hopen hx]
    have hseen := hi.seen j b hb hphase hclosed x hx
    rcases (hi.each j).truth x with hnone | hsome
    · rw [hnone]
      cases hcurrent : current j (s j) x with
      | some record => rfl
      | none =>
          have hview :
              view s j b x = (word j x ((s b).inbox j)).getD (OrderedMap.get x (s b).mirror) := by
            rw [view, word_append, hnone]
            rfl
          rw [Option.map_none, Option.none_or, Option.none_or, ← hview]
          rcases hseen with heq | hasking
          · exact heq.trans hcurrent
          · exact hasking.1
    · rw [hsome]
      rfl

theorem Inv.deliver (hi : Inv origin s) (hinbox : (s j).inbox i = envelope :: rest)
    (hconsuming : (s j).phase = .consuming ∨ (s j).phase = .connected)
    (hroom : ∀ subId record, envelope = .claim subId record →
      (s j).closed = true ∨ i = j ∨ (s j).full subId = false) :
    Inv origin (State.handleGossip
      (s.update j { s j with inbox := Function.update (s j).inbox i rest }) j i envelope) := by
  have hbound : (s j).phase ≠ .away := bound_of_consuming hconsuming
  have hrest : ∀ later ∈ rest, Tells origin i later := by
    intro later hmem
    refine (hi.each j).inbox i later ?_
    rw [hinbox]
    exact List.mem_cons_of_mem _ hmem
  have htells : Tells origin i envelope :=
    (hi.each j).inbox i envelope (by rw [hinbox]; exact List.mem_cons_self)
  have hlocal : Local origin j { s j with inbox := Function.update (s j).inbox i rest } :=
    (hi.each j).inbox_update hbound hrest
  unfold State.handleGossip
  rw [update_self]
  split
  case isTrue hdropped =>
    simp only [Bool.or_eq_true, decide_eq_true_eq] at hdropped
    have hclosed : (s j).closed = true ∨ i = j := by
      rcases hdropped with (hclosed | hfailed) | hsame
      · exact .inl hclosed
      · exact .inl ((hi.each j).sound hfailed)
      · exact .inr hsame
    refine hi.taken hinbox hlocal (fun hopen hother => ?_) (fun _ _ => rfl) fun _ => hclosed
    rcases hclosed with hclosed | hsame
    · rw [hopen] at hclosed
      cases hclosed
    · exact absurd hsame hother
  case isFalse hheard =>
    simp only [Bool.or_eq_true, decide_eq_true_eq, not_or] at hheard
    obtain ⟨⟨hopen, -⟩, hne⟩ := hheard
    have hopen : (s j).closed = false := Bool.eq_false_iff.mpr hopen
    -- A claim or a release changes the mirror, and nothing is answered.
    have hmirror : envelope ≠ .syncRequest →
        Inv origin (SubscriberRegistry.taken s j i rest (hear i (s j).mirror envelope)) := by
      intro hsync
      refine hi.taken hinbox (hlocal.receive hbound hne htells)
        (fun _ _ x _ => get_hear envelope) ?_
        fun h => absurd h hsync
      intro x hx
      rw [get_hear, say_eq_none htells hx]
      rfl
    have htwice : ∀ mirror,
        (s.update j { s j with inbox := Function.update (s j).inbox i rest }).update j
        { s j with inbox := Function.update (s j).inbox i rest, mirror := mirror } =
          SubscriberRegistry.taken s j i rest mirror :=
      fun mirror => Function.update_idem _ _ _
    cases envelope with
    | claim subId record =>
        have hfits : (s j).full subId = false := by
          rcases hroom subId record rfl with hclosed | hsame | hfits
          · rw [hopen] at hclosed
            cases hclosed
          · exact absurd hsame hne
          · exact hfits
        have hfits :
            Instance.full { s j with inbox := Function.update (s j).inbox i rest } subId = false :=
          hfits
        dsimp only
        rw [hfits, if_neg Bool.false_ne_true, htwice]
        exact hmirror (fun h => by cases h)
    | release subId =>
        dsimp only
        rw [htwice]
        exact hmirror (fun h => by cases h)
    | syncRequest => exact hi.answered hinbox hconsuming hopen hne

end Deliver

/-! ## Closing -/

omit [DecidableEq I] in
/-- The last word about a record is its sender's. -/
theorem owner_of_word {envelopes : List (GossipEnvelope X R)} {record : R} {k : I}
    (h : word i x envelopes = some (some (record, k))) : k = i := by
  induction envelopes with
  | nil => cases h
  | cons envelope envelopes ih =>
      rw [word] at h
      cases hlater : word i x envelopes with
      | some said =>
          rw [hlater, Option.some_or] at h
          exact ih (hlater.trans h)
      | none =>
          rw [hlater, Option.none_or] at h
          cases envelope with
          | claim subId claimed =>
              simp only [say] at h
              split_ifs at h
              cases h
              rfl
          | release subId =>
              simp only [say] at h
              split_ifs at h
              cases h
          | syncRequest => cases h

theorem Inv.close (hi : Inv origin s)
    (hforgotten : ∀ j, j ≠ i → (s j).phase ≠ .away → (s j).closed = false →
      ∀ entry ∈ hearAll i (s j).mirror ((s j).inbox i), entry.2.2 ≠ i) :
    Inv origin (s.update i (s i).close) where
  each := hi.each_update (hi.each i).close
  silent := by
    intro k hphase j
    have hold : (s k).phase = .away ∨ (s k).phase = .bound := by
      rcases eq_or_ne k i with rfl | hne
      · rw [update_self] at hphase
        exact hphase
      · rw [update_of_ne s hne] at hphase
        exact hphase
    rcases eq_or_ne j i with rfl | hne
    · rw [update_self]
      exact ⟨(hi.silent k hold j).1, fun _ _ _ => rfl⟩
    · rw [update_of_ne s hne]
      exact hi.silent k hold j
  seen := by
    intro a b hab hphase hclosed x hx
    have hb : b ≠ i := by
      rintro rfl
      rw [update_self] at hclosed
      cases hclosed
    rw [update_of_ne s hb] at hphase hclosed
    rcases eq_or_ne a i with rfl | ha
    · refine .inl ?_
      rw [view, update_self, update_of_ne s hb]
      change (word a x ((s b).inbox a ++ [])).getD (OrderedMap.get x (s b).mirror) = none
      rw [List.append_nil, ← get_hearAll]
      cases hget : OrderedMap.get x (hearAll a (s b).mirror ((s b).inbox a)) with
      | none => rfl
      | some entry =>
          obtain ⟨record, k⟩ := entry
          refine absurd ?_ (hforgotten b hb hphase hclosed _ (OrderedMap.mem_of_get hget))
          rw [get_hearAll] at hget
          cases hword : word a x ((s b).inbox a) with
          | none =>
              rw [hword] at hget
              exact ((hi.each b).foreign hget).symm.trans hx
          | some said =>
              rw [hword] at hget
              exact owner_of_word (hword.trans (congrArg some hget))
    · refine (hi.seen a b hab hphase hclosed x hx).congr ?_ (by rw [update_of_ne s ha]) ?_
      · rw [view, update_of_ne s ha, update_of_ne s hb]
        rfl
      · unfold Asking
        rw [update_of_ne s ha, update_of_ne s hb]
        exact id

theorem Inv.step [Fintype I] (hi : Inv origin s) {action : Action I X R}
    (hok : steady origin s action = true) (h : step s action = some t) : Inv origin t := by
  cases action with
  | bind i =>
      simp only [SubscriberRegistry.step] at h
      split_ifs at h with hstart
      cases h
      exact hi.bind hstart.1
  | consume i =>
      simp only [SubscriberRegistry.step] at h
      split_ifs at h with hstart
      cases h
      exact hi.consume hstart.1
  | announce i =>
      simp only [SubscriberRegistry.step] at h
      split_ifs at h with hstart
      cases h
      exact hi.announce hstart.1
  | claim i subId record =>
      cases h
      obtain ⟨said, hlocal, hspeaks⟩ := (hi.each i).claim (of_decide_eq_true hok) record
      exact hi.speaks hlocal hspeaks
  | release i subId =>
      cases h
      obtain ⟨said, hlocal, hspeaks⟩ := (hi.each i).release subId
      exact hi.speaks hlocal hspeaks
  | publish i =>
      simp only [SubscriberRegistry.step] at h
      split at h
      case h_1 envelope outbox houtbox =>
        split_ifs at h with hconnected
        cases h
        exact hi.publish houtbox hconnected.1
      case h_2 => cases h
  | deliver j i =>
      simp only [SubscriberRegistry.step] at h
      split at h
      case h_1 envelope rest hinbox =>
        split_ifs at h with hconsuming
        cases h
        refine hi.deliver hinbox hconsuming ?_
        rintro subId record rfl
        simpa [steady, hinbox, or_assoc] using hok
      case h_2 => cases h
  | close i =>
      simp only [SubscriberRegistry.step] at h
      split_ifs at h
      · cases h
        exact hi
      · cases h
        exact hi.close (of_decide_eq_true hok)

end Cluster

/-! ## Every run -/

/-- No gossip is under way to or from an instance that is open: none is in a queue, no
joiner still has to announce itself, and one that is connected has published all. -/
def Quiet (s : State I X R) : Prop :=
  ∀ j, (s j).closed = false → (∀ i, (s j).inbox i = []) ∧ (s j).phase ≠ .consuming ∧
    ((s j).phase = .connected → (s j).outbox = [])

instance [Fintype I] [DecidableEq R] (s : State I X R) : Decidable (Quiet s) :=
  inferInstanceAs (Decidable (∀ _ : I, _))

theorem Inv.agrees {origin : X → I} {s : State I X R} (hi : Inv origin s) (hquiet : Quiet s) {j : I}
    (hconnected : (s j).phase = .connected) (hopen : (s j).closed = false) (x : X) :
    OrderedMap.get x (s j).mirror =
      if (s (origin x)).phase = .connected ∧ (s (origin x)).closed = false then
        current (origin x) (s (origin x)) x
      else none := by
  by_cases hown : origin x = j
  · rw [hown, if_pos ⟨hconnected, hopen⟩]
    exact (hi.each j).own hopen hown
  · have hbound : (s j).phase ≠ .away := by
      rw [hconnected]
      nofun
    have hseen := hi.seen (origin x) j hown hbound hopen x rfl
    have hinbox : (s j).inbox (origin x) = [] := (hquiet j hopen).1 (origin x)
    have hdrained : (s (origin x)).outbox = [] →
        view s (origin x) j x = OrderedMap.get x (s j).mirror := by
      intro houtbox
      rw [view, hinbox, houtbox]
      rfl
    cases hclosed : (s (origin x)).closed with
    | true =>
        have hnone : current (origin x) (s (origin x)) x = none :=
          (hi.each (origin x)).current_of_closed hclosed
        rw [if_neg (by simp), ← hdrained ((hi.each (origin x)).gone hclosed).2]
        rcases hseen with heq | ⟨hview, -⟩
        · exact heq.trans hnone
        · exact hview
    | false =>
        obtain ⟨hempty, hjoined, hpublished⟩ := hquiet (origin x) hclosed
        cases hphase : (s (origin x)).phase with
        | away =>
            rw [if_neg (by simp)]
            exact (hi.silent (origin x) (.inl hphase) j).2 (Ne.symm hown) x rfl
        | bound =>
            rw [if_neg (by simp)]
            exact (hi.silent (origin x) (.inr hphase) j).2 (Ne.symm hown) x rfl
        | consuming => exact absurd hphase hjoined
        | connected =>
            rw [if_pos ⟨rfl, rfl⟩, ← hdrained (hpublished hphase)]
            rcases hseen with heq | ⟨-, hasking⟩
            · exact heq
            · unfold Asking at hasking
              rw [hconnected, hempty j] at hasking
              simp at hasking

/-- In every run that meets the condition, and whenever no gossip is under way: the
mirror of an instance that is connected and not closed holds the subscriptions claimed
and not released by such instances, each with its record and its owner, and no other. -/
theorem mirrors_agree [DecidableEq I] [Fintype I] (origin : X → I) {s : State I X R}
    (h : Reach step (fun s action => steady origin s action = true) (initial I X R) s)
    (hquiet : Quiet s) {j : I} (hconnected : (s j).phase = .connected)
    (hopen : (s j).closed = false) (x : X) (record : R) (i : I) :
    OrderedMap.get x (s j).mirror = some (record, i) ↔
      (s i).phase = .connected ∧ (s i).closed = false ∧
        OrderedMap.get x (s i).claimed = some record := by
  have hi : Inv origin s := h.invariant (inv_initial origin) fun _ _ _ _ hi hok hstep =>
    hi.step hok hstep
  rw [hi.agrees hquiet hconnected hopen]
  constructor
  · intro hget
    split_ifs at hget with hthere
    obtain ⟨claimed, hclaimed, hrecord⟩ := Option.map_eq_some_iff.mp hget
    cases hrecord
    exact ⟨hthere.1, hthere.2, hclaimed⟩
  · rintro ⟨hphase, hclosed, hclaimed⟩
    have horigin : origin x = i := (hi.each i).claimed hclaimed
    rw [horigin, if_pos ⟨hphase, hclosed⟩, current, hclaimed]
    rfl

/-- The first instance claims before it is connected, and the second joins later. -/
theorem joiner_learns :
    ∃ s : State (Fin 2) ℕ ℕ,
      Reach step (fun s action => steady (fun _ => 0) s action = true) (initial (Fin 2) ℕ ℕ) s ∧
        Quiet s ∧ OrderedMap.get 7 (s 1).mirror = some (70, 0) := by
  obtain ⟨s, hs, hquiet, hone, hzero⟩ := reach_guarded_any (s := initial (Fin 2) ℕ ℕ)
    (P := fun s => Quiet s ∧ ((s 1).phase = .connected ∧ (s 1).closed = false) ∧
      (s 0).phase = .connected ∧ (s 0).closed = false ∧ OrderedMap.get 7 (s 0).claimed = some 70)
    (show ((exec (guarded step fun s action => steady (fun _ => 0) s action = true)
      (initial (Fin 2) ℕ ℕ)
      [.claim 0 7 70, .bind 0, .consume 0, .announce 0, .publish 0, .deliver 0 0, .deliver 0 0,
        .bind 1, .consume 1, .announce 1, .deliver 1 1, .deliver 0 1, .deliver 0 0,
          .deliver 1 0]).any
          fun s => decide _) = true by decide +kernel)
  exact ⟨s, hs, hquiet, (mirrors_agree (fun _ => 0) hs hquiet hone.1 hone.2 7 70 0).mpr hzero⟩

/-- The first instance claims, the second has learned of it, and the first is closed:
nothing is under way, and the second still holds the subscription. -/
theorem closed_instance_stays :
    ∃ s : State (Fin 2) ℕ ℕ, Reach step always (initial (Fin 2) ℕ ℕ) s ∧ Quiet s ∧
      (s 1).phase = .connected ∧ (s 1).closed = false ∧ (s 0).closed = true ∧
      OrderedMap.get 7 (s 1).mirror = some (70, 0) :=
  reach_exec_any (s := initial (Fin 2) ℕ ℕ)
    (P := fun s => Quiet s ∧ (s 1).phase = .connected ∧ (s 1).closed = false ∧
      (s 0).closed = true ∧ OrderedMap.get 7 (s 1).mirror = some (70, 0))
    (show ((exec step (initial (Fin 2) ℕ ℕ)
      [.bind 0, .consume 0, .announce 0, .bind 1, .consume 1, .announce 1, .deliver 0 0,
        .deliver 0 1,
        .deliver 1 1, .claim 0 7 70, .publish 0, .deliver 0 0, .deliver 1 0, .close 0]).any
          fun s => decide _) = true by decide +kernel)

end Kronos.RabbitMq.SubscriberRegistry
