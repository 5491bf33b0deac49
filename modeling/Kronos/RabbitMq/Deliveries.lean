import Kronos.Messaging.Admission

/-!
# Deliveries of the RabbitMQ transports

The commands and the queries that a process is given to handle come as deliveries
from its queues. A delivery is refused at once or handed to the handler of its
queue; then it is answered, if it says where to, and acknowledged. Whatever throws
on the way is answered with an error, and the delivery is rejected for good. After
the transport has failed nothing is answered or settled any more: the broker takes
back what is not settled when the channel closes.

The handlers of commands and of queries run the same code. What a message holds,
the texts of errors and the binding of queues are left out; beside a delivery all
that was sent for it and how it was settled is kept.
-/
namespace Kronos.RabbitMq.Deliveries
open Kronos.Lib.Slots Kronos.Lib.Transition
open Kronos.Messaging

/-- What comes of `sendToQueue`, and of `JSON.stringify` before it; a full buffer may still
be sent. -/
inductive Send where
  | taken
  | full
  | throws
  deriving DecidableEq, Repr

inductive Reply (B : Type) where
  | handled (body : B)
  | failed
  deriving DecidableEq, Repr

inductive Settled where
  | ack
  /-- `nack(msg, false, false)`: it is not put back into the queue. -/
  | nack
  deriving DecidableEq, Repr

structure Delivery (R B : Type) where
  replyTo : Bool
  correlationId : Option R
  handling : Bool
  activity : Option (Handle R)
  /-- What its handler returned. -/
  returned : Option B
  replies : List (Reply B)
  settled : List Settled
  /-- A call of the channel threw. -/
  threw : Bool
  deriving DecidableEq, Repr

structure Transport (R B : Type) where
  admission : Admission R
  closed : Bool
  transportFailure : Bool
  deliveries : List (Delivery R B)
  /-- `close` has waited for all that was running. -/
  drained : Bool
  deriving DecidableEq, Repr

def start {R : Type} (B : Type) (admission : Admission R) : Transport R B :=
  ⟨admission, false, false, [], false⟩

/-- A delivery in the hands of the code, and whether the transport has failed meanwhile. -/
structure Hands (R B : Type) where
  transportFailure : Bool
  delivery : Delivery R B

namespace Hands
variable {R B : Type} (h : Hands R B)

/-- `sendReply`; `false` when it throws. -/
def sendReply (reply : Reply B) : Send → Hands R B × Bool
  | .taken => ({ h with delivery.replies := h.delivery.replies ++ [reply] }, true)
  | .full => (⟨true, { h.delivery with replies := h.delivery.replies ++ [reply] }⟩, false)
  | .throws => ({ h with delivery.threw := true }, false)

/-- `ch.ack` or `ch.nack`. -/
def settle (settled : Settled) (throws : Bool) : Hands R B × Bool :=
  if throws then ({ h with delivery.threw := true }, false)
  else ({ h with delivery.settled := h.delivery.settled ++ [settled] }, true)

/-- `catch (error)`. -/
def refuse (send : Send) (nackThrows : Bool) : Hands R B :=
  if h.transportFailure then h
  else if h.delivery.replyTo && h.delivery.correlationId.isSome then
    if (h.sendReply .failed send).2 then ((h.sendReply .failed send).1.settle .nack nackThrows).1
    else (h.sendReply .failed send).1
  else (h.settle .nack nackThrows).1

/-- The reply, before the delivery is acknowledged. -/
def answer (body : B) (send : Send) : Hands R B × Bool :=
  if h.delivery.replyTo then h.sendReply (.handled body) send else (h, true)

/-- After `await handler(envelope)`. -/
def returns (body : B) (send : Send) (ackThrows : Bool) (errorSend : Send) (nackThrows : Bool) :
    Hands R B :=
  if (h.answer body send).2 then
    if ((h.answer body send).1.settle .ack ackThrows).2 then
      ((h.answer body send).1.settle .ack ackThrows).1
    else ((h.answer body send).1.settle .ack ackThrows).1.refuse errorSend nackThrows
  else (h.answer body send).1.refuse errorSend nackThrows

end Hands

variable {R B : Type} [DecidableEq R]

namespace Transport
variable (s : Transport R B)

/-- A delivery is over before its handler is called. -/
def reject (delivery : Delivery R B) (send : Send) (nackThrows : Bool) : Transport R B :=
  let left := Hands.refuse ⟨s.transportFailure, delivery⟩ send nackThrows
  { s with
    transportFailure := left.transportFailure
    deliveries := s.deliveries ++ [left.delivery] }

/-- A delivery comes; `parses` says whether its content is JSON. -/
def deliver (replyTo : Bool) (correlationId : Option R) (parses : Bool) (send : Send)
    (nackThrows : Bool) : Transport R B :=
  if s.closed || s.transportFailure then
    s.reject ⟨replyTo, correlationId, false, none, none, [], [], false⟩ send nackThrows
  else
    match s.admission.enter none with
    | (admission, .error _) =>
        { s with admission }.reject ⟨replyTo, correlationId, false, none, none, [], [], false⟩
          send nackThrows
    | (admission, .ok handle) =>
        if parses then
          { s with
            admission
            deliveries :=
              s.deliveries ++ [⟨replyTo, correlationId, true, some handle, none, [], [], false⟩] }
        else
          { s with admission := (admission.end handle).1 }.reject
            ⟨replyTo, correlationId, false, some (admission.end handle).2, none, [], [], false⟩
            send nackThrows

/-- The code is through with a delivery, and ends its activity. -/
def finish (k : ℕ) (left : Hands R B) : Transport R B :=
  match left.delivery.activity with
  | none =>
      { s with
        transportFailure := left.transportFailure
        deliveries := s.deliveries.set k { left.delivery with handling := false } }
  | some handle =>
      { s with
        admission := (s.admission.end handle).1
        transportFailure := left.transportFailure
        deliveries := s.deliveries.set k
          { left.delivery with handling := false, activity := some (s.admission.end handle).2 } }

end Transport

inductive Action (R B : Type) where
  | deliver (replyTo : Bool) (correlationId : Option R) (parses : Bool) (send : Send)
      (nackThrows : Bool)
  /-- The handler of the delivery `k` returns, or throws. -/
  | returns (k : ℕ) (body : B) (send : Send) (ackThrows : Bool) (errorSend : Send)
      (nackThrows : Bool)
  | throws (k : ℕ) (errorSend : Send) (nackThrows : Bool)
  /-- The channel emits `error` or `close`. -/
  | channelFails
  | close
  /-- `Promise.all([...running])`, and the end of its time. -/
  | drained
  | timedOut
  deriving DecidableEq, Repr

def step (s : Transport R B) : Action R B → Option (Transport R B)
  | .deliver replyTo correlationId parses send nackThrows =>
      some (s.deliver replyTo correlationId parses send nackThrows)
  | .returns k body send ackThrows errorSend nackThrows =>
      s.deliveries[k]?.bind fun delivery =>
        if delivery.handling then
          some (s.finish k
            (Hands.returns ⟨s.transportFailure, { delivery with returned := some body }⟩
            body send ackThrows errorSend nackThrows))
        else none
  | .throws k errorSend nackThrows =>
      s.deliveries[k]?.bind fun delivery =>
        if delivery.handling then
          some (s.finish k (Hands.refuse ⟨s.transportFailure, delivery⟩ errorSend nackThrows))
        else none
  | .channelFails => some { s with transportFailure := true }
  | .close => some { s with closed := true }
  | .drained =>
      if s.closed && s.deliveries.all fun delivery => !delivery.handling then
        some { s with drained := true, transportFailure := true }
      else none
  | .timedOut => if s.closed then some { s with transportFailure := true } else none

/-! ## One delivery -/

/-- A delivery in the hands of the code that is not settled yet; a reply to it was sent only before
something failed. -/
structure Open (failed : Bool) (d : Delivery R B) : Prop where
  settled : d.settled = []
  returned : ∀ body, .handled body ∈ d.replies → d.returned = some body ∧ d.replyTo = true
  unfailed : .failed ∉ d.replies
  single : d.replies.length ≤ 1
  sent : d.replies ≠ [] → d.threw = true ∨ failed = true

/-- A delivery the code is through with. -/
structure Done (failed : Bool) (d : Delivery R B) : Prop where
  once : d.settled.length ≤ 1
  acked : .ack ∈ d.settled → ∃ body, d.returned = some body ∧
    d.replies = if d.replyTo then [.handled body] else []
  nacked : .nack ∈ d.settled → d.replyTo = true → d.correlationId.isSome = true →
    .failed ∈ d.replies
  returned : ∀ body, .handled body ∈ d.replies → d.returned = some body ∧ d.replyTo = true
  single : d.threw = false → d.replies.length ≤ 1
  settled : d.threw = false → failed = false → d.settled.length = 1

section Delivery
variable {h : Hands R B} {d : Delivery R B} {failed : Bool}

omit [DecidableEq R] in
theorem Open.not_settled (ho : Open failed d) (settled : Settled) : settled ∉ d.settled := by
  rw [ho.settled]
  exact List.not_mem_nil

omit [DecidableEq R] in
theorem Open.done (ho : Open failed d) (hleft : d.threw = true ∨ failed = true) :
    Done failed d := by
  refine ⟨by
    rw [ho.settled]; exact Nat.zero_le _, fun h => absurd h (ho.not_settled _), fun h =>
      absurd h (ho.not_settled _), ho.returned,
    fun _ => ho.single, fun hthrew hfailed => ?_⟩
  rcases hleft with h | h
  · exact absurd (hthrew.symm.trans h) Bool.false_ne_true
  · exact absurd (hfailed.symm.trans h) Bool.false_ne_true

omit [DecidableEq R] in
theorem Open.threw (ho : Open failed d) : Open failed { d with threw := true } :=
  ⟨ho.settled, ho.returned, ho.unfailed, ho.single, fun _ => .inl rfl⟩

omit [DecidableEq R] in
/-- A delivery is rejected, after the error was sent to those who asked for it. -/
theorem Open.nack (ho : Open failed d) (hthrew : d.threw = false → d.replies = [])
    {replies : List (Reply B)}
    (hreplies : (d.replyTo && d.correlationId.isSome) = true ∧ replies = d.replies ++ [.failed] ∨
      (d.replyTo && d.correlationId.isSome) = false ∧ replies = d.replies) :
    Done failed { d with replies, settled := d.settled ++ [.nack] } := by
  have hreturned : ∀ body, .handled body ∈ replies → d.returned = some body ∧ d.replyTo = true := by
    intro body hmem
    rcases hreplies with ⟨-, rfl⟩ | ⟨-, rfl⟩
    · rcases List.mem_append.mp hmem with hold | hnow
      · exact ho.returned body hold
      · cases List.mem_singleton.mp hnow
    · exact ho.returned body hmem
  refine ⟨by
    rw [ho.settled]; exact le_rfl, fun hmem => ?_, fun _ hto hid => ?_, hreturned, fun hnot => ?_,
    fun _ _ => by rw [ho.settled]; rfl⟩
  · change Settled.ack ∈ d.settled ++ [.nack] at hmem
    rw [ho.settled] at hmem
    cases List.mem_singleton.mp hmem
  · rcases hreplies with ⟨-, rfl⟩ | ⟨hasks, -⟩
    · exact List.mem_append_right _ List.mem_cons_self
    · rw [show d.replyTo = true from hto, show d.correlationId.isSome = true from hid] at hasks
      cases hasks
  · show replies.length ≤ 1
    have hnone := hthrew hnot
    rcases hreplies with ⟨-, rfl⟩ | ⟨-, rfl⟩
    · rw [hnone]
      exact le_rfl
    · rw [hnone]
      exact Nat.zero_le _

omit [DecidableEq R] in
/-- The error was sent, and then something failed. -/
theorem Open.errorSent (ho : Open failed d) {threw after : Bool}
    (hold : threw = false → d.replies = []) (hleft : threw = true ∨ after = true) :
    Done after { d with replies := d.replies ++ [.failed], threw } := by
  refine ⟨by
    rw [ho.settled]; exact Nat.zero_le _, fun h => absurd h (ho.not_settled _), fun h =>
      absurd h (ho.not_settled _),
    fun body hmem => ?_, fun hnot => ?_, fun hnot hup => ?_⟩
  · rcases List.mem_append.mp hmem with hbefore | hnow
    · exact ho.returned body hbefore
    · cases List.mem_singleton.mp hnow
  · show (d.replies ++ [Reply.failed]).length ≤ 1
    rw [hold hnot]
    exact le_rfl
  · rcases hleft with h | h
    · exact absurd (hnot.symm.trans h) Bool.false_ne_true
    · exact absurd (hup.symm.trans h) Bool.false_ne_true

omit [DecidableEq R] in
/-- What was not settled when something threw, after the `catch`. -/
theorem Open.refuse (ho : Open h.transportFailure h.delivery) (send : Send) (nackThrows : Bool) :
    Done (h.refuse send nackThrows).transportFailure (h.refuse send nackThrows).delivery := by
  obtain ⟨failed, d⟩ := h
  unfold Hands.refuse
  cases failed with
  | true => exact ho.done (.inr rfl)
  | false =>
      have hthrew : d.threw = false → d.replies = [] := by
        intro hnot
        by_contra hsome
        rcases ho.sent hsome with h | h
        · exact absurd (hnot.symm.trans h) Bool.false_ne_true
        · cases h
      rw [if_neg Bool.false_ne_true]
      cases hasks : d.replyTo && d.correlationId.isSome with
      | false =>
          rw [if_neg Bool.false_ne_true]
          cases nackThrows with
          | true => exact ho.threw.done (.inl rfl)
          | false => exact ho.nack hthrew (.inr ⟨hasks, rfl⟩)
      | true =>
          rw [if_pos rfl]
          cases send with
          | throws => exact ho.threw.done (.inl rfl)
          | full => exact ho.errorSent hthrew (.inr rfl)
          | taken =>
              cases nackThrows with
              | false => exact ho.nack hthrew (.inl ⟨hasks, rfl⟩)
              | true => exact ho.errorSent nofun (.inl rfl)

omit [DecidableEq R] in
/-- What the handler returned was answered, and then something failed. -/
theorem Open.answered {body : B} (ho : Open failed d) (hbody : d.returned = some body)
    {replies : List (Reply B)} (hreplies : replies = if d.replyTo then [.handled body] else [])
    {threw after : Bool} (hleft : threw = true ∨ after = true) :
    Open after { d with replies, threw } := by
  subst hreplies
  refine ⟨ho.settled, fun other hmem => ?_, fun hmem => ?_, ?_, fun _ => hleft⟩
  · change Reply.handled other ∈ (if d.replyTo then [Reply.handled body] else []) at hmem
    split_ifs at hmem with hto
    · cases List.mem_singleton.mp hmem
      exact ⟨hbody, hto⟩
    · cases hmem
  · change Reply.failed ∈ (if d.replyTo then [Reply.handled body] else []) at hmem
    split_ifs at hmem
    · cases List.mem_singleton.mp hmem
    · cases hmem
  · show (if d.replyTo then [Reply.handled body] else []).length ≤ 1
    split_ifs
    · exact le_rfl
    · exact Nat.zero_le _

omit [DecidableEq R] in
/-- What the handler returned was answered, and the delivery is acknowledged. -/
theorem Open.ack {body : B} (ho : Open failed d) (hbody : d.returned = some body)
    {replies : List (Reply B)} (hreplies : replies = if d.replyTo then [.handled body] else []) :
    Done failed { d with replies, settled := d.settled ++ [.ack] } := by
  have hopen : Open failed { d with replies, threw := true } :=
    ho.answered hbody hreplies (.inl rfl)
  refine ⟨by
    rw [ho.settled]; exact le_rfl, fun _ => ⟨body, hbody, hreplies⟩, fun hmem => ?_, hopen.returned,
    fun _ => hopen.single, fun _ _ => by rw [ho.settled]; rfl⟩
  change Settled.nack ∈ d.settled ++ [.ack] at hmem
  rw [ho.settled] at hmem
  cases List.mem_singleton.mp hmem

omit [DecidableEq R] in
/-- A delivery whose handler returned. -/
theorem Open.returns {body : B} (ho : Open h.transportFailure h.delivery)
    (hfresh : h.delivery.replies = []) (hbody : h.delivery.returned = some body) (send : Send)
    (ackThrows : Bool) (errorSend : Send) (nackThrows : Bool) :
    Done (h.returns body send ackThrows errorSend nackThrows).transportFailure
      (h.returns body send ackThrows errorSend nackThrows).delivery := by
  obtain ⟨failed, d⟩ := h
  change d.replies = [] at hfresh
  unfold Hands.returns Hands.answer
  cases hto : d.replyTo with
  | false =>
      have hnone : d.replies = if d.replyTo then [.handled body] else [] := by rw [hto, hfresh]; rfl
      rw [if_neg Bool.false_ne_true, if_pos rfl]
      cases ackThrows with
      | false => exact ho.ack hbody hnone
      | true =>
          exact Open.refuse (h := ⟨failed, { d with threw := true }⟩)
            (ho.answered hbody hnone (.inl rfl)) errorSend nackThrows
  | true =>
      have hone : d.replies ++ [.handled body] = if d.replyTo then [.handled body]
          else [] := by rw [hto, hfresh]; rfl
      rw [if_pos rfl]
      cases send with
      | throws =>
          exact Open.refuse (h := ⟨failed, { d with threw := true }⟩) ho.threw errorSend nackThrows
      | full =>
          exact Open.refuse (h := ⟨true, { d with replies := d.replies ++ [.handled body] }⟩)
            (ho.answered hbody hone (.inr rfl)) errorSend nackThrows
      | taken =>
          cases ackThrows with
          | false => exact ho.ack hbody hone
          | true =>
              exact Open.refuse (h :=
                ⟨failed, { d with replies := d.replies ++ [.handled body], threw := true }⟩)
                (ho.answered hbody hone (.inl rfl)) errorSend nackThrows

omit [DecidableEq R] in
/-- What the `catch` leaves as it is. -/
theorem refuse_keeps (h : Hands R B) (send : Send) (nackThrows : Bool) :
    (h.transportFailure = true → (h.refuse send nackThrows).transportFailure = true) ∧
      (h.refuse send nackThrows).delivery.handling = h.delivery.handling ∧
      (h.refuse send nackThrows).delivery.activity = h.delivery.activity := by
  unfold Hands.refuse
  split_ifs with hfailed
  · exact ⟨id, rfl, rfl⟩
  · cases nackThrows <;> cases send <;> exact ⟨fun h => absurd h hfailed, rfl, rfl⟩
  · cases send <;> exact ⟨fun h => absurd h hfailed, rfl, rfl⟩
  · cases nackThrows <;> exact ⟨fun h => absurd h hfailed, rfl, rfl⟩

omit [DecidableEq R] in
theorem answer_keeps (h : Hands R B) (body : B) (send : Send) :
    (h.transportFailure = true → (h.answer body send).1.transportFailure = true) ∧
      (h.answer body send).1.delivery.handling = h.delivery.handling ∧
      (h.answer body send).1.delivery.activity = h.delivery.activity := by
  unfold Hands.answer
  split_ifs
  · cases send with
    | taken => exact ⟨id, rfl, rfl⟩
    | full => exact ⟨fun _ => rfl, rfl, rfl⟩
    | throws => exact ⟨id, rfl, rfl⟩
  · exact ⟨id, rfl, rfl⟩

omit [DecidableEq R] in
theorem settle_keeps (h : Hands R B) (settled : Settled) (throws : Bool) :
    (h.settle settled throws).1.transportFailure = h.transportFailure ∧
      (h.settle settled throws).1.delivery.handling = h.delivery.handling ∧
      (h.settle settled throws).1.delivery.activity = h.delivery.activity := by
  unfold Hands.settle
  split_ifs <;> exact ⟨rfl, rfl, rfl⟩

omit [DecidableEq R] in
theorem returns_keeps (h : Hands R B) (body : B) (send : Send) (ackThrows : Bool) (errorSend : Send)
    (nackThrows : Bool) :
    (h.transportFailure = true →
      (h.returns body send ackThrows errorSend nackThrows).transportFailure = true) ∧
      (h.returns body send ackThrows errorSend nackThrows).delivery.handling = h.delivery.handling ∧
      (h.returns body send ackThrows errorSend nackThrows).delivery.activity =
        h.delivery.activity := by
  obtain ⟨hfailed, hhandling, hactivity⟩ := answer_keeps h body send
  obtain ⟨hfailed', hhandling', hactivity'⟩ := settle_keeps (h.answer body send).1 .ack ackThrows
  unfold Hands.returns
  split_ifs
  · exact ⟨fun hup => hfailed'.trans (hfailed hup), hhandling'.trans hhandling,
      hactivity'.trans hactivity⟩
  · obtain ⟨hrefused, hhandling'', hactivity''⟩ :=
      refuse_keeps ((h.answer body send).1.settle .ack ackThrows).1 errorSend nackThrows
    exact ⟨fun hup => hrefused (hfailed'.trans (hfailed hup)),
      hhandling''.trans (hhandling'.trans hhandling),
      hactivity''.trans (hactivity'.trans hactivity)⟩
  · obtain ⟨hrefused, hhandling'', hactivity''⟩ :=
      refuse_keeps (h.answer body send).1 errorSend nackThrows
    exact ⟨fun hup => hrefused (hfailed hup), hhandling''.trans hhandling,
      hactivity''.trans hactivity⟩

end Delivery

/-! ## The transport -/

/-- A delivery in the hands of its handler. -/
structure Fresh (d : Delivery R B) : Prop where
  settled : d.settled = []
  replies : d.replies = []
  activity : ∃ handle, d.activity = some handle ∧ handle.ended = false

def Good (failed : Bool) (d : Delivery R B) : Prop :=
  (d.handling = true → Fresh d) ∧ (d.handling = false → Done failed d)

structure Inv (limit : ℕ) (s : Transport R B) : Prop where
  good : ∀ d ∈ s.deliveries, Good s.transportFailure d
  running : s.admission.active = (s.deliveries.countP (·.handling) : ℤ)
  limited : s.admission.active ≤ limit ∧ s.admission.limit = limit
  drained : s.drained = true → s.closed = true ∧ ∀ d ∈ s.deliveries, d.handling = false

section Steps
variable {limit : ℕ} {s t : Transport R B} {d : Delivery R B} {failed after : Bool} {k : ℕ}

omit [DecidableEq R] in
theorem Fresh.open (hf : Fresh d) : Open failed d := by
  refine ⟨hf.settled, fun body hmem => ?_, fun hmem => ?_, ?_, fun hsome => absurd hf.replies hsome⟩
  · rw [hf.replies] at hmem
    cases hmem
  · rw [hf.replies] at hmem
    cases hmem
  · rw [hf.replies]
    exact Nat.zero_le _

omit [DecidableEq R] in
theorem Done.mono (hd : Done failed d) (hmono : failed = true → after = true) : Done after d := by
  refine ⟨hd.once, hd.acked, hd.nacked, hd.returned, hd.single,
    fun hthrew hup => hd.settled hthrew ?_⟩
  cases failed with
  | false => rfl
  | true => exact absurd (hup.symm.trans (hmono rfl)) Bool.false_ne_true

omit [DecidableEq R] in
theorem Good.mono (hg : Good failed d) (hmono : failed = true → after = true) : Good after d :=
  ⟨hg.1, fun h => (hg.2 h).mono hmono⟩

omit [DecidableEq R] in
theorem Inv.fails (hi : Inv limit s) : Inv limit { s with transportFailure := true } :=
  ⟨fun d hd => (hi.good d hd).mono fun _ => rfl, hi.running, hi.limited, hi.drained⟩

omit [DecidableEq R] in
/-- A delivery that comes and is over at once. -/
theorem Inv.reject (hi : Inv limit s) {delivery : Delivery R B}
    (hopen : Open s.transportFailure delivery) (hidle : delivery.handling = false) (send : Send)
    (nackThrows : Bool) : Inv limit (s.reject delivery send nackThrows) := by
  obtain ⟨hmono, hhandling, -⟩ := refuse_keeps ⟨s.transportFailure, delivery⟩ send nackThrows
  have hdone := Open.refuse (h := ⟨s.transportFailure, delivery⟩) hopen send nackThrows
  have hover : (Hands.refuse ⟨s.transportFailure, delivery⟩ send nackThrows).delivery.handling =
      false := hhandling.trans hidle
  unfold Transport.reject
  refine ⟨fun d hd => ?_, ?_, hi.limited, fun hdrained => ?_⟩
  · rcases List.mem_append.mp hd with hold | hnow
    · exact (hi.good d hold).mono hmono
    · rw [List.mem_singleton.mp hnow]
      exact ⟨fun h => absurd (hover.symm.trans h) Bool.false_ne_true, fun _ => hdone⟩
  · show s.admission.active = _
    rw [List.countP_append, List.countP_singleton, if_neg (by rw [hover]; exact Bool.false_ne_true)]
    exact hi.running
  · obtain ⟨hclosed, hidle'⟩ := hi.drained hdrained
    refine ⟨hclosed, fun d hd => ?_⟩
    rcases List.mem_append.mp hd with hold | hnow
    · exact hidle' d hold
    · rw [List.mem_singleton.mp hnow]
      exact hover

omit [DecidableEq R] in
/-- What counts for the activities when a delivery is refused or comes to nothing. -/
theorem Inv.admission (hi : Inv limit s) (admission : Admission R)
    (hactive : admission.active = s.admission.active)
    (hlimit : admission.limit = s.admission.limit) : Inv limit { s with admission } :=
  ⟨hi.good, hactive.trans hi.running, ⟨hactive.le.trans hi.limited.1, hlimit.trans hi.limited.2⟩,
    hi.drained⟩

omit [DecidableEq R] in
theorem open_new (replyTo : Bool) (correlationId : Option R) (handling : Bool)
    (activity : Option (Handle R)) :
    Open failed
      (⟨replyTo, correlationId, handling, activity, none, [], [], false⟩ : Delivery R B) :=
  ⟨rfl, nofun, nofun, Nat.zero_le _, fun h => absurd rfl h⟩

theorem Inv.deliver (hi : Inv limit s) (replyTo : Bool) (correlationId : Option R) (parses : Bool)
    (send : Send) (nackThrows : Bool) :
    Inv limit (s.deliver replyTo correlationId parses send nackThrows) := by
  unfold Transport.deliver
  by_cases hover : (s.closed || s.transportFailure) = true
  · rw [if_pos hover]
    exact hi.reject (open_new ..) rfl _ _
  · rw [if_neg hover]
    rcases Admission.enter_cases s.admission none with ⟨refusal, hrefused⟩ | ⟨-, hfree, hadmitted⟩
    · rw [hrefused]
      exact Inv.reject (hi.admission s.admission.refuse rfl rfl) (open_new ..) rfl _ _
    · rw [hadmitted]
      dsimp only
      split_ifs
      · refine ⟨fun d hd => ?_, ?_, ⟨?_, hi.limited.2⟩, fun hdrained => ?_⟩
        · rcases List.mem_append.mp hd with hold | hnow
          · exact hi.good d hold
          · rw [List.mem_singleton.mp hnow]
            exact ⟨fun _ => ⟨rfl, rfl, _, rfl, rfl⟩, nofun⟩
        · show s.admission.active + 1 = _
          rw [List.countP_append, hi.running]
          rfl
        · rw [hi.limited.2] at hfree
          exact hfree
        · rw [(hi.drained hdrained).1] at hover
          exact absurd rfl hover
      · refine Inv.reject (hi.admission _ ?_ ?_) (open_new ..) rfl send nackThrows
        · show s.admission.active + 1 - 1 = s.admission.active
          omega
        · rfl

/-- The code is through with the delivery `k`. -/
theorem Inv.finish (hi : Inv limit s) (hk : s.deliveries[k]? = some d)
    (hhandling : d.handling = true) {left : Hands R B}
    (hdone : Done left.transportFailure left.delivery)
    (hmono : s.transportFailure = true → left.transportFailure = true)
    (hactivity : left.delivery.activity = d.activity) : Inv limit (s.finish k left) := by
  obtain ⟨handle, hhandle, hlive⟩ := ((hi.good d (List.mem_of_getElem? hk)).1 hhandling).activity
  have hrunning := hi.running
  have hlimited := hi.limited.1
  unfold Transport.finish
  rw [hactivity, hhandle]
  dsimp only
  have hcount := countP_set_of_some hk
    { left.delivery with handling := false, activity := some (s.admission.end handle).2 } fun d =>
        d.handling
  rw [hhandling, Bool.toNat_true, Bool.toNat_false, Nat.add_zero] at hcount
  have hended : (s.admission.end handle).1.active = s.admission.active - 1 ∧
      (s.admission.end handle).1.limit = s.admission.limit := by
    unfold Admission.end
    rw [if_neg (by rw [hlive]; exact Bool.false_ne_true)]
    exact ⟨rfl, rfl⟩
  refine ⟨fun other hother => ?_, ?_, ⟨?_, hended.2.trans hi.limited.2⟩, fun hdrained => ?_⟩
  · rcases List.mem_or_eq_of_mem_set hother with hold | rfl
    · exact (hi.good other hold).mono hmono
    · exact ⟨nofun,
        fun _ => ⟨hdone.once, hdone.acked, hdone.nacked, hdone.returned, hdone.single,
        hdone.settled⟩⟩
  · show (s.admission.end handle).1.active = _
    rw [hended.1, hrunning]
    dsimp only at hcount ⊢
    omega
  · show (s.admission.end handle).1.active ≤ limit
    rw [hended.1]
    omega
  · have hidle := (hi.drained hdrained).2 d (List.mem_of_getElem? hk)
    rw [hhandling] at hidle
    cases hidle

theorem inv_step {action : Action R B} (hi : Inv limit s) (h : step s action = some t) :
    Inv limit t := by
  cases action with
  | deliver replyTo correlationId parses send nackThrows => exact Option.some.inj h ▸ hi.deliver ..
  | returns k body send ackThrows errorSend nackThrows =>
      obtain ⟨d, hk, hthen⟩ := Option.bind_eq_some_iff.mp h
      split_ifs at hthen with hhandling
      obtain rfl := Option.some.inj hthen
      have hfresh := (hi.good d (List.mem_of_getElem? hk)).1 hhandling
      obtain ⟨hmono, -, hactivity⟩ :=
        returns_keeps ⟨s.transportFailure, { d with returned := some body }⟩ body send ackThrows
        errorSend nackThrows
      have hopen : Open s.transportFailure { d with returned := some body } :=
        Fresh.open ⟨hfresh.settled, hfresh.replies, hfresh.activity⟩
      exact hi.finish hk hhandling
        (Open.returns (h := ⟨s.transportFailure, { d with returned := some body }⟩) hopen
          hfresh.replies rfl _ _ _ _) hmono hactivity
  | throws k errorSend nackThrows =>
      obtain ⟨d, hk, hthen⟩ := Option.bind_eq_some_iff.mp h
      split_ifs at hthen with hhandling
      obtain rfl := Option.some.inj hthen
      have hfresh := (hi.good d (List.mem_of_getElem? hk)).1 hhandling
      obtain ⟨hmono, -, hactivity⟩ := refuse_keeps ⟨s.transportFailure, d⟩ errorSend nackThrows
      exact hi.finish hk hhandling (Open.refuse (h := ⟨s.transportFailure, d⟩) hfresh.open _ _)
        hmono hactivity
  | channelFails => exact Option.some.inj h ▸ hi.fails
  | close =>
      exact Option.some.inj h ▸ ⟨hi.good, hi.running, hi.limited,
        fun hdrained => ⟨rfl, (hi.drained hdrained).2⟩⟩
  | drained =>
      dsimp only [step] at h
      split_ifs at h with hidle
      obtain rfl := Option.some.inj h
      obtain ⟨hclosed, hall⟩ := Bool.and_eq_true_iff.mp hidle
      refine ⟨hi.fails.good, hi.running, hi.limited, fun _ => ⟨hclosed, fun d hd => ?_⟩⟩
      simpa using List.all_eq_true.mp hall d hd
  | timedOut =>
      dsimp only [step] at h
      split_ifs at h
      exact Option.some.inj h ▸ hi.fails

omit [DecidableEq R] in
theorem inv_start {admission : Admission R} (h : messagingAdmission R limit = some admission) :
    Inv limit (start B admission) := by
  unfold messagingAdmission at h
  split_ifs at h
  obtain rfl := Option.some.inj h
  exact ⟨nofun, rfl, ⟨Int.natCast_nonneg _, rfl⟩, nofun⟩

theorem inv_of_reach {admission : Admission R} (h : messagingAdmission R limit = some admission)
    (hreach : Reach step always (start B admission) s) : Inv limit s :=
  hreach.invariant (inv_start h) fun _ _ _ _ hi _ hs => inv_step hi hs

theorem drained_step {action : Action R B} (h : step s action = some t)
    (hdrained : s.drained = true) : t.drained = true := by
  have hfinish : ∀ (k : ℕ) (left : Hands R B), (s.finish k left).drained = s.drained := by
    intro k left
    unfold Transport.finish
    split <;> rfl
  cases action with
  | deliver replyTo correlationId parses send nackThrows =>
      obtain rfl := Option.some.inj h
      unfold Transport.deliver
      split
      · exact hdrained
      · split
        · exact hdrained
        · split <;> exact hdrained
  | returns k body send ackThrows errorSend nackThrows =>
      obtain ⟨d, -, hthen⟩ := Option.bind_eq_some_iff.mp h
      split_ifs at hthen
      exact Option.some.inj hthen ▸ (hfinish ..).trans hdrained
  | throws k errorSend nackThrows =>
      obtain ⟨d, -, hthen⟩ := Option.bind_eq_some_iff.mp h
      split_ifs at hthen
      exact Option.some.inj hthen ▸ (hfinish ..).trans hdrained
  | channelFails => exact Option.some.inj h ▸ hdrained
  | close => exact Option.some.inj h ▸ hdrained
  | drained =>
      dsimp only [step] at h
      split_ifs at h
      exact Option.some.inj h ▸ rfl
  | timedOut =>
      dsimp only [step] at h
      split_ifs at h
      exact Option.some.inj h ▸ hdrained

end Steps

/-! ## Every run -/

/-- A delivery is settled at most once, and answered at most once unless something threw on the way.
It is acknowledged only when its handler has returned and just that was answered, and rejected only
when the error was answered, if the request names a queue to reply to and carries a correlation id.
What is not settled is in the hands of its handler, or the transport has failed. -/
theorem deliveries_are_settled_once (limit : ℕ) (admission : Admission R)
    (h : messagingAdmission R limit = some admission) (s : Transport R B)
    (hreach : Reach step always (start B admission) s) (d : Delivery R B) (hd : d ∈ s.deliveries) :
    d.settled.length ≤ 1 ∧ (d.threw = false → d.replies.length ≤ 1) ∧
      (.ack ∈ d.settled → ∃ body,
        d.returned = some body ∧ d.replies = if d.replyTo then [.handled body] else []) ∧
      (.nack ∈ d.settled → d.replyTo = true → d.correlationId.isSome = true → .failed ∈ d.replies) ∧
      (d.handling = false → d.threw = false → s.transportFailure = false →
        d.settled.length = 1) := by
  obtain ⟨hfresh, hdone⟩ := (inv_of_reach h hreach).good d hd
  cases hhandling : d.handling with
  | false =>
      have hend := hdone hhandling
      exact ⟨hend.once, hend.single, hend.acked, hend.nacked, fun _ => hend.settled⟩
  | true =>
      have hopen : Open s.transportFailure d := (hfresh hhandling).open
      refine ⟨?_, fun _ => hopen.single, fun hmem => absurd hmem (hopen.not_settled _),
        fun hmem => absurd hmem (hopen.not_settled _), nofun⟩
      rw [hopen.settled]
      exact Nat.zero_le _

/-- The second delivery comes while the first is in the hands of its handler, and there is
one place. -/
theorem saturated_delivery_is_rejected :
    ∃ (s : Transport ℕ ℕ) (admission : Admission ℕ) (d : Delivery ℕ ℕ),
    messagingAdmission ℕ 1 = some admission ∧ Reach step always (start ℕ admission) s ∧
      d ∈ s.deliveries ∧
      d.settled = [.nack] ∧ .failed ∈ d.replies := by
  obtain ⟨s, hs, hsecond⟩ := reach_exec_any (s := start ℕ (⟨1, [], 0, 0, 0, 0, 0⟩ : Admission ℕ))
    (P := fun s : Transport ℕ ℕ => s.deliveries[1]?.any (fun d : Delivery ℕ ℕ =>
      decide (d.settled = [.nack] ∧ d.replyTo = true ∧ d.correlationId = some 8)) = true)
    (show ((exec step (start ℕ (⟨1, [], 0, 0, 0, 0, 0⟩ : Admission ℕ))
      [.deliver true (some 7) true .taken false,
      .deliver true (some 8) true .taken false]).any fun s => decide _) = true by decide)
  obtain ⟨d, hd, hboth⟩ := (Option.any_eq_true _ _).mp hsecond
  obtain ⟨hsettled, hto, hid⟩ := of_decide_eq_true hboth
  have hmem := List.mem_of_getElem? hd
  refine ⟨s, _, d, rfl, hs, hmem, hsettled, ?_⟩
  refine (deliveries_are_settled_once 1 _ rfl s hs d hmem).2.2.2.1 ?_ hto ?_
  · rw [hsettled]
    exact List.mem_cons_self
  · rw [hid]
    rfl

/-- The broker is told to hold back once `limit + 1` deliveries are not settled. While nothing has
failed it never has to: no more are unsettled than the handlers may have. And when `close` has
waited for all that was running, no handler has a delivery any more, however the run goes on. -/
theorem reception_never_stalls (limit : ℕ) (admission : Admission R)
    (h : messagingAdmission R limit = some admission) (s : Transport R B)
    (hreach : Reach step always (start B admission) s) :
    (s.transportFailure = false → (∀ d ∈ s.deliveries, d.threw = false) →
      s.deliveries.countP (fun d => d.settled.isEmpty) < limit + 1) ∧
    (s.drained = true → ∀ t, Reach step always s t → ∀ d ∈ t.deliveries, d.handling = false) := by
  have hi := inv_of_reach h hreach
  refine ⟨fun hup hthrew => ?_, fun hdrained t ht => ?_⟩
  · have hle : s.deliveries.countP (fun d => d.settled.isEmpty) ≤
        s.deliveries.countP (·.handling) := by
      refine List.countP_mono_left fun d hd hempty => ?_
      by_contra hidle
      have hone := ((hi.good d hd).2 (Bool.eq_false_iff.mpr hidle)).settled (hthrew d hd) hup
      rw [List.isEmpty_iff.mp hempty] at hone
      cases hone
    have hrunning := hi.running
    have hlimited := hi.limited.1
    omega
  · have hlast : t.drained = true := by
      induction ht with
      | start => exact hdrained
      | next _ _ hs ih => exact drained_step hs ih
    exact ((inv_of_reach h (hreach.trans ht)).drained hlast).2

/-- One place, and the delivery that has it. -/
theorem one_unsettled_delivery : ∃ (s : Transport ℕ ℕ) (admission : Admission ℕ),
    messagingAdmission ℕ 1 = some admission ∧
    Reach step always (start ℕ admission) s ∧ s.deliveries.length = 2 ∧
      s.deliveries.countP (fun d => d.settled.isEmpty) < 2 := by
  obtain ⟨s, hs, hlength, hup, hthrew⟩ :=
    reach_exec_any (s := start ℕ (⟨1, [], 0, 0, 0, 0, 0⟩ : Admission ℕ))
    (P := fun s : Transport ℕ ℕ => s.deliveries.length = 2 ∧ s.transportFailure = false ∧
      ∀ d ∈ s.deliveries, d.threw = false)
    (show ((exec step (start ℕ (⟨1, [], 0, 0, 0, 0, 0⟩ : Admission ℕ))
      [.deliver true (some 7) true .taken false,
      .deliver true (some 8) true .taken false]).any fun s => decide _) = true by decide)
  exact ⟨s, _, rfl, hs, hlength, (reception_never_stalls 1 _ rfl s hs).1 hup hthrew⟩

end Kronos.RabbitMq.Deliveries
