import Mathlib.Algebra.Order.Ring.Int

/-!
# The handler stream of a command bus

A command bus serves on one long-lived stream. Each time the stream is opened is
an incarnation of its own: it announces the names subscribed so far, grants the
server credits, and hands the commands it receives to handlers that may finish
long after it is gone. Opening takes time, a failure is retried after a delay, and
a restart opens at once, whatever was there before.

The stream, its recovery and the bus are one state here. An action is a call of the
bus or of the stream, the completion of an opening, something the server sent, or a
handler that finishes. Before an opening completes nothing arrives on it. The
incarnations keep what was written on them. Payloads, texts of errors, the delay of a
retry and the bus's outgoing side are left out.
-/
namespace Kronos.KronosDb.HandlerStream

/-- How many credits a grant is, and when the bus tops up. -/
structure CreditWindow where
  permits : ℕ
  threshold : ℕ
  below : threshold < permits

/-- `creditWindow`; `none` where it throws. -/
def creditWindow (permits : Option ℕ) (refillThreshold : Option ℕ) : Option CreditWindow :=
  let permits := permits.getD 5000
  let threshold := refillThreshold.getD (permits / 2)
  if permits ≤ 0xffffffff then
    if below : threshold < permits then some ⟨permits, threshold, below⟩ else none
  else none

structure Config (N : Type) extends CreditWindow where
  /-- A subscription of the name fits a frame. -/
  fits : N → Bool
  maxAttempts : ℕ

inductive Answer where
  | result
  | noHandler
  | failed
  deriving DecidableEq, Repr

/-- What is written on an incarnation. -/
inductive Sent (N : Type) where
  | subscribe (name : N)
  | credit (credits : ℕ)
  /-- The answer to the command with that number. -/
  | handled (task : ℕ) (answer : Answer)
  deriving DecidableEq, Repr

structure Incarnation (N : Type) where
  /-- The stream is attached. -/
  stream : Bool
  /-- Instructions without an answer. -/
  pending : List ℕ
  next : ℕ
  sent : List (Sent N)
  /-- The commands that arrived. -/
  received : ℕ
  deriving DecidableEq, Repr

/-- A command in the hands of `handleInbound`. -/
structure Task (N : Type) where
  /-- The session it arrived on. -/
  incarnation : ℕ
  name : N
  /-- The answer, where no handler is run. -/
  verdict : Option Answer
  done : Bool
  deriving DecidableEq, Repr

structure State (N : Type) where
  incarnations : List (Incarnation N)
  live : Option ℕ
  started : Bool
  closed : Bool
  /-- The promises of `acknowledged`, and how they settled. -/
  waiters : List (Option Bool)
  timer : Bool
  stopped : Bool
  attempts : ℕ
  /-- The state of the connection allows to reconnect. -/
  connected : Bool
  localHandlers : List N
  credit : Option ℤ
  shuttingDown : Bool
  tasks : List (Task N)
  /-- The names whose `subscribe` returned. -/
  subscribed : List N
  deriving DecidableEq

def initial (N : Type) : State N where
  incarnations := []
  live := none
  started := false
  closed := false
  waiters := []
  timer := false
  stopped := false
  attempts := 0
  connected := true
  localHandlers := []
  credit := none
  shuttingDown := false
  tasks := []
  subscribed := []

namespace State
variable {N : Type} (c : Config N) (s : State N)

def liveIncarnation : Option (Incarnation N) := s.live.bind fun i => s.incarnations[i]?

/-- The open incarnation: `session`. -/
def session : Option ℕ :=
  if (s.liveIncarnation.any fun mine => mine.stream) then s.live else none

def update (i : ℕ) (f : Incarnation N → Incarnation N) : State N :=
  { s with incarnations := s.incarnations.modify i f }

def settle : State N :=
  if s.liveIncarnation.any fun mine => mine.stream && mine.pending.isEmpty then
    { s with waiters := s.waiters.map fun waiter => waiter.or (some true) }
  else s

def refuse : State N := { s with waiters := s.waiters.map fun waiter => waiter.or (some false) }

/-- `end`, with the bus's `onEnded`, when the incarnation is live. -/
def ended : State N := { s with live := none, credit := none }

/-- `abandon`: the live incarnation, if there is one, is over. -/
def abandon : State N := if s.live.isSome then s.ended else s

/-- The bus's `canReconnect`, as the recovery asks for it. -/
def canReconnect : Bool := !s.closed && !s.shuttingDown && s.connected

/-- The recovery's `failed`. -/
def failed (retryable : Bool) : State N :=
  if s.stopped || s.timer || !s.canReconnect then s
  else if !retryable || c.maxAttempts ≤ s.attempts then s
  else { s with attempts := s.attempts + 1, timer := true }

/-- `fail` of the incarnation `i`. -/
def fail (i : ℕ) (retryable : Bool) : State N :=
  if s.live = some i then s.ended.failed c retryable else s

/-- `open`, up to the answer of the link. What was live before is cancelled. -/
def «open» : State N :=
  if s.closed then s
  else
    { s with
      started := true
      incarnations := s.incarnations ++ [⟨false, [], 0, [], 0⟩]
      live := some s.incarnations.length }

/-- `send` of the session `i`. -/
def send (i : ℕ) (frame : Sent N) : State N :=
  if s.live = some i then
    s.update i fun mine => if mine.stream then { mine with sent := mine.sent ++ [frame] } else mine
  else s

/-- `instruct` of the session `i`; what does not fit is pending and was not written. -/
def instruct (i : ℕ) (frame : Sent N) (fits : Bool) : State N :=
  if s.live = some i then
    s.update i fun mine =>
      if mine.stream then
        { mine with
          next := mine.next + 1
          pending := mine.pending ++ [mine.next + 1]
          sent := if fits then mine.sent ++ [frame] else mine.sent }
      else mine
  else s

def grant (i : ℕ) : State N :=
  let sent := s.send i (.credit c.permits)
  { sent with credit := some (sent.credit.getD 0 + c.permits) }

def subscribeOn (i : ℕ) (name : N) : State N := s.instruct i (.subscribe name) (c.fits name)

/-- The loop of `announce`, and whether it came to its end. -/
def announceNames (i : ℕ) : State N → List N → State N × Bool
  | s, [] => (s, true)
  | s, name :: names =>
      if c.fits name then announceNames i (s.subscribeOn c i name) names
      else (s.subscribeOn c i name, false)

def announce (i : ℕ) : State N × Bool :=
  let announced := { s with credit := none }.announceNames c i s.localHandlers
  if announced.2 && !s.localHandlers.isEmpty then (announced.1.grant c i, true) else announced

/-- The stream of the incarnation `i` is open. -/
def attach (i : ℕ) (retryable : Bool) : State N :=
  if s.live = some i then
    let announced := (s.update i fun mine => { mine with stream := true }).announce c i
    if announced.2 then announced.1.settle else announced.1.fail c i retryable
  else s

/-- The recovery's `received`. -/
def heard (stable : Bool) : State N := if stable then { s with attempts := 0 } else s

def onAck (i : ℕ) (mine : Incarnation N) (instruction : ℕ) (success : Bool) : State N :=
  if instruction ∈ mine.pending then
    let answered := s.update i fun mine => { mine with pending := mine.pending.erase instruction }
    if success then answered.settle else answered.refuse
  else s

/-- The credits after a receipt. -/
def consumeCredit (i : ℕ) : State N :=
  match s.credit with
  | none => s
  | some credit =>
      let consumed := { s with credit := some (credit - 1) }
      if credit - 1 ≤ c.threshold ∧ s.shuttingDown = false then consumed.grant c i else consumed

def onCommand [DecidableEq N] (i : ℕ) (name : N) (admitted : Bool) : State N :=
  let verdict :=
    if s.shuttingDown || !admitted then some .failed
    else if name ∈ s.localHandlers then none
    else some .noHandler
  { (s.update i fun mine => { mine with received := mine.received + 1 }).consumeCredit c i with
    tasks := s.tasks ++ [⟨i, name, verdict, false⟩] }

end State

/-- What the server sends. -/
inductive Frame (N : Type) where
  | ack (instruction : ℕ) (success : Bool)
  /-- `admitted`: the bus has room for one more handler. -/
  | command (name : N) (admitted : Bool)
  /-- A frame whose body cannot be read: the sink throws. -/
  | unreadable
  | other
  deriving DecidableEq, Repr

namespace State
variable {N : Type} [DecidableEq N] (c : Config N) (s : State N)

/-- The sink of the live incarnation. -/
def sink (i : ℕ) (mine : Incarnation N) (frame : Frame N) (stable retryable : Bool) : State N :=
  let s := s.heard stable
  match frame with
  | .ack instruction success => s.onAck i mine instruction success
  | .command name admitted => s.onCommand c i name admitted
  | .unreadable => s.fail c i retryable
  | .other => s

/-- `accepted`: the next bus takes the handler. -/
def subscribe (name : N) (accepted : Bool) : State N :=
  let s := { s with
    localHandlers := if name ∈ s.localHandlers then s.localHandlers else s.localHandlers ++ [name] }
  if accepted then
    match s.session with
    | none =>
        let s := { s with subscribed := s.subscribed ++ [name] }
        if s.started then s else s.open
    | some i =>
        let announced := s.subscribeOn c i name
        if c.fits name then
          let announced := { announced with subscribed := announced.subscribed ++ [name] }
          if announced.credit.isNone then announced.grant c i else announced
        else announced
  else s

def acknowledged : State N :=
  let settled := !s.started || s.liveIncarnation.any fun mine => mine.stream && mine.pending.isEmpty
  { s with waiters := s.waiters ++ [if settled then some true else none] }

/-- The recovery's `restart`. -/
def restart : State N :=
  if s.closed || !s.started || s.stopped || !s.canReconnect then s
  else { s with timer := false, attempts := 0 }.open

def timerFires : State N :=
  if s.stopped || !s.canReconnect then { s with timer := false }
  else { s with timer := false }.open

def close : State N :=
  { s.abandon with closed := true, stopped := true, timer := false }.refuse

/-- The task with the number `k` answers. `sent`: its answer, or what stands in for
one that does not fit, can be written. -/
def answer (k : ℕ) (task : Task N) (outcome : Answer) (sent : Bool) : State N :=
  let done := { s with tasks := s.tasks.set k { task with done := true } }
  if sent then done.send task.incarnation (.handled k (task.verdict.getD outcome)) else done

end State

inductive Action (N : Type) where
  | subscribe (name : N) (accepted : Bool)
  | attach (incarnation : ℕ) (retryable : Bool)
  | fail (incarnation : ℕ) (retryable : Bool)
  /-- `stable`: the stream was opened long enough ago. -/
  | frame (incarnation : ℕ) (frame : Frame N) (stable retryable : Bool)
  | answer (task : ℕ) (outcome : Answer) (sent : Bool)
  | acknowledged
  | abandon
  | restart
  | timer
  | close
  | shutdown
  | connection (connected : Bool)
  deriving DecidableEq, Repr

def step {N : Type} [DecidableEq N] (c : Config N) (s : State N) : Action N → Option (State N)
  | .subscribe name accepted => some (s.subscribe c name accepted)
  | .attach i retryable =>
      match s.incarnations[i]? with
      | none => none
      | some mine => if mine.stream then none else some (s.attach c i retryable)
  | .fail i retryable => some (s.fail c i retryable)
  | .frame i frame stable retryable =>
      match s.incarnations[i]? with
      | none => none
      | some mine =>
          if s.live = some i then
            if mine.stream then some (s.sink c i mine frame stable retryable) else none
          else some s
  | .answer k outcome sent =>
      match s.tasks[k]? with
      | none => none
      | some task => if task.done then none else some (s.answer k task outcome sent)
  | .acknowledged => some s.acknowledged
  | .abandon => some s.abandon
  | .restart => some s.restart
  | .timer => if s.timer then some s.timerFires else none
  | .close => some s.close
  -- The bus retires the stream: the recovery stops, an open stream stays.
  | .shutdown => some { s with shuttingDown := true, stopped := true, timer := false }
  | .connection connected => some { s with connected := connected }

end Kronos.KronosDb.HandlerStream
