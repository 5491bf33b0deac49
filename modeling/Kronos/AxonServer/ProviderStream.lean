import Kronos.AxonServer.OutboundStream

/-!
# The provider stream

A bus serves its handlers on one stream to the server: it announces the names it
handles, grants the server credits to send against, and answers what it receives. When
the stream fails it is opened anew after a delay, and at once when the connection is
back. Each time is an incarnation of its own, with an outbound stream of its own.

The command bus and the query bus have the same code for this, but for one step of
`reestablishStreamBody`: the command bus takes a new abort controller, the query bus
keeps the one it has. What a bus makes of a message it received is left to the bus;
it answers by writing on the incarnation the message came on.

An action is one synchronous piece of the code. The loop that receives is one action for
each message, up to where the message is handed on. Delays, clocks and texts of errors
are left out.
-/
namespace Kronos.AxonServer.ProviderStream
open Kronos.AxonServer.OutboundStream

/-- The frames of a bus; what it answers and sends on its own account is an `M`. -/
inductive Frame (N M : Type) where
  | subscribe (name : N)
  | flowControl (permits : ℕ)
  | ack
  | message (body : M)
  deriving DecidableEq, Repr

structure Config where
  permits : ℕ
  threshold : ℕ
  below : threshold < permits
  maxBuffered : ℕ
  maxAttempts : ℕ
  /-- A stream that is opened again has an abort controller of its own. -/
  renews : Bool

/-- The checks of `flowControl`; `none` where they throw. `axonServerCommandBus`: `renews`. -/
def Config.of (permits refillThreshold : Option ℕ) (maxAttempts : ℕ) (renews : Bool) :
    Option Config :=
  let permits := permits.getD 5000
  let threshold := refillThreshold.getD (permits / 2)
  if permits ≤ 9007199254740991 then
    if below : threshold < permits then some ⟨permits, threshold, below, 4096, maxAttempts, renews⟩
    else none
  else none

structure Incarnation (N M : Type) where
  out : Stream (Frame N M)
  /-- The controller whose signal `openStream` was given. -/
  signal : Option ℕ
  /-- The loop over what the server sends goes on. -/
  reading : Bool
  received : ℕ
  /-- The names there were when the stream was opened. -/
  names : List N
  deriving DecidableEq, Repr

def Incarnation.fresh (N M : Type) : Incarnation N M := ⟨outboundStream, none, false, 0, []⟩

structure Provider (N M : Type) where
  subscribedNames : List N
  /-- The incarnations before this one. -/
  retired : List (Incarnation N M)
  outbound : Incarnation N M
  streamStarted : Bool
  permits : ℤ
  /-- The abort controllers, and which of them are aborted. -/
  controllers : List Bool
  providerAbort : ℕ
  timer : Bool
  stopped : Bool
  attempts : ℕ
  /-- The state of the connection allows to reconnect. -/
  connected : Bool
  shuttingDown : Bool
  /-- The names whose `subscribe` returned. -/
  returned : List N
  deriving DecidableEq, Repr

def initial (N M : Type) : Provider N M where
  subscribedNames := []
  retired := []
  outbound := .fresh N M
  streamStarted := false
  permits := 0
  controllers := [false]
  providerAbort := 0
  timer := false
  stopped := false
  attempts := 0
  connected := true
  shuttingDown := false
  returned := []

namespace Provider
variable {N M : Type} (c : Config) (s : Provider N M)

/-- What a piece of code leaves, and whether it came to its end or threw. -/
abbrev Outcome (N M : Type) := Provider N M × Bool

/-- The code goes on unless it threw. -/
def Outcome.andThen (outcome : Outcome N M) (rest : Provider N M → Outcome N M) : Outcome N M :=
  if outcome.2 then rest outcome.1 else outcome

/-- The number of the incarnation that is `outbound`. -/
def current : ℕ := s.retired.length

def incarnations : List (Incarnation N M) := s.retired ++ [s.outbound]

def update (i : ℕ) (f : Incarnation N M → Incarnation N M) : Provider N M :=
  if i = s.current then { s with outbound := f s.outbound }
  else { s with retired := s.retired.modify i f }

/-- `send` of the outbound stream of the incarnation `i`. -/
def sendOn (i : ℕ) (frame : Frame N M) : Outcome N M :=
  match s.incarnations[i]?.bind fun mine => mine.out.send c.maxBuffered frame with
  | some out => (s.update i fun mine => { mine with out }, true)
  | none => (s, false)

def send (frame : Frame N M) : Outcome N M := s.sendOn c s.current frame

def grantPermits : Outcome N M :=
  (s.send c (.flowControl c.permits)).andThen fun s =>
    ({ s with permits := s.permits + c.permits }, true)

def sendSubscribe (name : N) : Outcome N M := s.send c (.subscribe name)

def openStream (mine : Incarnation N M) : Incarnation N M :=
  { mine with
    signal := some s.providerAbort
    reading := true
    names := s.subscribedNames
    out := mine.out.iterator.getD mine.out }

def ensureStreamStarted : Provider N M :=
  if s.streamStarted then s
  else { s with streamStarted := true, outbound := s.openStream s.outbound }

def abort : Provider N M := { s with controllers := s.controllers.set s.providerAbort true }

def closeOutbound : Provider N M :=
  { s with outbound := { s.outbound with out := s.outbound.out.close } }

/-- The names are announced in their order. -/
def announce : List N → Provider N M → Outcome N M
  | [], s => (s, true)
  | name :: names, s => (s.sendSubscribe c name).andThen (announce names)

/-- `providerAbort.abort(); providerAbort = new AbortController()`. -/
def renew : Provider N M :=
  { s with
    controllers := s.controllers.set s.providerAbort true ++ [false]
    providerAbort := s.controllers.length }

def reestablishStreamBody : Outcome N M :=
  let s := (if c.renews then s.renew else s).closeOutbound
  let s :=
    { s with
      retired := s.retired ++ [s.outbound]
      outbound := .fresh N M
      streamStarted := false
      permits := 0 }
  (s.ensureStreamStarted.announce c s.subscribedNames).andThen fun s => s.grantPermits c

def canReconnect : Bool := !s.shuttingDown && s.connected

/-- The recovery's `failed`. -/
def failed (retryable : Bool) : Provider N M :=
  if s.stopped || s.timer || !s.canReconnect then s
  else if !retryable || c.maxAttempts ≤ s.attempts then s
  else { s with attempts := s.attempts + 1, timer := true }

/-- `reopen` under the recovery's `catch`. -/
def reopen (retryable : Bool) : Provider N M :=
  if (s.reestablishStreamBody c).2 then (s.reestablishStreamBody c).1
  else (s.reestablishStreamBody c).1.failed c retryable

def timerFires (retryable : Bool) : Provider N M :=
  let s := { s with timer := false }
  if s.stopped || !s.canReconnect then s else s.reopen c retryable

/-- The recovery's `restart`. -/
def restart (retryable : Bool) : Provider N M :=
  if s.stopped || !s.canReconnect then s
  else { s with timer := false, attempts := 0 }.reopen c retryable

/-- The recovery's `received`; `stable`: the stream was opened long enough ago. -/
def heard (stable : Bool) : Provider N M := if stable then { s with attempts := 0 } else s

/-- The loop over the incarnation `i` is over. -/
def quit (i : ℕ) : Provider N M := s.update i fun mine => { mine with reading := false }

/-- The loop ends with an error, or with the end of what the server sends. -/
def loopEnds (i : ℕ) (retryable : Bool) : Provider N M :=
  if i = s.current ∧ s.shuttingDown = false ∧ s.connected = true then (s.quit i).failed c retryable
  else s.quit i

/-- The credits after a message: they bound what is delivered, not what is unfinished. -/
def consume : Outcome N M :=
  let s : Provider N M :=
    { s with
      permits := s.permits - 1
      outbound := { s.outbound with received := s.outbound.received + 1 } }
  if s.permits ≤ (c.threshold : ℤ) ∧ s.shuttingDown = false then s.grantPermits c else (s, true)

/-- `instruction`: the message has an instruction id. -/
def acknowledge (instruction : Bool) : Outcome N M := if instruction then s.send c .ack
    else (s, true)

/-- A message up to where it is handed on, and whether it is. -/
def receive (i : ℕ) (instruction stable retryable : Bool) : Outcome N M :=
  if i = s.current then
    let consumed := ((s.heard stable).acknowledge c instruction).andThen fun s => s.consume c
    if consumed.2 then consumed else (consumed.1.loopEnds c i retryable, false)
  else (s.quit i, false)

end Provider

inductive Action (N M : Type) where
  /-- `accepted`: the next bus takes the handler. -/
  | subscribe (name : N) (accepted : Bool)
  | receive (incarnation : ℕ) (instruction stable retryable : Bool)
  | loopEnds (incarnation : ℕ) (retryable : Bool)
  /-- The loop of the query bus gives up on the stream: it closes it and returns. -/
  | giveUp (incarnation : ℕ)
  | sendOn (incarnation : ℕ) (body : M)
  | flush (incarnation : ℕ)
  /-- The transport asks an outbound stream for its next frame, or cancels it. -/
  | next (incarnation : ℕ)
  | return (incarnation : ℕ)
  | timer (retryable : Bool)
  | disconnect
  | reconnect (retryable : Bool)
  | shutdown
  deriving DecidableEq, Repr

namespace Provider
variable {N M : Type} [DecidableEq N] (c : Config) (s : Provider N M)

/-- `subscribedNames.add`. -/
def addName (name : N) : Provider N M :=
  { s with
    subscribedNames :=
      if name ∈ s.subscribedNames then s.subscribedNames else s.subscribedNames ++ [name] }

def subscribe (name : N) (accepted : Bool) : Provider N M :=
  if accepted then
    let announced := ((s.addName name).ensureStreamStarted.sendSubscribe c name).andThen fun s =>
      s.grantPermits c
    if announced.2 then { announced.1 with returned := announced.1.returned ++ [name] }
    else announced.1
  else s.addName name

/-- The connection is lost: `onDisconnect`. -/
def disconnect : Provider N M := { s.abort.closeOutbound with connected := false }

/-- The connection is back: `onReconnect`. -/
def reconnect (retryable : Bool) : Provider N M :=
  let back := { s with connected := true }
  if !s.shuttingDown && s.streamStarted then back.restart c retryable else back

/-- `onShutdown` stops the recovery. -/
def shutdown : Provider N M := { s with shuttingDown := true, stopped := true, timer := false }

def stream (i : ℕ) (f : Stream (Frame N M) → Stream (Frame N M)) : Provider N M :=
  s.update i fun mine => { mine with out := f mine.out }

/-- The loop over the incarnation goes on. -/
def reads (i : ℕ) : Bool := s.incarnations[i]?.any (·.reading)

/-- The transport reads from the outbound stream of the incarnation. -/
def claimed (i : ℕ) : Bool := s.incarnations[i]?.any (·.out.claimed)

end Provider

def step {N M : Type} [DecidableEq N] (c : Config) (s : Provider N M) : Action N M →
    Option (Provider N M)
  | .subscribe name accepted => some (s.subscribe c name accepted)
  | .receive i instruction stable retryable =>
      if s.reads i then some (s.receive c i instruction stable retryable).1 else none
  | .loopEnds i retryable => if s.reads i then some (s.loopEnds c i retryable) else none
  | .giveUp i => if s.reads i then some ((s.stream i Stream.close).quit i) else none
  | .sendOn i body => some (s.sendOn c i (.message body)).1
  | .flush i => some (s.stream i Stream.flush)
  | .next i => if s.claimed i then some (s.stream i Stream.next) else none
  | .return i => if s.claimed i then some (s.stream i Stream.return) else none
  | .timer retryable => if s.timer then some (s.timerFires c retryable) else none
  | .disconnect => some s.disconnect
  | .reconnect retryable => some (s.reconnect c retryable)
  | .shutdown => some s.shutdown

end Kronos.AxonServer.ProviderStream
