import Kronos.AxonServer.ProviderStream
import Kronos.AxonServer.ShutdownLatch
import Kronos.Messaging.Admission

/-!
# The Axon Server command bus

A command that arrives on the provider stream registers with the shutdown latch, asks
for admission and is handed to the next bus. What comes of it is answered on the stream
it came on, also when that is no longer the current one, and the command is over when
the transport has asked for more after its answer. A command this process dispatches
registers and asks for admission too.

What the handler returns is only whether there is a result; the payloads and the
texts of errors are left out, and so is what the server answers to a dispatch.
-/
namespace Kronos.AxonServer.CommandBus
open Kronos.AxonServer.ProviderStream Kronos.AxonServer.ShutdownLatch
open Kronos.AxonServer.OutboundStream
open Kronos.Messaging

/-- `errorCode`: none, `NO_HANDLER_FOR_COMMAND` or `COMMAND_EXECUTION_ERROR`. -/
inductive Answer where
  | result
  | noHandler
  | failed
  deriving DecidableEq, Repr

/-- The answer to the command with that number. -/
structure Response where
  work : ℕ
  answer : Answer
  deriving DecidableEq, Repr

inductive Phase where
  | handling
  /-- Its answer is sent, and it waits for that promise of `flush` of its stream. -/
  | flushing (flush : ℕ)
  | ended
  deriving DecidableEq, Repr

/-- A command in the hands of `handleInboundCommand`, or a `dispatch` of this process. -/
structure Work (N R : Type) where
  /-- The incarnation it came on, and its name. -/
  command : Option (ℕ × N)
  activity : Option ShutdownLatch.Handle
  admission : Option (Messaging.Handle R)
  phase : Phase
  /-- There was no room for its answer. -/
  overflow : Bool
  deriving DecidableEq, Repr

/-- It is over, and its handles with it. -/
def Work.finish {N R : Type} (work : Work N R) (overflow : Bool) : Work N R :=
  { work with
    phase := .ended
    overflow
    activity := work.activity.map fun _ => ⟨true⟩
    admission := work.admission.map fun handle => { handle with ended := true } }

structure Bus (N R : Type) where
  provider : Provider N Response
  latch : Latch
  inboundAdmission : Admission R
  outboundAdmission : Admission R
  works : List (Work N R)
  deriving DecidableEq, Repr

/-- The bus gives the latch one callback, which stops the recovery. -/
def axonServerCommandBus {R : Type} (N : Type) (inbound outbound : Admission R) : Bus N R where
  provider := initial N Response
  latch := shutdownLatch.onShutdown
  inboundAdmission := inbound
  outboundAdmission := outbound
  works := []

namespace Bus
variable {N R : Type} [DecidableEq N] [DecidableEq R] (c : Config) (s : Bus N R)

def endAdmission (admission : Admission R) (handle : Option (Messaging.Handle R)) : Admission R :=
  handle.elim admission fun handle => (admission.end handle).1

/-- The `finally`: the admission and the activity end. -/
def finish (k : ℕ) (work : Work N R) (overflow : Bool) : Bus N R :=
  { s with
    inboundAdmission := if work.command.isSome then endAdmission s.inboundAdmission work.admission
      else s.inboundAdmission
    outboundAdmission := if work.command.isSome then s.outboundAdmission
      else endAdmission s.outboundAdmission work.admission
    latch := work.activity.elim s.latch fun handle => (s.latch.end handle).1
    works := s.works.set k (work.finish overflow) }

/-- `responses.send` and `responses.flush` for the command `k`, which came on the
incarnation `i`. -/
def respond (k : ℕ) (work : Work N R) (i : ℕ) (answer : Answer) : Bus N R :=
  let sent := s.provider.sendOn c i (.message ⟨k, answer⟩)
  if sent.2 then
    { s with
      provider := sent.1.stream i Stream.flush
      works := s.works.set k { work with
        phase := .flushing (sent.1.incarnations[i]?.elim 0 fun mine => mine.out.flushes.length) } }
  else s.finish k work (s.provider.incarnations[i]?.any fun mine => !mine.out.closed)

/-- A command is over before its handler is called. -/
def refuse (work : Work N R) (i : ℕ) (answer : Answer) : Bus N R :=
  { s with works := s.works ++ [work] }.respond c s.works.length work i answer

/-- `handleInboundCommand` up to the call of the handler. `decodes`: the payload can be read. -/
def handleInboundCommand (i : ℕ) (name : N) (decodes : Bool) : Bus N R :=
  match s.latch.registerActivity with
  | none => s.refuse c ⟨some (i, name), none, none, .handling, false⟩ i .failed
  | some (latch, activity) =>
      match s.inboundAdmission.enter none with
      | (admission, .error _) =>
          { s with latch, inboundAdmission := admission }.refuse c ⟨some (i, name), some activity,
              none, .handling, false⟩ i .failed
      | (admission, .ok handle) =>
          let work : Work N R := ⟨some (i, name), some activity, some handle, .handling, false⟩
          let s := { s with latch, inboundAdmission := admission }
          if name ∈ s.provider.subscribedNames then
            if decodes then { s with works := s.works ++ [work] } else s.refuse c work i .failed
          else s.refuse c work i .noHandler

/-- `dispatch` up to the call of the server. -/
def dispatch (identifier : R) : Bus N R :=
  match s.latch.registerActivity with
  | none => s
  | some (latch, activity) =>
      match s.outboundAdmission.enter (some identifier) with
      | (admission, .error _) =>
          let work : Work N R := ⟨none, some activity, none, .handling, false⟩
          { s with latch, outboundAdmission := admission, works := s.works ++ [work] }.finish
              s.works.length work false
      | (admission, .ok handle) =>
          { s with
            latch
            outboundAdmission := admission
            works := s.works ++ [⟨none, some activity, some handle, .handling, false⟩] }

/-- A message with a command: when the loop hands it on it is handled. -/
def receive (i : ℕ) (name : N) (decodes instruction stable retryable : Bool) : Bus N R :=
  let received := s.provider.receive c i instruction stable retryable
  let s := { s with provider := received.1 }
  if received.2 then s.handleInboundCommand c i name decodes else s

def shutdown : Bus N R :=
  { s with latch := s.latch.initiateShutdown, provider := s.provider.shutdown }

/-- The promise of `flush` the command waits for is settled. -/
def flushed (i flush : ℕ) : Bool :=
  s.provider.incarnations[i]?.any fun mine => mine.out.flushes[flush]?.any fun call =>
    call.settled.isSome

end Bus

/-- What the stream, the connection, the transport and the subscriber do. -/
def external {N : Type} : ProviderStream.Action N Response → Bool
  | .sendOn _ _ => false
  | .flush _ => false
  | .giveUp _ => false
  | .shutdown => false
  | _ => true

inductive Action (N R : Type) where
  | provider (action : ProviderStream.Action N Response)
  | command (incarnation : ℕ) (name : N) (decodes instruction stable retryable : Bool)
  /-- The handler settles. `answer`: a result that can be serialized, or a failure. -/
  | settled (work : ℕ) (result : Bool)
  | flushed (work : ℕ)
  | dispatch (identifier : R)
  /-- The server's answer to a dispatch, its failure, or the deadline. -/
  | dispatched (work : ℕ)
  | shutdown
  deriving DecidableEq, Repr

def step {N R : Type} [DecidableEq N] [DecidableEq R] (c : Config) (s : Bus N R) : Action N R →
    Option (Bus N R)
  | .provider action =>
      if external action then (ProviderStream.step c s.provider action).map fun provider =>
        { s with provider } else none
  | .command i name decodes instruction stable retryable =>
      if s.provider.reads i then some (s.receive c i name decodes instruction stable retryable)
      else none
  | .settled k result =>
      match s.works[k]? with
      | some ⟨some (i, name), activity, admission, .handling, overflow⟩ =>
          some (s.respond c k ⟨some (i, name), activity, admission, .handling,
            overflow⟩ i (if result then .result else .failed))
      | _ => none
  | .flushed k =>
      match s.works[k]? with
      | some ⟨some (i, name), activity, admission, .flushing flush, overflow⟩ =>
          if s.flushed i flush then
            some (s.finish k ⟨some (i, name), activity, admission, .flushing flush,
              overflow⟩ overflow)
          else none
      | _ => none
  | .dispatch identifier => some (s.dispatch identifier)
  | .dispatched k =>
      match s.works[k]? with
      | some ⟨none, activity, admission, .handling, overflow⟩ =>
          some (s.finish k ⟨none, activity, admission, .handling, overflow⟩ overflow)
      | _ => none
  | .shutdown => some s.shutdown

end Kronos.AxonServer.CommandBus
