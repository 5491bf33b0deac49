import Mathlib.Data.List.Nodup
import Mathlib.Data.Int.Notation
import Mathlib.Algebra.Order.Ring.Int
import Kronos.Lib.Transition

/-!
# One lane of the in-memory dead letter queue

A lane of `inMemoryDeadLetterQueue` between the live deliveries that park into
it and the walks that replay it, bare or wrapped in `deadLetterBackoff`. Events
of the lane are numbered in log order. A letter is an object: requeueing makes a
new one, and eviction and requeueing look the old one up by identity.

Live delivery parks behind letters that are there; otherwise it runs the
handlers and parks on failure. A walk takes a snapshot of the lane and replays it
letter by letter, each in a unit of work that commits, after which the letter is
evicted, or rolls back, after which it is requeued and the walk ends. What the
handlers, the policy and the clock answer comes with the action.

The eviction is an action for after the commit, registered when the handlers are
done. One of theirs stands before it: if that throws, the unit of work has
committed, the eviction is skipped and `process` rejects with the letter in the
lane. An action registered in a later phase stands behind it.

Other lanes have arrays and keys of their own. A lane or a queue that is full
and a policy that throws fail the batch of the delivery, and are left out; so are
causes and times of touch, which only decide which lane is walked. `retryNow`
reads the head and requeues it in one go, from the lane's array it got hold of
before: an array that was dropped meanwhile is empty and the call does nothing.
-/
namespace Kronos.Processing.DeadLetterQueue
open Kronos.Lib.Transition

inductive RetryAt where
  | null
  | hold
  | time (t : ℤ)
  deriving DecidableEq, Repr

structure BackoffState where
  attempts : ℕ
  retryAt : RetryAt
  deriving DecidableEq, Repr

/-- What a policy answers. -/
inductive Delay where
  | hold
  | ms (delay : ℤ)
  deriving DecidableEq, Repr

def stamp (attempts : ℕ) (delay : Delay) (now : ℤ) : BackoffState :=
  ⟨attempts, match delay with
    | .hold => .hold
    | .ms delay => .time (now + max 0 delay)⟩

structure DeadLetter where
  object : ℕ
  event : ℕ
  backoff : Option BackoffState
  deriving DecidableEq, Repr

namespace DeadLetter
variable (letter : DeadLetter)

def attempts : ℕ :=
  match letter.backoff with
  | some backoff => backoff.attempts
  | none => 0

def isDue (now : ℤ) : Bool :=
  match letter.backoff with
  | none => true
  | some backoff =>
      match backoff.retryAt with
      | .null => true
      | .hold => false
      | .time t => decide (t ≤ now)

end DeadLetter

/-- `evict`: the letter is looked up by identity. -/
def evict (letters : List DeadLetter) (letter : DeadLetter) : List DeadLetter :=
  letters.eraseP fun l => decide (l.object = letter.object)

/-- `requeue`: the updated letter goes to the front, unless the lane is gone. -/
def requeue (letters : List DeadLetter) (letter updated : DeadLetter) : List DeadLetter :=
  if letters.isEmpty then [] else updated::evict letters letter

/-- Where the replay of the first letter of a walk stands. -/
inductive Stage where
  | replaying
  | replayed
  | committed
  | failed (backoff : Option BackoffState)
  | evicted
  deriving DecidableEq, Repr

structure Walk where
  todo : List DeadLetter
  stage : Stage
  deriving DecidableEq, Repr

structure Lane where
  now : ℤ
  /-- How many letters were ever made. -/
  objects : ℕ
  letters : List DeadLetter
  processing : Bool
  walks : List Walk
  /-- The handlers of the next event are running. -/
  handling : Bool
  delivered : ℕ
  /-- The events whose handlers are done, those of a walk once it committed. -/
  completed : List ℕ
  failures : ℕ → ℕ

def initial : Lane := ⟨0, 0, [], false, [], false, 0, [], fun _ => 0⟩

inductive Action where
  | clock (now : ℤ)
  | deliver
  | handled
  | handlerFails (delay : Delay)
  | process
  | replay (i : ℕ)
  | replayFails (i : ℕ) (delay : Delay)
  | policyThrows (i : ℕ)
  | commit (i : ℕ)
  | commitFails (i : ℕ)
  | afterCommitThrows (i : ℕ)
  | evict (i : ℕ)
  | requeue (i : ℕ)
  | proceed (i : ℕ)
  | retryNow
  deriving DecidableEq, Repr

namespace Lane
variable (s : Lane)

def park (backoff : Option BackoffState) : Lane :=
  { s with
    letters := s.letters ++ [⟨s.objects, s.delivered, backoff⟩]
    objects := s.objects + 1
    delivered := s.delivered + 1 }

def fail (event : ℕ) : Lane :=
  { s with failures := fun e => if e = event then s.failures e + 1 else s.failures e }

def requeueAs (letter : DeadLetter) (backoff : Option BackoffState) : Lane :=
  { s with
    letters := requeue s.letters letter ⟨s.objects, letter.event, backoff⟩
    objects := s.objects + 1 }

def setWalk (i : ℕ) (walk : Walk) : Lane := { s with walks := s.walks.set i walk }

/-- The `finally` of `process`. -/
def endWalk (i : ℕ) : Lane := { s with walks := s.walks.eraseIdx i, processing := false }

end Lane

/-- One step of the lane; `wrapped` says that the queue is wrapped in `deadLetterBackoff`. -/
def step (wrapped : Bool) (s : Lane) : Action → Option Lane
  | .clock now => some { s with now := now }
  | .deliver =>
      if s.handling then none
      else if s.letters.isEmpty then some { s with handling := true }
      else some (s.park none)
  | .handled =>
      if s.handling then
        some { s with
          handling := false
          delivered := s.delivered + 1
          completed := s.completed ++ [s.delivered] }
      else none
  | .handlerFails delay =>
      if s.handling then
        let parked :=
          (s.fail s.delivered).park (if wrapped then some (stamp 1 delay s.now) else none)
        some { parked with handling := false }
      else none
  | .process =>
      match s.letters with
      | [] => none
      | head::_ =>
          if s.processing || (wrapped && !head.isDue s.now) then none
          else some { s with processing := true, walks := s.walks ++ [⟨s.letters, .replaying⟩] }
  | .replay i =>
      match s.walks[i]? with
      | some ⟨letter::todo, .replaying⟩ => some (s.setWalk i ⟨letter::todo, .replayed⟩)
      | _ => none
  | .replayFails i delay =>
      match s.walks[i]? with
      | some ⟨letter::todo, .replaying⟩ =>
          let backoff := if wrapped then some (stamp (letter.attempts + 1) delay s.now) else none
          some ((s.fail letter.event).setWalk i ⟨letter::todo, .failed backoff⟩)
      | _ => none
  -- The failure gets no stamp: `process` rejects and the letter stays as it is.
  | .policyThrows i =>
      if wrapped then
        match s.walks[i]? with
        | some ⟨letter::_, .replaying⟩ => some ((s.fail letter.event).endWalk i)
        | _ => none
      else none
  | .commit i =>
      match s.walks[i]? with
      | some ⟨letter::todo, .replayed⟩ =>
          some { s.setWalk i ⟨letter::todo, .committed⟩ with
            completed := s.completed ++ [letter.event] }
      | _ => none
  | .commitFails i =>
      match s.walks[i]? with
      | some ⟨_::_, .replayed⟩ => some (s.endWalk i)
      | _ => none
  | .afterCommitThrows i =>
      match s.walks[i]? with
      -- The eviction is behind the action that threw and never runs.
      | some ⟨_::_, .committed⟩ => some (s.endWalk i)
      | some ⟨_, .evicted⟩ => some (s.endWalk i)
      | _ => none
  | .evict i =>
      match s.walks[i]? with
      | some ⟨letter::todo, .committed⟩ =>
          some { s.setWalk i ⟨todo, .evicted⟩ with letters := evict s.letters letter }
      | _ => none
  | .requeue i =>
      match s.walks[i]? with
      | some ⟨letter::_, .failed backoff⟩ =>
          some ((s.requeueAs letter (backoff.or letter.backoff)).endWalk i)
      | _ => none
  | .proceed i =>
      match s.walks[i]? with
      | some ⟨[], .evicted⟩ => some (s.endWalk i)
      | some ⟨letter::todo, .evicted⟩ => some (s.setWalk i ⟨letter::todo, .replaying⟩)
      | _ => none
  | .retryNow =>
      if wrapped then
        match s.letters with
        | [] => some s
        | head::_ => some (s.requeueAs head (some ⟨head.attempts, .null⟩))
      else none

namespace Lane
variable (s : Lane)

/-- The letters a committed replay is about to evict. -/
def settling : List DeadLetter :=
  s.walks.filterMap fun walk =>
    match walk with
    | ⟨letter::_, .committed⟩ => some letter
    | _ => none

/-- The letters a failed replay is about to requeue. -/
def failing : List DeadLetter :=
  s.walks.filterMap fun walk =>
    match walk with
    | ⟨letter::_, .failed _⟩ => some letter
    | _ => none

/-- The parked letters, without those whose committed replay is about to evict them. -/
def parked : List DeadLetter := s.settling.foldl DeadLetterQueue.evict s.letters

end Lane

/-- A head is made due only while no walk is still to replay it. -/
def undisturbed (s : Lane) : Action → Bool
  | .retryNow => s.walks.all fun walk => walk.todo.all fun letter =>
      s.letters.head?.all fun head => decide (letter.object ≠ head.object)
  | _ => true

/-- No action of a replayed handler for after the commit throws before its letter
is evicted. -/
def settles (s : Lane) : Action → Bool
  | .afterCommitThrows i => s.walks[i]?.all fun walk => decide (walk.stage ≠ .committed)
  | _ => true

/-- The policy has an answer to every failure of a replay. -/
def policyAnswers : Action → Bool
  | .policyThrows _ => false
  | _ => true

end Kronos.Processing.DeadLetterQueue
