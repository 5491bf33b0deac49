import Mathlib.Order.MinMax
import Kronos.Processing.Segment

/-!
# Tracking tokens

How far a processor has read. A token is a bare position, a position paired
with the store's own commit-order key, a replay wrapper, or the pair of halves
a merged segment still has to bring together. The commit-order key is opaque to
everything but the store that minted it, so its type `K` is a parameter.

Positions are natural numbers: the log starts at zero and every position handed
to a token is a position of the log or one past it. The `latest` sentinel and
the two bounds (`lowerBound`, `upperBound`) have no caller in the processor and
are left out.
-/
namespace Kronos.Processing

inductive TrackingToken (K : Type) where
  | globalSequence (sequence : ℕ)
  | gapAware (sequence : ℕ) (gapKey : K)
  | replay (tokenAtReset currentToken : TrackingToken K)
  /-- `merged mask a ta b tb`: the halves are segment `a` at `ta` and segment `b` at `tb`. -/
  | merged (mask : ℕ) (a : ℕ) (ta : TrackingToken K) (b : ℕ) (tb : TrackingToken K)
  deriving DecidableEq, Repr

namespace TrackingToken
variable {K : Type}

/-- The effective read position. A merged token reads from the half that is behind. -/
def position : TrackingToken K → ℕ
  | globalSequence sequence => sequence
  | gapAware sequence _ => sequence
  | replay _ currentToken => currentToken.position
  | merged _ _ ta _ tb => if ta.position ≤ tb.position then ta.position else tb.position

/-- Every token compares by bare position, whatever else it carries. -/
def covers (token other : TrackingToken K) : Bool := decide (other.position ≤ token.position)

def samePositionAs (token other : TrackingToken K) : Bool :=
  decide (token.position = other.position)

def isReplayToken : TrackingToken K → Bool
  | replay _ _ => true
  | _ => false

def isMergedToken : TrackingToken K → Bool
  | merged _ _ _ _ _ => true
  | _ => false

/-- The innermost non-replay token. -/
def unwrapToken : TrackingToken K → TrackingToken K
  | replay _ currentToken => currentToken.unwrapToken
  | token => token

end TrackingToken

open TrackingToken
variable {K : Type}

/-- Two halves at the same place are a plain token again. -/
def mergedToken (mask : ℕ) (a : ℕ) (ta : TrackingToken K) (b : ℕ) (tb : TrackingToken K) :
    TrackingToken K :=
  if ta.samePositionAs tb then ta else merged mask a ta b tb

/-- Whether the half of a merged token this sequence hash belongs to has already
handled the event ending at `past`. -/
def handledByMergedHalf (token : TrackingToken K) (hash : ℕ) (past : TrackingToken K) : Bool :=
  match token with
  | merged mask a ta b tb =>
      if jsAnd hash mask = a then ta.covers past
      else if jsAnd hash mask = b then tb.covers past
      else false
  | _ => false

/-- The furthest a token had got. -/
def reachedBy : TrackingToken K → TrackingToken K
  | replay tokenAtReset _ => tokenAtReset
  | merged _ _ ta _ tb => if tb.position ≤ ta.position then ta else tb
  | token => token

/-- Move a token to `next`, keeping its wrapping: each half that `next` is past
moves there, and a replay ends once `next` covers where it was reset. -/
def advanceTokenTo (token next : TrackingToken K) : TrackingToken K :=
  match token with
  | merged mask a ta b tb =>
      mergedToken mask a (if ta.covers next then ta else next) b
        (if tb.covers next then tb else next)
  | replay tokenAtReset _ =>
      if next.covers tokenAtReset then next else replay tokenAtReset next
  | _ => next

/-- What `resetTokens` stores for a segment: a replay up to where the segment had
got to, unless it never ran or is reset to there or past it. -/
def resetToken (stored : Option (TrackingToken K)) (startPosition : ℕ) : TrackingToken K :=
  let start := globalSequence startPosition
  match stored.map reachedBy with
  | some reached => if start.covers reached then start else replay reached start
  | none => start

@[simp] theorem position_globalSequence (n : ℕ) :
    (globalSequence n : TrackingToken K).position = n := rfl

@[simp] theorem position_gapAware (n : ℕ) (k : K) : (gapAware n k).position = n := rfl

theorem position_merged (mask a b : ℕ) (ta tb : TrackingToken K) :
    (merged mask a ta b tb).position = min ta.position tb.position := by
  simp only [position, Nat.min_def]

theorem covers_iff {t o : TrackingToken K} : t.covers o = true ↔ o.position ≤ t.position := by
  simp [covers]

@[simp] theorem covers_globalSequence (n m : ℕ) :
    (globalSequence n : TrackingToken K).covers (globalSequence m) = decide (m ≤ n) := rfl

theorem samePositionAs_iff {t o : TrackingToken K} :
    t.samePositionAs o = true ↔ t.position = o.position := by
  simp [samePositionAs]

theorem mergedToken_position (mask a b : ℕ) (ta tb : TrackingToken K) :
    (mergedToken mask a ta b tb).position = min ta.position tb.position := by
  unfold mergedToken
  split_ifs with h
  · have hsame := samePositionAs_iff.mp h
    omega
  · exact position_merged mask a b ta tb

/-- Advancing to a plain token puts the read position at `next`, or leaves it
where the half that was already past `next` is. -/
theorem advanceTokenTo_position_ge (token next : TrackingToken K) :
    next.position ≤ (advanceTokenTo token next).position := by
  cases token with
  | globalSequence n => exact le_rfl
  | gapAware n k => exact le_rfl
  | replay r c =>
      simp only [advanceTokenTo]
      split_ifs
      · exact le_rfl
      · exact le_rfl
  | merged mask a ta b tb =>
      simp only [advanceTokenTo, mergedToken_position, le_min_iff]
      constructor
      · split_ifs with h
        · exact covers_iff.mp h
        · exact le_rfl
      · split_ifs with h
        · exact covers_iff.mp h
        · exact le_rfl

end Kronos.Processing
