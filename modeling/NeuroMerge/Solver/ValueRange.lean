import NeuroMerge.Solver.ConstantDivision
import NeuroMerge.Symbolic.Expr

/-!
# Value ranges

The intervals of 64-bit words that `FastCexSolver` calculates with. An operation
fails where the code asserts, shifts by the width of a word or does not end.
-/

namespace NeuroMerge.FastCex

open Symbolic ConstantDivision

inductive Fault where
  | emptyRange
  | outsideBits
  | tooWide
  | undefinedShift
  | endlessLoop
  | unexpectedWidth
  | uncanonicalized
  | contradiction
  | outOfBounds
  deriving DecidableEq, Repr

def check (condition : Prop) [Decidable condition] (fault : Fault) : Except Fault Unit :=
  if condition then pure () else throw fault

/-! ## Words -/

/-- The loop of `minOR` from bit `k - 1` down. -/
def minORLoop (a b c d : BitVec 64) : Nat → BitVec 64
  | 0 => a ||| c
  | k + 1 =>
    let m := 1#64 <<< k
    if ~~~a &&& c &&& m ≠ 0#64 then
      let temp := (a ||| m) &&& -m
      if temp ≤ b then temp ||| c else minORLoop a b c d k
    else if a &&& ~~~c &&& m ≠ 0#64 then
      let temp := (c ||| m) &&& -m
      if temp ≤ d then a ||| temp else minORLoop a b c d k
    else minORLoop a b c d k

def minOR (a b c d : BitVec 64) : BitVec 64 := minORLoop a b c d 64

def maxORLoop (a b c d : BitVec 64) : Nat → BitVec 64
  | 0 => b ||| d
  | k + 1 =>
    let m := 1#64 <<< k
    if b &&& d &&& m ≠ 0#64 then
      let temp := (b - m) ||| (m - 1#64)
      if a ≤ temp then temp ||| d
      else
        let temp := (d - m) ||| (m - 1#64)
        if c ≤ temp then b ||| temp else maxORLoop a b c d k
    else maxORLoop a b c d k

def maxOR (a b c d : BitVec 64) : BitVec 64 := maxORLoop a b c d 64

def minANDLoop (a b c d : BitVec 64) : Nat → BitVec 64
  | 0 => a &&& c
  | k + 1 =>
    let m := 1#64 <<< k
    if ~~~a &&& ~~~c &&& m ≠ 0#64 then
      let temp := (a ||| m) &&& -m
      if temp ≤ b then temp &&& c
      else
        let temp := (c ||| m) &&& -m
        if temp ≤ d then a &&& temp else minANDLoop a b c d k
    else minANDLoop a b c d k

def minAND (a b c d : BitVec 64) : BitVec 64 := minANDLoop a b c d 64

def maxANDLoop (a b c d : BitVec 64) : Nat → BitVec 64
  | 0 => b &&& d
  | k + 1 =>
    let m := 1#64 <<< k
    if b &&& ~~~d &&& m ≠ 0#64 then
      let temp := (b &&& ~~~m) ||| (m - 1#64)
      if a ≤ temp then temp &&& d else maxANDLoop a b c d k
    else if ~~~b &&& d &&& m ≠ 0#64 then
      let temp := (d &&& ~~~m) ||| (m - 1#64)
      if c ≤ temp then b &&& temp else maxANDLoop a b c d k
    else maxANDLoop a b c d k

def maxAND (a b c d : BitVec 64) : BitVec 64 := maxANDLoop a b c d 64

def withoutRightmostBit (x : BitVec 64) : BitVec 64 := x &&& (x - 1#64)

def lastWord (n : Nat) : BitVec 64 := if n = 0 then 0#64 else BitVec.allOnes 64 >>> (64 - n)

/-- `bits64::maxValueOfNBits` -/
def maxValueOfNBits (n : Nat) : Except Fault (BitVec 64) := do
  check (n ≤ 64) .tooWide
  pure (lastWord n)

def sext (l : BitVec 64) (outWidth inWidth : Nat) : BitVec 64 :=
  Bits64.truncateToNBits ((l <<< (64 - inWidth)).sshiftRight (64 - inWidth)) outWidth

def stdMin (a b : BitVec 64) : BitVec 64 := if b < a then b else a

def stdMax (a b : BitVec 64) : BitVec 64 := if a < b then b else a

/-! ## Ranges -/

structure ValueRange where
  mMin : BitVec 64
  mMax : BitVec 64
  deriving DecidableEq, Repr

namespace ValueRange

def empty : ValueRange := ⟨1#64, 0#64⟩

def single (value : BitVec 64) : ValueRange := ⟨value, value⟩

/-- The range of `ce->getLimitedValue()`. -/
def ofConstant (ce : ConstantExpr) : ValueRange :=
  single (if ce.value.toNat < 2 ^ 64 then ce.value.setWidth 64 else BitVec.allOnes 64)

def isEmpty (r : ValueRange) : Bool := r.mMax < r.mMin

def setIntersection (r b : ValueRange) : ValueRange :=
  ⟨stdMax r.mMin b.mMin, stdMin r.mMax b.mMax⟩

def setUnion (r b : ValueRange) : ValueRange := ⟨stdMin r.mMin b.mMin, stdMax r.mMax b.mMax⟩

def intersects (r b : ValueRange) : Bool := !(r.setIntersection b).isEmpty

def contains (r : ValueRange) (value : BitVec 64) : Bool := r.intersects (single value)

def isFullRange (r : ValueRange) (bits : Nat) : Except Fault Bool := do
  pure (r.mMin = 0#64 ∧ r.mMax = (← maxValueOfNBits bits))

def isFixed (r : ValueRange) : Bool := r.mMin = r.mMax

def binaryAnd (r b : ValueRange) : Except Fault ValueRange := do
  check (¬ r.isEmpty ∧ ¬ b.isEmpty) .emptyRange
  if r.isFixed ∧ b.isFixed then pure (single (r.mMin &&& b.mMin))
  else
    pure ⟨minAND r.mMin r.mMax b.mMin b.mMax, maxAND r.mMin r.mMax b.mMin b.mMax⟩

def binaryOr (r b : ValueRange) : Except Fault ValueRange := do
  check (¬ r.isEmpty ∧ ¬ b.isEmpty) .emptyRange
  if r.isFixed ∧ b.isFixed then pure (single (r.mMin ||| b.mMin))
  else
    pure ⟨minOR r.mMin r.mMax b.mMin b.mMax, maxOR r.mMin r.mMax b.mMin b.mMax⟩

theorem withoutRightmostBit_lt {t : BitVec 64} (positive : t ≠ 0#64) : (withoutRightmostBit t).toNat < t.toNat := by
  have less : (t - 1#64).toNat < t.toNat := by bv_omega
  have below : (withoutRightmostBit t).toNat ≤ (t - 1#64).toNat := by
    unfold withoutRightmostBit
    exact Nat.and_le_right
  exact Nat.lt_of_le_of_lt below less

/-- The loop of `binaryXor`, which never leaves zero. -/
def leadingBit (t : BitVec 64) : Except Fault (BitVec 64) :=
  if t = 0#64 then throw .endlessLoop
  else if Bits64.isPowerOfTwo t then pure t
  else leadingBit (withoutRightmostBit t)
termination_by t.toNat
decreasing_by exact withoutRightmostBit_lt ‹_›

def binaryXor (r b : ValueRange) : Except Fault ValueRange := do
  if r.isFixed ∧ b.isFixed then pure (single (r.mMin ^^^ b.mMin))
  else
    let t ← leadingBit (r.mMax ||| b.mMax)
    pure ⟨0#64, (t <<< 1) - 1#64⟩

def binaryShiftLeft (r : ValueRange) (bits : Nat) : Except Fault ValueRange := do
  check (bits < 64) .undefinedShift
  pure ⟨r.mMin <<< bits, r.mMax <<< bits⟩

def concat (r b : ValueRange) (bits : Nat) : Except Fault ValueRange := do
  (← r.binaryShiftLeft bits).binaryOr b

/-- What the arithmetic operations know of their result. -/
def fullRange (width : Nat) : Except Fault ValueRange := do
  pure ⟨0#64, ← maxValueOfNBits width⟩

def add (_ _ : ValueRange) (width : Nat) : Except Fault ValueRange := fullRange width
def sub (_ _ : ValueRange) (width : Nat) : Except Fault ValueRange := fullRange width
def mul (_ _ : ValueRange) (width : Nat) : Except Fault ValueRange := fullRange width
def udiv (_ _ : ValueRange) (width : Nat) : Except Fault ValueRange := fullRange width
def sdiv (_ _ : ValueRange) (width : Nat) : Except Fault ValueRange := fullRange width
def urem (_ _ : ValueRange) (width : Nat) : Except Fault ValueRange := fullRange width
def srem (_ _ : ValueRange) (width : Nat) : Except Fault ValueRange := fullRange width

/-- `mustEqual` of a number. -/
def mustBe (r : ValueRange) (b : BitVec 64) : Bool := r.mMin = r.mMax ∧ r.mMin = b

def mustEqual (r b : ValueRange) : Bool := r.isFixed ∧ b.isFixed ∧ r.mMin = b.mMin

def mayEqual (r b : ValueRange) : Bool := r.intersects b

def min (r : ValueRange) : Except Fault (BitVec 64) := do
  check (¬ r.isEmpty) .emptyRange
  pure r.mMin

def max (r : ValueRange) : Except Fault (BitVec 64) := do
  check (¬ r.isEmpty) .emptyRange
  pure r.mMax

/-- The assertion of `minSigned` and `maxSigned`, whose shift is by `bits`. -/
def withinBits (r : ValueRange) (bits : Nat) : Except Fault Unit := do
  check (0 < bits ∧ bits < 64) .undefinedShift
  check (r.mMin >>> bits = 0#64 ∧ r.mMax >>> bits = 0#64) .outsideBits

def minSigned (r : ValueRange) (bits : Nat) : Except Fault (BitVec 64) := do
  r.withinBits bits
  let smallest := 1#64 <<< (bits - 1)
  pure (if smallest ≤ r.mMax then sext smallest 64 bits else r.mMin)

def maxSigned (r : ValueRange) (bits : Nat) : Except Fault (BitVec 64) := do
  r.withinBits bits
  let smallest := 1#64 <<< (bits - 1)
  pure (if r.mMin < smallest ∧ smallest ≤ r.mMax then smallest - 1#64 else sext r.mMax 64 bits)

end ValueRange

end NeuroMerge.FastCex
