import NeuroMerge.Solver.ValueRange

/-!
# Range evaluator

`ExprRangeEvaluator`: a range for an expression from ranges for the initial
values of the arrays.
-/

namespace NeuroMerge.FastCex

open Symbolic

/-- `getInitialReadRange`, which each evaluator has its own. -/
abbrev InitialReadRange := Array → ValueRange → Except Fault ValueRange

/-- The answer of a comparison: certain, impossible or open. -/
def comparisonRange (certain impossible : Bool) : Except Fault ValueRange :=
  if certain then pure (.single 1#64)
  else if impossible then pure (.single 0#64)
  else ValueRange.fullRange 1

def compareRanges (kind : CmpKind) (left right : ValueRange) (bits : Nat) :
    Except Fault ValueRange := do
  match kind with
  | .eq => comparisonRange (left.mustEqual right) (!left.mayEqual right)
  | .ult =>
    comparisonRange ((← left.max) < (← right.min)) ((← right.max) ≤ (← left.min))
  | .ule =>
    comparisonRange ((← left.max) ≤ (← right.min)) ((← right.max) < (← left.min))
  | .slt =>
    comparisonRange ((← left.maxSigned bits).slt (← right.minSigned bits))
      ((← right.maxSigned bits).sle (← left.minSigned bits))
  | .sle =>
    comparisonRange ((← left.maxSigned bits).sle (← right.minSigned bits))
      ((← right.maxSigned bits).slt (← left.minSigned bits))
  | .ne | .ugt | .uge | .sgt | .sge => throw .uncanonicalized

/-- An arithmetic or bitwise operation on ranges; shifts are not looked into. -/
def combineRanges (kind : BinaryKind) (left right : ValueRange) (width : Nat) :
    Except Fault ValueRange :=
  match kind with
  | .add => left.add right width
  | .sub => left.sub right width
  | .mul => left.mul right width
  | .udiv => left.udiv right width
  | .sdiv => left.sdiv right width
  | .urem => left.urem right width
  | .srem => left.srem right width
  | .and => left.binaryAnd right
  | .or => left.binaryOr right
  | .xor => left.binaryXor right
  | .shl | .lshr | .ashr => ValueRange.fullRange width

def isShift : BinaryKind → Bool
  | .shl | .lshr | .ashr => true
  | _ => false

mutual

def evaluate (initial : InitialReadRange) : Expr → Except Fault ValueRange
  | .constant value => pure (.ofConstant value)
  | .notOptimized src => ValueRange.fullRange src.width
  | .read root head index => do
    evalRead initial root head (← evaluate initial index) .empty
  | .select cond trueExpr falseExpr => do
    let cond ← evaluate initial cond
    if cond.mustBe 1#64 then evaluate initial trueExpr
    else if cond.mustBe 0#64 then evaluate initial falseExpr
    else pure ((← evaluate initial trueExpr).setUnion (← evaluate initial falseExpr))
  | .concat left right => do
    let res ← (ValueRange.single 0#64).concat (← evaluate initial left) 8
    res.concat (← evaluate initial right) 8
  | .extract _ _ width => ValueRange.fullRange width
  | .not expr => ValueRange.fullRange expr.width
  | .zext _ width => ValueRange.fullRange width
  | .sext _ width => ValueRange.fullRange width
  | .binary kind left right => do
    if isShift kind then ValueRange.fullRange left.width
    else combineRanges kind (← evaluate initial left) (← evaluate initial right) left.width
  | .cmp kind left right => do
    compareRanges kind (← evaluate initial left) (← evaluate initial right) left.width

def evalRead (initial : InitialReadRange) (root : Array) :
    UpdateNode → ValueRange → ValueRange → Except Fault ValueRange
  | .null, index, res => do pure (res.setUnion (← initial root index))
  | .node position value next, index, res => do
    let ui ← evaluate initial position
    if ui.mustEqual index then pure (res.setUnion (← evaluate initial value))
    else if ui.mayEqual index then
      let res := res.setUnion (← evaluate initial value)
      if ← res.isFullRange 8 then pure res else evalRead initial root next index res
    else evalRead initial root next index res

end

/-- `CexRangeEvaluator::getInitialReadRange`; the ranges propagated so far are not consulted. -/
def getInitialReadRange : InitialReadRange := fun array index => do
  if array.isConstantArray ∧ index.isFixed then
    if (← index.min).toNat < array.size then
      check (array.range ≤ 8) .unexpectedWidth
      return .single ((array.constantValues[index.mMin.toNat]?.getD 0).setWidth 64)
  return ⟨0#64, 255#64⟩

end NeuroMerge.FastCex
