import Mathlib.Data.Prod.Lex
import NeuroMerge.Execution.Fork
import NeuroMerge.Symbolic.Comparison

/-!
# The switch instruction

`Executor::executeInstruction` for a switch whose condition is not known: the
conditions on which it forks, each with the block that it leads to.
-/

namespace NeuroMerge.Execution

open Symbolic

/-- Blocks are numbers. -/
structure SwitchInst (w : Nat) where
  cases : List (BitVec w × Nat)
  defaultDest : Nat

/-- `getSuccessor` of `findCaseValue`, as LLVM defines the instruction. -/
def SwitchInst.findCaseValue {w : Nat} (si : SwitchInst w) (value : BitVec w) : Nat :=
  (si.cases.lookup value).getD si.defaultDest

/-- Constants of one width are ordered by their hashes and then by their values. -/
def constantRank {w : Nat} (hash_value : ConstantExpr → BitVec 64) (value : BitVec w) :
    Lex (Nat × Nat) :=
  toLex (((Expr.constant ⟨w, value⟩).hash hash_value).toNat, value.toNat)

def SwitchInst.expressionOrder {w : Nat} (hash_value : ConstantExpr → BitVec 64)
    (si : SwitchInst w) : List (BitVec w × Nat) :=
  si.cases.foldl (ImmutableMap.insert (constantRank hash_value)) []

/-- What the loop over the cases has made. The targets are in the order in which they
were found, which is `bbOrder`. -/
structure SwitchBranches where
  defaultValue : Expr
  branchTargets : List (Nat × Expr)

def setTarget (bb : Nat) (condition : Expr) : List (Nat × Expr) → List (Nat × Expr)
  | [] => [(bb, condition)]
  | target :: targets =>
    if target.1 = bb then (bb, condition) :: targets
    else target :: setTarget bb condition targets

namespace Executor

-- `optimizeExpr` is `optimizer.optimizeExpr`
variable (o : Options) (simplifyExprs : Bool) (solver : Solver)
  (optimizeExpr : Expr → Bool → Expr) (fuel : Nat) (constraints : List Expr)

def toUnique (e : Expr) : Except Fault Expr :=
  match e.constant? with
  | some _ => pure e
  | none => do
    let optimized := optimizeExpr e true
    match ← TimingSolver.getValue o simplifyExprs solver fuel constraints optimized with
    | none => pure e
    | some value => do
      let cond ← EqExpr.create o fuel optimized (.constant value)
      let cond := optimizeExpr cond false
      match ← TimingSolver.mustBeTrue o simplifyExprs solver fuel constraints cond with
      | some true => pure (.constant value)
      | _ => pure e

variable {w : Nat} (si : SwitchInst w) (cond : Expr)

def switchCase (branches : SwitchBranches) (value : BitVec w) (successor : Nat) :
    Except Fault SwitchBranches := do
  let matched ← EqExpr.create o fuel cond (.constant ⟨w, value⟩)
  if successor = si.defaultDest then pure branches
  else do
    let isZero ← createIsZero o fuel matched
    let defaultValue ← AndExpr.create branches.defaultValue isZero
    let matched := optimizeExpr matched false
    match ← TimingSolver.mayBeTrue o simplifyExprs solver fuel constraints matched with
    | none => throw (.assertion .solverFailure)
    | some false => pure { branches with defaultValue }
    | some true => do
      let previous := (branches.branchTargets.lookup successor).getD (.constant (.alloc 0 1))
      let merged ← OrExpr.create matched previous
      pure { defaultValue, branchTargets := setTarget successor merged branches.branchTargets }

def switchConditions (hash_value : ConstantExpr → BitVec 64) :
    Except Fault (List (Nat × Expr)) := do
  let branches ← (si.expressionOrder hash_value).foldlM
    (fun branches (value, successor) =>
      switchCase o simplifyExprs solver optimizeExpr fuel constraints si cond branches value
        successor)
    ⟨.constant (.alloc 1 1), []⟩
  let defaultValue := optimizeExpr branches.defaultValue false
  match ← TimingSolver.mayBeTrue o simplifyExprs solver fuel constraints defaultValue with
  | none => throw (.assertion .solverFailure)
  | some true =>
    match branches.branchTargets.lookup si.defaultDest with
    | some _ => pure branches.branchTargets
    | none => pure (branches.branchTargets ++ [(si.defaultDest, defaultValue)])
  | some false => pure branches.branchTargets

/-- The switch: the block to which a known condition leads, or the conditions on which
the state branches. -/
def executeSwitch (hash_value : ConstantExpr → BitVec 64) :
    Except Fault (Nat ⊕ List (Nat × Expr)) := do
  let cond ← toUnique o simplifyExprs solver optimizeExpr fuel constraints cond
  match cond.constant? with
  | some ce => do
    require (ce.width ≤ 64) .indexTooLarge
    pure (.inl (si.findCaseValue (BitVec.ofNat w ce.value.toNat)))
  | none =>
    .inr <$> switchConditions o simplifyExprs solver optimizeExpr fuel constraints si cond
      hash_value

end Executor

end NeuroMerge.Execution
