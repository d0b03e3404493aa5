import NeuroMerge.Execution.State

/-!
# Forking

`Executor::fork` splits a state at a condition, `Executor::branch` at any number
of conditions. Seeds are left out.
-/

namespace NeuroMerge.Execution

open Symbolic

/-- What the command line and the surroundings of a fork decide. `staticLimit` is
whether one of the limits on the share of an instruction or a call path in the
forks and the solver time is exceeded, `atMemoryLimit` whether the memory cap
inhibits forking, `random` what the random number generator gives next. -/
structure ForkOptions where
  simplifyExprs : Bool
  staticLimit : Bool
  atMemoryLimit : Bool
  inhibitForking : Bool
  maxForks : Option Nat
  maxDepth : Nat
  replayPath : Option (List Bool)
  replayKTest : Bool
  random : Nat → Nat

inductive TerminateReason where
  | early (message : String)
  | ptr (message : String)
  | readOnly (message : String)
  | free (message : String)
  | model (message : String)
  | user (message : String)
  deriving DecidableEq, Repr

/-- What the functions of the executor share. The terminated states are kept with
the reason. -/
structure Executor where
  heap : Memory.Heap
  arrays : Nat
  forks : Nat
  replayPosition : Nat
  terminated : List (ExecutionState × TerminateReason)

namespace Executor

variable (o : Options) (options : ForkOptions) (solver : Solver) (fuel : Nat)

def terminate (executor : Executor) (state : ExecutionState) (reason : TerminateReason) :
    Executor :=
  { executor with terminated := executor.terminated ++ [(state, reason)] }

def addConstraint (state : ExecutionState) (condition : Expr) : Except Fault ExecutionState :=
  match condition.constant? with
  | some ce => do
    require (ce.isTrue = true) .invalidConstraint
    pure state
  | none => do
    let constraints ← ConstraintManager.addConstraint o fuel state.constraints condition
    pure { state with constraints := constraints }

/-- A state that exceeds one of the static limits is continued with one value of the
condition only. -/
def concretize (state : ExecutionState) (condition : Expr) :
    Except Fault (ExecutionState × Expr) :=
  if options.staticLimit = true ∧ condition.constant? = none then do
    match ← TimingSolver.getValue o options.simplifyExprs solver fuel state.constraints condition with
    | none => throw (.assertion .solverFailure)
    | some value => do
      let equality ← EqExpr.create o fuel (.constant value) condition
      let state ← addConstraint o fuel state equality
      pure (state, .constant value)
  else pure (state, condition)

def commit (executor : Executor) (state : ExecutionState) (condition : Expr) (branch : Bool) :
    Except Fault (Executor × ExecutionState × Validity) :=
  if branch then do
    let state ← addConstraint o fuel state condition
    pure (executor, state, .isTrue)
  else do
    let isZero ← createIsZero o fuel condition
    let state ← addConstraint o fuel state isZero
    pure (executor, state, .isFalse)

/-- What a recorded path or a limit makes of the answer of the solver. -/
def restrict (executor : Executor) (state : ExecutionState) (condition : Expr) (isInternal : Bool)
    (res : Validity) : Except Fault (Executor × ExecutionState × Validity) :=
  match options.replayPath, isInternal with
  | some path, false =>
    match path[executor.replayPosition]? with
    | none => throw (.assertion .replayExhausted)
    | some branch => do
      let executor := { executor with replayPosition := executor.replayPosition + 1 }
      match res with
      | .isTrue => do
        require (branch = true) .replayDiverged
        pure (executor, state, .isTrue)
      | .isFalse => do
        require (branch = false) .replayDiverged
        pure (executor, state, .isFalse)
      | .unknown => commit o fuel executor state condition branch
  | _, _ =>
    if res = .unknown then do
      require (options.replayKTest = false) .forkInReplay
      if options.atMemoryLimit = true ∨ state.forkDisabled = true ∨ options.inhibitForking = true ∨
          (∃ limit ∈ options.maxForks, limit ≤ executor.forks) then
        commit o fuel executor state condition (options.random 0 % 2 = 1)
      else pure (executor, state, res)
    else pure (executor, state, res)

/-- The states in which the condition is true and in which it is false. -/
def fork (executor : Executor) (current : ExecutionState) (condition : Expr) (isInternal : Bool) :
    Except Fault (Executor × Option ExecutionState × Option ExecutionState) := do
  let (current, condition) ← concretize o options solver fuel current condition
  match ← TimingSolver.evaluate o options.simplifyExprs solver fuel current.constraints condition with
  | none =>
    let current := { current with pc := current.prevPC }
    pure (executor.terminate current (.early "Query timed out (fork)."), none, none)
  | some res => do
    let (executor, current, res) ← restrict o options fuel executor current condition isInternal res
    match res with
    | .isTrue => pure (executor, some current, none)
    | .isFalse => pure (executor, none, some current)
    | .unknown => do
      let executor := { executor with forks := executor.forks + 1 }
      let (trueState, falseState) := current.branch
      let trueState ← addConstraint o fuel trueState condition
      let isZero ← createIsZero o fuel condition
      let falseState ← addConstraint o fuel falseState isZero
      if options.maxDepth ≠ 0 ∧ options.maxDepth ≤ trueState.depth then
        let executor := executor.terminate trueState (.early "max-depth exceeded.")
        pure (executor.terminate falseState (.early "max-depth exceeded."), none, none)
      else pure (executor, some trueState, some falseState)

/-- The copies that `branch` starts from: each is taken from a random earlier one,
which the copy changes. -/
def copies : Nat → List ExecutionState → List ExecutionState
  | 0, result => result
  | n + 1, result =>
    let parent := options.random result.length % result.length
    match result[parent]? with
    | some es => copies n (result.set parent es.branch.1 ++ [es.branch.2])
    | none => result

/-- One state for each condition, none where the number of forks is limited. -/
def branch (executor : Executor) (state : ExecutionState) (conditions : List Expr) :
    Except Fault (Executor × List (Option ExecutionState)) := do
  require (conditions ≠ []) .noConditions
  if ∃ limit ∈ options.maxForks, limit ≤ executor.forks then do
    let next := options.random 0 % conditions.length
    let result ← conditions.zipIdx.mapM fun (condition, i) =>
      if i = next then some <$> addConstraint o fuel state condition else pure none
    pure (executor, result)
  else do
    let executor := { executor with forks := executor.forks + (conditions.length - 1) }
    let states := copies options (conditions.length - 1) [state]
    let result ← (states.zip conditions).mapM fun (state, condition) =>
      some <$> addConstraint o fuel state condition
    pure (executor, result)

end Executor

end NeuroMerge.Execution
