import NeuroMerge.Execution.Resolve

/-!
# Freeing an object

`Executor::executeFree`, which splits a state into those in which a pointer is null, in
which it is the base of one object or of another one, and in which it is anything else.
-/

namespace NeuroMerge.Execution

open Symbolic
open Memory (MemoryObject)

def ExecutionState.bindLocal (state : ExecutionState) (dest : Nat) (value : Expr) :
    ExecutionState :=
  let bind (frame : StackFrame) : StackFrame :=
    { frame with locals := Function.update frame.locals dest (some value) }
  { state with stack := state.stack.modifyLast bind }

/-- An object, and the state in which the pointer is its base. -/
abbrev ExactResolutionList := List (ObjectPair × ExecutionState)

def createPointer (pointerWidth v : Nat) : Expr := .constant (.alloc v pointerWidth)

namespace Executor

-- `optimizeExpr` is `optimizer.optimizeExpr`
variable (o : Options) (options : ForkOptions) (solver : Solver) (optimizeExpr : Expr → Bool → Expr) (pointerWidth fuel : Nat)

def resolveExactLoop (p : Expr) : ResolutionList → Executor → ExecutionState →
    ExactResolutionList → Except Fault (Executor × ExactResolutionList × Option ExecutionState)
  | [], executor, unbound, results => pure (executor, results, some unbound)
  | op :: rl, executor, unbound, results => do
    let inBounds ← EqExpr.create o fuel p (op.1.getBaseExpr pointerWidth)
    let (executor, first, second) ← fork o options solver fuel executor unbound inBounds true
    let results := results ++ (first.map fun state => (op, state)).toList
    match second with
    | none => pure (executor, results, none)
    | some unbound => resolveExactLoop p rl executor unbound results

def resolveExact (executor : Executor) (state : ExecutionState) (p : Expr) (name : String) :
    Except Fault (Executor × ExactResolutionList) := do
  let p := optimizeExpr p true
  let (_, rl) ← resolve o options.simplifyExprs solver pointerWidth fuel state.constraints p 0
    (fun _ => false) state.addressSpace
  let (executor, results, unbound) ←
    resolveExactLoop o options solver pointerWidth fuel p rl executor state []
  match unbound with
  | none => pure (executor, results)
  | some unbound =>
    pure (executor.terminate unbound (.ptr ("memory error: invalid pointer: " ++ name)), results)

-- what `MemoryObject` knows about where it comes from
variable (isLocal isGlobal : MemoryObject → Bool) (target : Option Nat)

def bindNull (state : ExecutionState) : ExecutionState :=
  match target with
  | none => state
  | some dest => state.bindLocal dest (createPointer pointerWidth 0)

def freeObject (executor : Executor) (mo : MemoryObject) (state : ExecutionState) :
    Executor × Option ExecutionState :=
  if isLocal mo then (executor.terminate state (.free "free of alloca"), none)
  else if isGlobal mo then (executor.terminate state (.free "free of global"), none)
  else
    let state := { state with addressSpace := state.addressSpace.unbindObject mo }
    (executor, some (bindNull pointerWidth target state))

def freeObjects : Executor → ExactResolutionList → Executor × List ExecutionState
  | executor, [] => (executor, [])
  | executor, (op, state) :: rl =>
    let (executor, freed) :=
      freeObject pointerWidth isLocal isGlobal target executor op.1 state
    let (executor, states) := freeObjects executor rl
    (executor, freed.toList ++ states)

def executeFree (executor : Executor) (state : ExecutionState) (address : Expr) :
    Except Fault (Executor × List ExecutionState) := do
  let address := optimizeExpr address true
  let isZero ← createIsZero o fuel address
  let (executor, first, second) ← fork o options solver fuel executor state isZero true
  let null := (first.map (bindNull pointerWidth target)).toList
  match second with
  | none => pure (executor, null)
  | some state => do
    let (executor, rl) ←
      resolveExact o options solver optimizeExpr pointerWidth fuel executor state address "free"
    let (executor, states) := freeObjects pointerWidth isLocal isGlobal target executor rl
    pure (executor, null ++ states)

end Executor

end NeuroMerge.Execution
