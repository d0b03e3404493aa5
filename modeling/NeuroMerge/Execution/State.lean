import NeuroMerge.Memory.AddressSpace
import NeuroMerge.Symbolic.Constraints

/-!
# Execution states and the solver

One path under exploration: where it is, its registers, its memory and its path
condition. A position in the program is the address of the instruction pointer
there. Registers of a frame are a function of their numbers, of which only those
of the function are ever looked at. The solver, which execution asks about the
expressions under a path condition, is a parameter; `TimingSolver` answers for
constants and simplifies the queries before it passes them on.
-/

namespace NeuroMerge.Execution

open Symbolic
open Memory (MemoryObject AddressSpace)

abbrev KInstIterator := Nat

/-- `id` is the address of the function. -/
structure KFunction where
  id : Nat
  numRegisters : Nat
  deriving DecidableEq, Repr

/-- A local is null until it is written. -/
structure StackFrame where
  caller : KInstIterator
  kf : KFunction
  locals : Nat → Option Expr

structure ExecutionState where
  pc : KInstIterator
  prevPC : KInstIterator
  stack : List StackFrame
  depth : Nat
  forkDisabled : Bool
  addressSpace : AddressSpace
  constraints : List Expr
  symbolics : List (MemoryObject × Symbolic.Array)

/-- `ExecutionState::branch`: the state itself, and the copy of it. -/
def ExecutionState.branch (state : ExecutionState) : ExecutionState × ExecutionState :=
  let state := { state with depth := state.depth + 1 }
  let (copied, space) := state.addressSpace.copy
  ({ state with addressSpace := space }, { state with addressSpace := copied })

inductive Validity where
  | isTrue
  | isFalse
  | unknown
  deriving DecidableEq, Repr

/-- The answers to queries, none if the solver fails. -/
structure Solver where
  evaluate : List Expr → Expr → Option Validity
  mustBeTrue : List Expr → Expr → Option Bool
  getValue : List Expr → Expr → Option ConstantExpr

namespace TimingSolver

variable (o : Options) (simplifyExprs : Bool) (solver : Solver) (fuel : Nat) (constraints : List Expr) (e : Expr)

def query : Except Fault Expr :=
  if simplifyExprs then ConstraintManager.simplifyExpr o fuel constraints e else pure e

def evaluate : Except Fault (Option Validity) :=
  match e.constant? with
  | some ce => pure (some (if ce.isTrue then .isTrue else .isFalse))
  | none => do
    let e ← query o simplifyExprs fuel constraints e
    pure (solver.evaluate constraints e)

def mustBeTrue : Except Fault (Option Bool) :=
  match e.constant? with
  | some ce => pure (some ce.isTrue)
  | none => do
    let e ← query o simplifyExprs fuel constraints e
    pure (solver.mustBeTrue constraints e)

def mustBeFalse : Except Fault (Option Bool) := do
  let isZero ← createIsZero o fuel e
  mustBeTrue o simplifyExprs solver fuel constraints isZero

def mayBeTrue : Except Fault (Option Bool) := do
  let result ← mustBeFalse o simplifyExprs solver fuel constraints e
  pure (result.map fun result => !result)

def getValue : Except Fault (Option ConstantExpr) :=
  match e.constant? with
  | some ce => pure (some ce)
  | none => do
    let e ← query o simplifyExprs fuel constraints e
    pure (solver.getValue constraints e)

end TimingSolver

end NeuroMerge.Execution
