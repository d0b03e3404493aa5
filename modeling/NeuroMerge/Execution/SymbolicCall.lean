import NeuroMerge.Execution.Fork

/-!
# Calls through a symbolic pointer

The loop of `Executor::executeInstruction` for a call whose callee is not known:
it asks for one value of the pointer after the other and forks on each. A state is
known here by its number: the state that executes the call is number 0, and every
fork with two sides makes the next one.
-/

namespace NeuroMerge.Execution

open Symbolic

/-- A call of `executeCall`: in which state, of the function at which address. -/
structure FunctionCall where
  state : Nat
  function : Nat
  arguments : List Expr

/-- What the loop has done: the states there are, the calls of `executeCall`, and the
states that were terminated with the message "invalid function pointer". A state is
kept as `executeCall` or the termination finds it: the loop does not look at it again. -/
structure Resolution where
  states : List ExecutionState
  called : List FunctionCall
  terminated : List Nat
  hasInvalid : Bool

namespace Executor

variable (o : Options) (options : ForkOptions) (solver : Solver)

-- `optimizeExpr` is `optimizer.optimizeExpr(v, true)`, and `legalFunctions` tells the
-- addresses of functions
variable (optimizeExpr : Expr → Expr) (legalFunctions : Nat → Bool) (arguments : List Expr)

def resolveTo (resolution : Resolution) (current : Nat) (value : ConstantExpr) :
    Except Fault Resolution := do
  require (value.width ≤ 64) .indexTooLarge
  let addr := value.value.toNat
  if legalFunctions addr then
    pure { resolution with called := resolution.called ++ [⟨current, addr, arguments⟩] }
  else if resolution.hasInvalid then pure resolution
  else
    -- the state that executes the call is terminated, whichever state has the value
    pure { resolution with terminated := resolution.terminated ++ [0], hasInvalid := true }

end Executor

end NeuroMerge.Execution
