import NeuroMerge.Execution.Free
import NeuroMerge.Execution.Range
import NeuroMerge.Execution.Switch
import NeuroMerge.Memory.MemoryManager

/-!
# Allocating objects

`Executor::executeAlloc` and the functions of the program that lead to it: `malloc`,
`calloc`, `memalign` and `realloc`. Whether an object is local is left out: the object and
the frame only keep it for later.
-/

namespace NeuroMerge.Execution

open Symbolic
open Memory (MemoryObject ObjectState Context Ref Heap deref Host MemoryOptions MemoryManager)

/-- What allocates: a call, or a global or local variable, with the alignment that it gives
and the preferred one of its type, if that has a size. -/
inductive AllocSite where
  | call
  | declared (alignment : Nat) (prefTypeAlignment : Option Nat)

def getAllocationAlignment : AllocSite → Nat
  | .call => 8
  | .declared given prefTypeAlignment =>
    let alignment := if given = 0 then prefTypeAlignment.getD 8 else given
    if ObjectState.isPowerOfTwo alignment then alignment else 8

namespace Executor

variable (o : Options) (options : ForkOptions) (solver : Solver)
  (optimizeExpr : Expr → Bool → Expr) (context : Context) (host : Host) (memory : MemoryOptions) (fuel : Nat)

/-- The new object has its state at the end of the heap. -/
def bindObjectInState (executor : Executor) (state : ExecutionState) (mo : MemoryObject) :
    Except Fault (Executor × ExecutionState) := do
  let (heap, space) ← state.addressSpace.bindObject (executor.heap ++ [.create mo none]) mo
    executor.heap.length
  pure ({ executor with heap := heap }, { state with addressSpace := space })

def copyByte (source target : Ref) (executor : Executor) (i : Nat) : Except Fault Executor := do
  let reallocFrom ← deref executor.heap source
  let (value, reallocFrom, id) ← reallocFrom.read8 o fuel executor.arrays i
  let heap := executor.heap.set source reallocFrom
  let os ← deref heap target
  let os ← os.write context fuel i value
  pure { executor with heap := heap.set target os, arrays := id }

def moveObject (executor : Executor) (state : ExecutionState) (source target : Ref) :
    Except Fault (Executor × ExecutionState) := do
  let reallocFrom ← deref executor.heap source
  let os ← deref executor.heap target
  let executor ← (List.range (min reallocFrom.size os.size)).foldlM
    (copyByte o context fuel source target) executor
  pure (executor, { state with addressSpace := state.addressSpace.unbindObject reallocFrom.object })

-- `target` is the register of the call, and `allocSite` tells what the instructions allocate
variable (allocSite : KInstIterator → AllocSite) (target : Nat) (zeroMemory : Bool) (reallocFrom : Option Ref)

def bindAllocated (executor : Executor) (state : ExecutionState) (mo : MemoryObject) :
    Except Fault (Executor × ExecutionState) := do
  let ref := executor.heap.length
  let (executor, state) ← bindObjectInState executor state mo
  let os ← deref executor.heap ref
  let os := if zeroMemory then os.initializeToZero else os.initializeToRandom
  let executor := { executor with heap := executor.heap.set ref os }
  let state := state.bindLocal target (mo.getBaseExpr context.pointerWidth)
  match reallocFrom with
  | none => pure (executor, state)
  | some source => moveObject o context fuel executor state source ref

def executeAllocConstant (executor : Executor) (manager : MemoryManager) (state : ExecutionState)
    (size : ConstantExpr) (allocationAlignment : Nat) :
    Except Fault (Executor × MemoryManager × ExecutionState) := do
  require (size.width ≤ 64) .indexTooLarge
  let alignment := if allocationAlignment = 0
    then getAllocationAlignment (allocSite state.prevPC) else allocationAlignment
  match manager.allocate host memory size.value.toNat alignment with
  | (none, manager) =>
    pure (executor, manager, state.bindLocal target (createPointer context.pointerWidth 0))
  | (some mo, manager) => do
    let (executor, state) ←
      bindAllocated o context fuel target zeroMemory reallocFrom executor state mo
    pure (executor, manager, state)

/-- The loop that tries to find a smaller example. -/
def shrink (constraints : List Expr) (size : Expr) {w : Nat} (found : BitVec w) :
    Except Fault (BitVec w) :=
  if _large : (BitVec.ofNat w 128).toNat < found.toNat then do
    let equality ← EqExpr.create o fuel (.constant ⟨w, found >>> 1⟩) size
    match ← TimingSolver.mayBeTrue o options.simplifyExprs solver fuel constraints equality with
    | none => throw (.assertion .solverFailure)
    | some false => pure found
    | some true => shrink constraints size (found >>> 1)
  else pure found
termination_by found.toNat
decreasing_by
  rw [BitVec.toNat_ushiftRight, Nat.shiftRight_eq_div_pow]
  omega

/-- The state in which the size has more values than the example and `tmp`: a size that is
huge gives null, and any other one ends the state. -/
def refuseSize (executor : Executor) (state : ExecutionState) (size : Expr) (w : Nat) :
    Except Fault (Executor × Option ExecutionState) := do
  let isHuge ← UltExpr.create o fuel (.constant (.alloc (2 ^ 31) w)) size
  let (executor, first, second) ← fork o options solver fuel executor state isHuge true
  let executor := match second with
    | none => executor
    | some state => executor.terminate state (.model "concretized symbolic size")
  pure (executor, first.map fun state =>
    state.bindLocal target (createPointer context.pointerWidth 0))

/-- The state in which the size is not the example. `executeAlloc` calls itself with a
constant, and without the alignment. -/
def executeAllocOther (executor : Executor) (manager : MemoryManager) (size : Expr) (w : Nat) :
    Option ExecutionState → Except Fault (Executor × MemoryManager × List ExecutionState)
  | none => pure (executor, manager, [])
  | some state => do
    match ← TimingSolver.getValue o options.simplifyExprs solver fuel state.constraints size with
    | none => throw (.assertion .solverFailure)
    | some tmp => do
      let equality ← EqExpr.create o fuel (.constant tmp) size
      match ← TimingSolver.mustBeTrue o options.simplifyExprs solver fuel state.constraints
          equality with
      | none => throw (.assertion .solverFailure)
      | some true => do
        let (executor, manager, state) ← executeAllocConstant o context host memory fuel
          allocSite target zeroMemory reallocFrom executor manager state tmp 0
        pure (executor, manager, [state])
      | some false => do
        let (executor, state) ←
          refuseSize o options solver context fuel target executor state size w
        pure (executor, manager, state.toList)

/-- The state in which the size is the example, if there is one. -/
def executeAllocExample (executor : Executor) (manager : MemoryManager) (found : ConstantExpr) :
    Option ExecutionState → Except Fault (Executor × MemoryManager × List ExecutionState)
  | none => pure (executor, manager, [])
  | some state => do
    let (executor, manager, state) ← executeAllocConstant o context host memory fuel allocSite
      target zeroMemory reallocFrom executor manager state found 0
    pure (executor, manager, [state])

/-- `executeAlloc` of a size with several values: of these an example and at most one other
one are used. -/
def executeAllocSymbolic (executor : Executor) (manager : MemoryManager) (state : ExecutionState)
    (size : Expr) : Except Fault (Executor × MemoryManager × List ExecutionState) := do
  let size := optimizeExpr size true
  match ← TimingSolver.getValue o options.simplifyExprs solver fuel state.constraints size with
  | none => throw (.assertion .solverFailure)
  | some value => do
    let found ← shrink o options solver fuel state.constraints size value.value
    let equality ← EqExpr.create o fuel (.constant ⟨value.width, found⟩) size
    let (executor, first, second) ← fork o options solver fuel executor state equality true
    let (executor, manager, others) ← executeAllocOther o options solver context host memory
      fuel allocSite target zeroMemory reallocFrom executor manager size value.width second
    let (executor, manager, states) ← executeAllocExample o context host memory fuel allocSite
      target zeroMemory reallocFrom executor manager ⟨value.width, found⟩ first
    pure (executor, manager, others ++ states)

def executeAlloc (executor : Executor) (manager : MemoryManager) (state : ExecutionState)
    (size : Expr) (allocationAlignment : Nat) :
    Except Fault (Executor × MemoryManager × List ExecutionState) := do
  let size ← toUnique o options.simplifyExprs solver optimizeExpr fuel state.constraints size
  match size.constant? with
  | some ce => do
    let (executor, manager, state) ← executeAllocConstant o context host memory fuel allocSite
      target zeroMemory reallocFrom executor manager state ce allocationAlignment
    pure (executor, manager, [state])
  | none =>
    executeAllocSymbolic o options solver optimizeExpr context host memory fuel allocSite target
      zeroMemory reallocFrom executor manager state size

end Executor

namespace SpecialFunctionHandler

open Executor

variable (o : Options) (options : ForkOptions) (solver : Solver)
  (optimizeExpr : Expr → Bool → Expr) (context : Context) (host : Host) (memory : MemoryOptions)
  (fuel : Nat) (allocSite : KInstIterator → AllocSite) (target : Nat)

def handleMalloc (executor : Executor) (manager : MemoryManager) (state : ExecutionState)
    (size : Expr) : Except Fault (Executor × MemoryManager × List ExecutionState) :=
  executeAlloc o options solver optimizeExpr context host memory fuel allocSite target false none
    executor manager state size 0

def handleCalloc (executor : Executor) (manager : MemoryManager) (state : ExecutionState)
    (count size : Expr) : Except Fault (Executor × MemoryManager × List ExecutionState) := do
  let product ← MulExpr.create count size
  executeAlloc o options solver optimizeExpr context host memory fuel allocSite target true none
    executor manager state product 0

/-- A symbolic alignment is taken to be the smallest one, with a warning. -/
def handleMemalign (executor : Executor) (manager : MemoryManager) (state : ExecutionState)
    (arguments : List Expr) : Except Fault (Executor × MemoryManager × List ExecutionState) :=
  match arguments with
  | [alignment, size] => do
    let (alignmentExpr, _) ← Solver.getRange o solver fuel state.constraints alignment
    match alignmentExpr.constant? with
    | none =>
      pure (executor.terminate state (.user "Could not determine size of symbolic alignment"),
        manager, [])
    | some alignmentConst => do
      require (alignmentConst.width ≤ 64) .indexTooLarge
      executeAlloc o options solver optimizeExpr context host memory fuel allocSite target
        false none executor manager state size alignmentConst.value.toNat
  | _ =>
    pure (executor.terminate state (.user
      "Incorrect number of arguments to memalign(size_t alignment, size_t size)"), manager, [])

variable (isLocal isGlobal : MemoryObject → Bool)

/-- The states in which the size is zero: the object is freed. -/
def reallocZero (executor : Executor) (address : Expr) :
    Option ExecutionState → Except Fault (Executor × List ExecutionState)
  | none => pure (executor, [])
  | some state => executeFree o options solver optimizeExpr context.pointerWidth fuel isLocal
      isGlobal (some target) executor state address

def reallocNull (executor : Executor) (manager : MemoryManager) (size : Expr) :
    Option ExecutionState → Except Fault (Executor × MemoryManager × List ExecutionState)
  | none => pure (executor, manager, [])
  | some state =>
    executeAlloc o options solver optimizeExpr context host memory fuel allocSite target false
      none executor manager state size 0

def reallocObjects (size : Expr) : Executor → MemoryManager → ExactResolutionList →
    Except Fault (Executor × MemoryManager × List ExecutionState)
  | executor, manager, [] => pure (executor, manager, [])
  | executor, manager, (op, state) :: rl => do
    let (executor, manager, states) ← executeAlloc o options solver optimizeExpr context host
      memory fuel allocSite target false (some op.2) executor manager state size 0
    let (executor, manager, rest) ← reallocObjects size executor manager rl
    pure (executor, manager, states ++ rest)

def reallocPointer (executor : Executor) (manager : MemoryManager) (address size : Expr) :
    Option ExecutionState → Except Fault (Executor × MemoryManager × List ExecutionState)
  | none => pure (executor, manager, [])
  | some state => do
    let (executor, rl) ← resolveExact o options solver optimizeExpr context.pointerWidth fuel
      executor state address "realloc"
    reallocObjects o options solver optimizeExpr context host memory fuel allocSite target size
      executor manager rl

def reallocNonzero (executor : Executor) (manager : MemoryManager) (address size : Expr) :
    Option ExecutionState → Except Fault (Executor × MemoryManager × List ExecutionState)
  | none => pure (executor, manager, [])
  | some state => do
    let isNull ← createIsZero o fuel address
    let (executor, first, second) ← fork o options solver fuel executor state isNull true
    let (executor, manager, made) ← reallocNull o options solver optimizeExpr context host memory
      fuel allocSite target executor manager size first
    let (executor, manager, moved) ← reallocPointer o options solver optimizeExpr context host
      memory fuel allocSite target executor manager address size second
    pure (executor, manager, made ++ moved)

def handleRealloc (executor : Executor) (manager : MemoryManager) (state : ExecutionState)
    (address size : Expr) : Except Fault (Executor × MemoryManager × List ExecutionState) := do
  let isZero ← createIsZero o fuel size
  let (executor, first, second) ← fork o options solver fuel executor state isZero true
  let (executor, freed) ← reallocZero o options solver optimizeExpr context fuel target isLocal
    isGlobal executor address first
  let (executor, manager, states) ← reallocNonzero o options solver optimizeExpr context host memory
    fuel allocSite target executor manager address size second
  pure (executor, manager, freed ++ states)

end SpecialFunctionHandler

end NeuroMerge.Execution
