import NeuroMerge.Execution.Alloc
import NeuroMerge.Module.DataLayout

/-!
# Memory instructions

What `Executor::executeInstruction` does for `alloca` and `getelementptr`.
-/

namespace NeuroMerge.Execution

open Symbolic
open Memory (Context Host MemoryOptions MemoryManager)
open NeuroMerge.Module (DataLayout GetElementPtrInst KGEPInstruction Operand Ty)

variable {α : Type}

/-- An `alloca` of so many objects of a type. -/
structure AllocaInst (α : Type) where
  allocatedType : Ty α
  arraySize : Operand

def AllocaInst.isArrayAllocation (ai : AllocaInst α) : Bool :=
  match ai.arraySize.constantInt? with
  | none => true
  | some ci => ! ci.isOne

/-- `ConstantExpr::create` refuses a value that the width cannot hold. -/
def createCheckedPointer (pointerWidth v : Nat) : Except Fault Expr := do
  require (v < 2 ^ pointerWidth) .indexTooLarge
  pure (createPointer pointerWidth v)

namespace Executor

variable (o : Options) (fuel : Nat)

/-- The registers are those of the innermost frame. A constant is in the table with its value. -/
def evalOperand (state : ExecutionState) : Operand → Except Fault Expr
  | .constantInt value | .constant value => pure (.constant value)
  | .register number =>
    match state.stack.getLast?.bind fun frame => frame.locals number with
    | none => throw .outOfRange
    | some e => pure e

def eval (operands : List Operand) (index : Nat) (state : ExecutionState) : Except Fault Expr :=
  match operands[index]? with
  | none => throw .outOfRange
  | some operand => evalOperand state operand

section GetElementPtr

variable (pointerWidth : Nat)

/-- One round of the loop over the indices that are not constant. -/
def addIndex (operands : List Operand) (state : ExecutionState) (base : Expr)
    (entry : Nat × Nat) : Except Fault Expr := do
  let index ← eval operands entry.1 state
  let index ← SExtExpr.create fuel index pointerWidth
  let elementSize ← createCheckedPointer pointerWidth entry.2
  let distance ← MulExpr.create index elementSize
  AddExpr.create o fuel base distance

def addOffset (offset : Nat) (base : Expr) : Except Fault Expr :=
  if offset = 0 then pure base
  else do
    let distance ← createCheckedPointer pointerWidth offset
    AddExpr.create o fuel base distance

def executeGetElementPtr (gep : GetElementPtrInst α) (kgepi : KGEPInstruction) (target : Nat)
    (state : ExecutionState) : Except Fault ExecutionState := do
  let base ← eval gep.operands 0 state
  let base ← kgepi.indices.foldlM (addIndex o fuel pointerWidth gep.operands state) base
  let base ← addOffset o fuel pointerWidth kgepi.offset base
  pure (state.bindLocal target base)

end GetElementPtr

variable (options : ForkOptions) (solver : Solver) (optimizeExpr : Expr → Bool → Expr)
  (context : Context) (host : Host) (memory : MemoryOptions) (allocSite : KInstIterator → AllocSite) (layout : DataLayout α)

/-- As many bytes as the array needs. The size of an element is an `unsigned`. -/
def allocaSize (ai : AllocaInst α) (state : ExecutionState) : Except Fault Expr := do
  let elementSize := layout.getTypeStoreSize ai.allocatedType % 2 ^ 32
  let size ← createCheckedPointer context.pointerWidth elementSize
  if ai.isArrayAllocation then do
    let count ← eval [ai.arraySize] 0 state
    let count ← ZExtExpr.create fuel count context.pointerWidth
    MulExpr.create size count
  else pure size

def executeAlloca (ai : AllocaInst α) (target : Nat) (executor : Executor)
    (manager : MemoryManager) (state : ExecutionState) :
    Except Fault (Executor × MemoryManager × List ExecutionState) := do
  let size ← allocaSize fuel context layout ai state
  executeAlloc o options solver optimizeExpr context host memory fuel allocSite target false none
    executor manager state size 0

end Executor

end NeuroMerge.Execution
