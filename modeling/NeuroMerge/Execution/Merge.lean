import NeuroMerge.Execution.State

/-!
# Merging two states

`ExecutionState::merge`: the second state is folded into the first one. Registers
and bytes in which they differ become selects on the constraints that only the
first one has.
-/

namespace NeuroMerge.Execution

open Symbolic
open Memory (Context MemoryObject Ref Heap deref)

namespace ExecutionState

section Merge

variable (o : Options) (context : Context) (fuel : Nat)

/-- `std::set<ref<Expr>>`; `le` is the order of `Expr::compare`, which decides
about the order of the elements only. -/
def exprSet (le : Expr → Expr → Bool) (constraints : List Expr) : List Expr :=
  constraints.dedup.mergeSort le

def sameFrames : List StackFrame → List StackFrame → Bool
  | [], [] => true
  | a :: as, b :: bs => a.caller = b.caller && a.kf = b.kf && sameFrames as bs
  | _, _ => false

/-- The objects that are bound to different object states, none if the states do
not bind the same objects. -/
def mutatedObjects : List (MemoryObject × Ref) → List (MemoryObject × Ref) →
    Option (List MemoryObject)
  | [], [] => some []
  | a :: as, b :: bs =>
    if a.1 ≠ b.1 then none
    else (mutatedObjects as bs).map fun mutated => if a.2 ≠ b.2 then a.1 :: mutated else mutated
  | _, _ => none

def conjunction (constraints : List Expr) : Except Fault Expr :=
  constraints.foldlM AndExpr.create (.constant (.alloc 1 1))

def mergeRegister (inA : Expr) : Option Expr → Option Expr → Except Fault (Option Expr)
  | some av, some bv => some <$> SelectExpr.create o fuel inA av bv
  | av, _ => pure av

def mergeFrame (inA : Expr) (af bf : StackFrame) : Except Fault StackFrame := do
  let locals ← (List.range af.kf.numRegisters).foldlM (fun locals i => do
    let value ← mergeRegister o fuel inA (locals i) (bf.locals i)
    pure (Function.update locals i value)) af.locals
  pure { af with locals := locals }

/-- One byte of an object; `wos` is written and `other` belongs to the other
state. -/
def mergeByte (inA : Expr) (wos other : Ref) (heap : Heap) (id i : Nat) :
    Except Fault (Heap × Nat) := do
  let os ← deref heap wos
  let (av, os, id) ← os.read8 o fuel id i
  let heap := heap.set wos os
  let otherOS ← deref heap other
  let (bv, otherOS, id) ← otherOS.read8 o fuel id i
  let heap := heap.set other otherOS
  let value ← SelectExpr.create o fuel inA av bv
  let os ← deref heap wos
  let os ← os.write context fuel i value
  pure (heap.set wos os, id)

def mergeObject (inA : Expr) (b : ExecutionState) (heap : Heap) (id : Nat) (a : ExecutionState)
    (mo : MemoryObject) : Except Fault (Heap × Nat × ExecutionState) :=
  match a.addressSpace.findObject mo, b.addressSpace.findObject mo with
  | some ref, some other => do
    let (heap, space, wos) ← a.addressSpace.getWriteable heap mo ref
    let (heap, id) ← (List.range mo.size).foldlM
      (fun (heap, id) i => mergeByte o context fuel inA wos other heap id i) (heap, id)
    pure (heap, id, { a with addressSpace := space })
  | _, _ => throw (.assertion .missingObject)

/-- What the states have in common is compared, and what they may differ in
combined; none if they cannot be merged. -/
def merge (le : Expr → Expr → Bool) (heap : Heap) (id : Nat) (a b : ExecutionState) :
    Except Fault (Option (Heap × Nat × ExecutionState)) :=
  if a.pc ≠ b.pc then pure none
  else if a.symbolics ≠ b.symbolics then pure none
  else if sameFrames a.stack b.stack = false then pure none
  else
    let aConstraints := exprSet le a.constraints
    let bConstraints := exprSet le b.constraints
    let commonConstraints := aConstraints.filter (· ∈ bConstraints)
    let aSuffix := aConstraints.filter (· ∉ commonConstraints)
    let bSuffix := bConstraints.filter (· ∉ commonConstraints)
    match mutatedObjects a.addressSpace.objects b.addressSpace.objects with
    | none => pure none
    | some mutated => do
      let inA ← conjunction aSuffix
      let inB ← conjunction bSuffix
      let stack ← (a.stack.zip b.stack).mapM fun (af, bf) => mergeFrame o fuel inA af bf
      let (heap, id, a) ← mutated.foldlM
        (fun (heap, id, a) mo => mergeObject o context fuel inA b heap id a mo)
        (heap, id, { a with stack := stack })
      let constraints ← commonConstraints.foldlM (ConstraintManager.addConstraint o fuel) []
      let either ← OrExpr.create inA inB
      let constraints ← ConstraintManager.addConstraint o fuel constraints either
      pure (some (heap, id, { a with constraints := constraints }))

end Merge

end ExecutionState

end NeuroMerge.Execution
