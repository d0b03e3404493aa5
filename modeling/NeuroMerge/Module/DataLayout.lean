import NeuroMerge.Symbolic.Create

/-!
# Layouts and address computations

The types that a `getelementptr` goes through, what LLVM says of their layout, and
`Executor::computeOffsets`, which turns its indices into a constant offset and a list of
adjustments for run time.
-/

namespace NeuroMerge.Module

open Symbolic (ConstantExpr Fault require)

/-- `primitive` stands for the types without elements. -/
inductive Ty (α : Type) where
  | primitive (type : α)
  | pointer (element : Ty α)
  | array (count : Nat) (element : Ty α)
  | vector (count : Nat) (element : Ty α)
  | struct (elements : List (Ty α))

/-- `llvm::DataLayout`. The elements of an array lie `getTypeAllocSize` apart, which is the
store size and the padding that the alignment asks for. -/
structure DataLayout (α : Type) where
  getTypeStoreSize : Ty α → Nat
  getTypeAllocSize : Ty α → Nat
  getElementOffset : List (Ty α) → Nat → Nat
  store_le_alloc : ∀ type, getTypeStoreSize type ≤ getTypeAllocSize type

/-- An operand of an instruction: an integer, another constant with the value that
`evalConstant` gives to it, or a register. -/
inductive Operand where
  | constantInt (value : ConstantExpr)
  | constant (value : ConstantExpr)
  | register (number : Nat)

namespace Operand

def constantInt? : Operand → Option ConstantExpr
  | constantInt value => some value
  | _ => none

def constant? : Operand → Option ConstantExpr
  | constantInt value | constant value => some value
  | register _ => none

end Operand

/-- The number of a field is an `unsigned`. -/
def fieldNumber (value : ConstantExpr) : Nat := value.value.toNat % 2 ^ 32

variable {α : Type}

/-- `getTypeAtIndex` and `getElementType`: what the iterator over types goes on with. -/
def Ty.typeAtIndex : Ty α → Operand → Option (Ty α)
  | primitive _, _ => none
  | pointer element, _ | array _ element, _ | vector _ element, _ => some element
  | struct elements, operand => operand.constantInt?.bind fun ci => elements[fieldNumber ci]?

/-- The operands of a `getelementptr`, the pointer first, and the type of the pointer. -/
structure GetElementPtrInst (α : Type) where
  pointerType : Ty α
  pointerOperand : Operand
  indices : List Operand

def GetElementPtrInst.operands (gep : GetElementPtrInst α) : List Operand :=
  gep.pointerOperand :: gep.indices

/-- What is added at run time: for each of the indices the number of its operand, and the size
of an element. -/
structure KGEPInstruction where
  indices : List (Nat × Nat)
  offset : Nat

structure Offsets where
  constantOffset : ConstantExpr
  indices : List (Nat × Nat)

variable (layout : DataLayout α) (pointerWidth : Nat)

/-- A step over elements of one size. A constant index is scaled at once. -/
def sequentialOffset (elementSize : Nat) (operand : Operand) (index : Nat) (offsets : Offsets) :
    Except Fault Offsets :=
  match operand.constant? with
  | some c => do
    let addend ← (c.sext pointerWidth).binary .mul (.alloc elementSize pointerWidth)
    let constantOffset ← offsets.constantOffset.binary .add addend
    pure { offsets with constantOffset := constantOffset }
  | none => pure { offsets with indices := offsets.indices ++ [(index, elementSize)] }

def stepOffset (type : Ty α) (operand : Operand) (index : Nat) (offsets : Offsets) :
    Except Fault Offsets :=
  match type with
  | .struct elements =>
    match operand.constantInt? with
    | none => throw (.assertion .typeMismatch)
    | some ci => do
      let addend := layout.getElementOffset elements (fieldNumber ci)
      let constantOffset ← offsets.constantOffset.binary .add (.alloc addend pointerWidth)
      pure { offsets with constantOffset := constantOffset }
  | .array _ element | .vector _ element =>
    sequentialOffset pointerWidth (layout.getTypeStoreSize element) operand index offsets
  | .pointer element =>
    sequentialOffset pointerWidth (layout.getTypeStoreSize element) operand index offsets
  | .primitive _ => throw (.assertion .invalidKind)

/-- The loop, from the operand number `index` on. -/
def computeOffsetsFrom (type : Ty α) (index : Nat) (offsets : Offsets) :
    List Operand → Except Fault Offsets
  | [] => pure offsets
  | operand :: rest => do
    let offsets ← stepOffset layout pointerWidth type operand index offsets
    match type.typeAtIndex operand with
    | none => throw .outOfRange
    | some type => computeOffsetsFrom type (index + 1) offsets rest

def computeOffsets (gep : GetElementPtrInst α) : Except Fault KGEPInstruction := do
  let offsets ← computeOffsetsFrom layout pointerWidth gep.pointerType 1
    ⟨.alloc 0 pointerWidth, []⟩ gep.indices
  require (offsets.constantOffset.width ≤ 64) .indexTooLarge
  pure ⟨offsets.indices, offsets.constantOffset.value.toNat⟩

end NeuroMerge.Module
