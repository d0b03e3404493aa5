import Mathlib.Data.List.Basic

/-!
# LLVM modules

As much of an LLVM module as the graph builder looks at. Functions are known by their
numbers in the module, blocks by their numbers in the function, and instructions by their
places in it. `C` are the constants. How something is printed belongs to it.
-/

namespace NeuroMerge.Graph.Ir

structure LlvmTextComponents where
  text : String
  opcode_name : String
  lhs_type : String
  lhs : String
  deriving DecidableEq

structure Place where
  block : Nat
  index : Nat
  deriving DecidableEq

/-- An operand, which may be of a kind that the builder does not know. -/
inductive Operand (C : Type) where
  | function (number : Nat)
  | constant (value : C)
  | instruction (place : Place)
  | argument (number : Nat)
  | basicBlock (number : Nat)
  | inlineAsm
  | metadata
  | other
  deriving DecidableEq

/-- `calledFunction` is what `getCalledFunction` returns for a `CallInst`. The weights are
there if the instruction has profile metadata. -/
structure Instruction (C : Type) where
  text : LlvmTextComponents
  operands : List (Operand C)
  calledFunction : Option Nat
  profTotalWeight : Option Int
  profMetadata : Option (Int × Int)

/-- `successors` are those of the terminator, in its order. -/
structure BasicBlock (C : Type) where
  instructions : List (Instruction C)
  successors : List Nat

/-- A declaration has no blocks. `path` is the file of the function. -/
structure Function (C : Type) where
  name : String
  path : String
  arguments : List LlvmTextComponents
  blocks : List (BasicBlock C)
  entryCount : Option Int

structure ProfileSummary where
  numFunctions : Int
  maxFunctionCount : Int
  numCounts : Int
  totalCount : Int
  maxCount : Int
  maxInternalCount : Int

/-- The summary may be flagged and not be one. -/
structure Module (C : Type) where
  name : String
  targetTriple : String
  dataLayout : String
  functions : List (Function C)
  profileSummary : Option (Option ProfileSummary)

variable {C : Type}

def Function.isDeclaration (function : Function C) : Bool := function.blocks.isEmpty

def Function.instruction? (function : Function C) (place : Place) : Option (Instruction C) := do
  let block ← function.blocks[place.block]?
  block.instructions[place.index]?

def Module.instruction? (module : Module C) (f : Nat) (place : Place) : Option (Instruction C) := do
  let function ← module.functions[f]?
  function.instruction? place

/-- Blocks are not empty and what is referred to is there. -/
structure Function.WellFormed (function : Function C) (functions : Nat) : Prop where
  nonempty : ∀ block ∈ function.blocks, block.instructions ≠ []
  successors : ∀ block ∈ function.blocks, ∀ successor ∈ block.successors,
    successor < function.blocks.length
  operands : ∀ block ∈ function.blocks, ∀ instruction ∈ block.instructions,
    ∀ place, .instruction place ∈ instruction.operands → function.instruction? place ≠ none
  known : ∀ block ∈ function.blocks, ∀ instruction ∈ block.instructions,
    .other ∉ instruction.operands
  called : ∀ block ∈ function.blocks, ∀ instruction ∈ block.instructions,
    ∀ callee ∈ instruction.calledFunction, callee < functions

/-- The verifier accepts the module, and the operands are of the kinds that are known. -/
structure Module.WellFormed (module : Module C) : Prop where
  functions : ∀ function ∈ module.functions, function.WellFormed module.functions.length

/-- What is flagged as a profile summary is one, which the verifier does not look at. -/
def Module.Summarized (module : Module C) : Prop := module.profileSummary ≠ some none

end NeuroMerge.Graph.Ir
