import Mathlib.Algebra.BigOperators.Group.Multiset.Basic
import NeuroMerge.Graph.LlvmBuilder

/-!
# What a program graph is a picture of

The parts of an LLVM module that have a node, and the edges between them, told from the
module alone and without an order.
-/

namespace NeuroMerge.Graph

open Classifier (NodeType Flow Feature)
open Ir (Place Operand LlvmTextComponents)

/-- What a node stands for: the outside, a function without blocks, an instruction, an
operand that is the result of an instruction, an argument or a constant. -/
inductive Item (C : Type) where
  | external
  | undefined (f : Nat)
  | instruction (f : Nat) (place : Place)
  | operand (f : Nat) (place : Place) (position : Nat)
  | argument (f n : Nat)
  | constant (value : C)
  deriving DecidableEq

structure ItemEdge (C : Type) where
  flow : Flow
  position : Nat
  source : Item C
  target : Item C

variable {C : Type}

namespace Ir

section Function

variable (f : Nat) (function : Function C)

def Function.entry : Item C :=
  if function.isDeclaration then .undefined f else .instruction f ⟨0, 0⟩

def Function.successors (b : Nat) : List Nat :=
  ((function.blocks[b]?).map BasicBlock.successors).getD []

def Function.Reaches : Nat → Prop :=
  Relation.ReflTransGen (fun b successor => successor ∈ function.successors b) 0

open Classical in
noncomputable def Function.reached : List Nat :=
  (List.range function.blocks.length).filter fun b => function.Reaches b

def Function.exit (b : Nat) : Item C :=
  .instruction f
    ⟨b, (((function.blocks[b]?).map fun block => block.instructions.length).getD 0) - 1⟩

noncomputable def Function.exits : List (Item C) :=
  if function.isDeclaration then [.undefined f]
  else (function.reached.filter fun b => function.successors b = []).map (function.exit f)

end Function

section Totals

variable {M : Type} [AddCommMonoid M]

def Instruction.total (instruction : Instruction C) (contribution : Nat → Operand C → M) : M :=
  (instruction.operands.zipIdx.map fun (operand, p) => contribution p operand).sum

def Function.total (function : Function C) (contribution : Place → Instruction C → M) : M :=
  (function.blocks.zipIdx.map fun (block, b) =>
    (block.instructions.zipIdx.map fun (instruction, i) => contribution ⟨b, i⟩ instruction).sum).sum

def Module.total (module : Module C) (contribution : Nat → Function C → M) : M :=
  (module.functions.zipIdx.map fun (function, f) => contribution f function).sum

end Totals

section Items

variable (f : Nat) (place : Place) (p : Nat)

def Operand.items : Operand C → Multiset (Item C)
  | .instruction _ => {.operand f place p}
  | _ => 0

def Operand.usedArguments : Operand C → Multiset Nat
  | .argument n => {n}
  | _ => 0

def Operand.usedConstants : Operand C → Multiset C
  | .constant c => {c}
  | _ => 0

def Instruction.items (instruction : Instruction C) : Multiset (Item C) :=
  {.instruction f place} + instruction.total fun p operand => operand.items f place p

def Function.usedArguments (function : Function C) : Multiset Nat :=
  function.total fun _ instruction => instruction.total fun _ operand => operand.usedArguments

def Function.usedConstants (function : Function C) : Multiset C :=
  function.total fun _ instruction => instruction.total fun _ operand => operand.usedConstants

def Function.items (function : Function C) : Multiset (Item C) :=
  if function.isDeclaration then {.undefined f}
  else (function.total fun place instruction => instruction.items f place) +
    function.usedArguments.dedup.map (.argument f)

def Module.items [DecidableEq C] (module : Module C) : Multiset (Item C) :=
  {.external} + (module.total fun f function => function.items f) +
    (module.total fun _ function => function.usedConstants).dedup.map .constant

end Items

section Edges

variable (f : Nat) (place : Place)

def Operand.edges (p : Nat) : Operand C → Multiset (ItemEdge C)
  | .constant c => {⟨.DATA, p, .constant c, .instruction f place⟩}
  | .instruction producer =>
    {⟨.DATA, p, .operand f place p, .instruction f place⟩,
      ⟨.DATA, 0, .instruction f producer, .operand f place p⟩}
  | .argument n => {⟨.DATA, p, .argument f n, .instruction f place⟩}
  | _ => 0

/-- The control flow from the instruction in front of one in its block. -/
def Place.edges : Multiset (ItemEdge C) :=
  match place.index with
  | 0 => 0
  | i + 1 => {⟨.CONTROL, 0, .instruction f ⟨place.block, i⟩, .instruction f place⟩}

noncomputable def Function.callEdges (source : Item C) (function : Function C) :
    Multiset (ItemEdge C) :=
  {⟨.CALL, 0, source, function.entry f⟩} +
    Multiset.map (fun exit => ⟨.CALL, 0, exit, source⟩) (function.exits f)

noncomputable def Module.callEdges (module : Module C) (source : Item C) (callee : Nat) :
    Multiset (ItemEdge C) :=
  match module.functions[callee]? with
  | some function => function.callEdges callee source
  | none => 0

noncomputable def Instruction.edges (module : Module C) (instruction : Instruction C) :
    Multiset (ItemEdge C) :=
  place.edges f + (instruction.total fun p operand => operand.edges f place p) +
    match instruction.calledFunction with
    | some callee => module.callEdges (.instruction f place) callee
    | none => 0

def Function.branchEdges (function : Function C) (b : Nat) : Multiset (ItemEdge C) :=
  Multiset.map (fun successor => ⟨.CONTROL, 0, function.exit f b, .instruction f ⟨successor, 0⟩⟩)
    (function.successors b)

noncomputable def Module.edges (module : Module C) : Multiset (ItemEdge C) :=
  module.total fun f function =>
    (function.total fun place instruction => instruction.edges f place module) +
      (function.reached.map (function.branchEdges f)).sum + function.callEdges f .external

end Edges

end Ir

section Nodes

variable (encode : C → LlvmTextComponents) (module : Ir.Module C)

def Item.type : Item C → NodeType
  | .external | .undefined _ | .instruction _ _ => .INSTRUCTION
  | .operand _ _ _ | .argument _ _ => .VARIABLE
  | .constant _ => .CONSTANT

def Item.function : Item C → Nat
  | .undefined f | .instruction f _ | .operand f _ _ | .argument f _ => f
  | .external | .constant _ => 0

/-- What is printed for an item, the text of the node first. -/
def Item.texts : Item C → Option (String × Option String)
  | .external => some ("[external]", none)
  | .undefined _ => some ("; undefined function", some "")
  | .instruction f place => do
    let instruction ← module.instruction? f place
    some (instruction.text.opcode_name, some instruction.text.text)
  | .operand f place position => do
    let instruction ← module.instruction? f place
    let operand ← instruction.operands[position]?
    match operand with
    | .instruction producer => do
      let instruction ← module.instruction? f producer
      some (instruction.text.lhs_type, some instruction.text.lhs)
    | _ => none
  | .argument f n => do
    let function ← module.functions[f]?
    let text := (function.arguments[n]?).getD ⟨"", "", "", ""⟩
    some (text.lhs_type, some text.lhs)
  | .constant c => some ((encode c).lhs_type, some (encode c).text)

/-- How many blocks there are in the functions in front of one. -/
def Ir.Module.firstBlock (f : Nat) : Nat :=
  ((module.functions.take f).map fun function => function.blocks.length).sum

/-- The block number that the builder has got to when it makes the node of an item. -/
def Item.block : Item C → Nat
  | .external | .undefined _ => 0
  | .instruction f place | .operand f place _ => module.firstBlock f + place.block
  | .argument f _ => module.firstBlock (f + 1)
  | .constant _ => module.firstBlock module.functions.length

def Node.fullText (node : Node) : Option Feature :=
  (((node.features.getD ⟨[]⟩).feature).lookup "full_text").join

structure Stands (item : Item C) (node : Node) : Prop where
  type : node.type = item.type
  function : node.function = item.function
  block : node.block = item.block module
  texts : ∃ full, item.texts encode module = some (node.text, full) ∧
    node.fullText = full.map CreateFeature

end Nodes

section Drawing

variable (labels : List (Item C))

/-- The edge of the graph is between the nodes that stand for the items. -/
structure Depicts (expected : ItemEdge C) (edge : Edge) : Prop where
  flow : edge.flow = expected.flow
  position : edge.position = expected.position
  source : ∃ node : NodeId, edge.source = node ∧ labels[node]? = some expected.source
  target : ∃ node : NodeId, edge.target = node ∧ labels[node]? = some expected.target

/-- The graph has a node for each item of the module, and exactly its edges. -/
structure Pictures [DecidableEq C] (encode : C → LlvmTextComponents) (module : Ir.Module C)
    (graph : ProgramGraph) : Prop where
  nodup : labels.Nodup
  items : (labels : Multiset (Item C)) = module.items
  nodes : List.Forall₂ (Stands encode module) labels graph.node
  edges : Multiset.Rel (Depicts labels) module.edges graph.edge

end Drawing

end NeuroMerge.Graph
