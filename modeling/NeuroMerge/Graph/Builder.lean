import NeuroMerge.Graph.Ir
import NeuroMerge.Graph.ProgramGraph

/-!
# Building program graphs

The builder that adds modules, functions, nodes and edges to a graph. The address of an
element is modelled by its index, as the maps `moduleIndices_`, `functionIndices_` and
`nodeIndices_` have it.
-/

namespace NeuroMerge.Graph

open Classifier (NodeType Flow Feature)

inductive Code where
  | FAILED_PRECONDITION
  | INTERNAL
  | INVALID_ARGUMENT
  deriving DecidableEq

/-- An error status; the others are an invalid address and a loop that is cut off. -/
inductive Fault where
  | status (code : Code) (message : String)
  | dangling
  | outOfFuel
  deriving DecidableEq

structure ProgramGraphOptions where
  strict : Bool
  instructions_only : Bool
  ignore_call_returns : Bool

/-- What a message has that is not set. -/
def ProgramGraphOptions.default : ProgramGraphOptions := ⟨false, false, false⟩

abbrev NodeId : Type := Nat

/-- The nodes that use a value, with the positions, and the identifier of the first one. -/
abbrev Consumers : Type := String × List (NodeId × Int)

structure Builder (C : Type) where
  options : ProgramGraphOptions
  graph : ProgramGraph
  emptyModules : List Nat
  emptyFunctions : List Nat
  unconnectedNodes : List NodeId
  blockCount : Int
  callSites : List (NodeId × Nat)
  constants : List (C × Consumers)

abbrev BuilderM (C : Type) := StateT (Builder C) (Except Fault)

variable {C : Type}

def CreateFeature (value : String) : Feature := .bytes_list [value.toUTF8.toList]

/-- A key that is there already keeps its value. -/
def AddFeature (features : Option Features) (key : String) (value : Feature) : Option Features :=
  let feature := (features.getD ⟨[]⟩).feature
  if key ∈ feature.map Prod.fst then some ⟨feature⟩ else some ⟨feature ++ [(key, some value)]⟩

def Node.AddScalarFeature (node : Node) (key : String) (value : Feature) : Node :=
  { node with features := AddFeature node.features key value }

def Function.AddScalarFeature (function : Function) (key : String) (value : Feature) : Function :=
  { function with features := AddFeature function.features key value }

def Module.AddScalarFeature (module : Module) (key : String) (value : Feature) : Module :=
  { module with features := AddFeature module.features key value }

def Type_Name : NodeType → String
  | .INSTRUCTION => "INSTRUCTION"
  | .VARIABLE => "VARIABLE"
  | .CONSTANT => "CONSTANT"

namespace Builder

def modifyGraph (change : ProgramGraph → ProgramGraph) : BuilderM C Unit :=
  modify fun b => { b with graph := change b.graph }

def modifyNode (node : NodeId) (change : Node → Node) : BuilderM C Unit :=
  modifyGraph fun graph => { graph with node := graph.node.modify node change }

def node (address : NodeId) : BuilderM C Node := do
  match (← get).graph.node[address]? with
  | some node => pure node
  | none => throw .dangling

def AddModule (name : String) : BuilderM C Nat := do
  let index := (← get).graph.module.length
  modify fun b => { b with
    graph := { b.graph with module := b.graph.module ++ [⟨name, none⟩] }
    emptyModules := index :: b.emptyModules }
  return index

def AddFunction (name : String) (module : Nat) : BuilderM C Nat := do
  let index := (← get).graph.function.length
  modify fun b => { b with
    graph := { b.graph with function := b.graph.function ++ [⟨name, module, none⟩] }
    emptyFunctions := index :: b.emptyFunctions
    emptyModules := b.emptyModules.erase module }
  return index

def AddNode (type : NodeType) (text : String) : BuilderM C NodeId := do
  let index := (← get).graph.node.length
  modify fun b => { b with
    graph := { b.graph with node := b.graph.node ++ [⟨type, text, 0, 0, none⟩] }
    unconnectedNodes := index :: b.unconnectedNodes }
  return index

/-- `AddNode` with a function -/
def AddNodeTo (type : NodeType) (text : String) (function : Nat) : BuilderM C NodeId := do
  let node ← AddNode type text
  modifyNode node fun node => { node with function := function }
  modify fun b => { b with emptyFunctions := b.emptyFunctions.erase function }
  return node

def AddInstruction (text : String) (function : Nat) : BuilderM C NodeId :=
  AddNodeTo .INSTRUCTION text function

def AddVariable (text : String) (function : Nat) : BuilderM C NodeId :=
  AddNodeTo .VARIABLE text function

def AddConstant (text : String) : BuilderM C NodeId :=
  AddNode .CONSTANT text

def AddEdge (flow : Flow) (position : Int) (source target : NodeId) : BuilderM C Unit :=
  modify fun b => { b with
    graph := { b.graph with edge := b.graph.edge ++ [⟨flow, position, source, target, none⟩] }
    unconnectedNodes := (b.unconnectedNodes.erase source).erase target }

def functionName (function : Int) : BuilderM C String := do
  return (((← get).graph.function[function.toNat]?).map Function.name).getD ""

def AddControlEdge (position : Int) (source target : NodeId) : BuilderM C Unit := do
  let sourceNode ← node source
  let targetNode ← node target
  if sourceNode.type ≠ .INSTRUCTION then
    throw (.status .INVALID_ARGUMENT
      ("Invalid control source type (" ++ Type_Name sourceNode.type ++ "). Expected instruction"))
  if targetNode.type ≠ .INSTRUCTION then
    throw (.status .INVALID_ARGUMENT
      ("Invalid control target type (" ++ Type_Name targetNode.type ++ "). Expected instruction"))
  if source ≠ 0 ∧ sourceNode.function ≠ targetNode.function then
    let sourceFunction ← functionName sourceNode.function
    let targetFunction ← functionName targetNode.function
    throw (.status .INVALID_ARGUMENT
      ("Source and target instructions must belong to the same function. Source instruction "
        ++ "has function `" ++ sourceFunction ++ "`, target function `" ++ targetFunction ++ "`"))
  AddEdge .CONTROL position source target

def isData (node : Node) : Bool := node.type = .VARIABLE || node.type = .CONSTANT

def AddDataEdge (position : Int) (source target : NodeId) : BuilderM C Unit := do
  let sourceNode ← node source
  let targetNode ← node target
  if ¬ (isData sourceNode && isData targetNode ||
      isData sourceNode && targetNode.type = .INSTRUCTION ||
      isData targetNode && sourceNode.type = .INSTRUCTION) then
    throw (.status .INVALID_ARGUMENT
      ("Data edge must connect either an instruction with data OR data with an instruction. "
        ++ "Source has type " ++ Type_Name sourceNode.type ++ " and target has type "
        ++ Type_Name targetNode.type))
  AddEdge .DATA position source target

def AddCallEdge (source target : NodeId) : BuilderM C Unit := do
  let sourceNode ← node source
  let targetNode ← node target
  if sourceNode.type ≠ .INSTRUCTION then
    throw (.status .INVALID_ARGUMENT
      ("Invalid call source type (" ++ Type_Name sourceNode.type ++ "). Expected instruction"))
  if targetNode.type ≠ .INSTRUCTION then
    throw (.status .INVALID_ARGUMENT
      ("Invalid call target type (" ++ Type_Name targetNode.type ++ "). Expected instruction"))
  AddEdge .CALL 0 source target

def rootNode : NodeId := 0

/-- The elements of the sets are found in some order; the last one added is reported. -/
def ValidateGraph : BuilderM C Unit := do
  let b ← get
  match b.emptyModules with
  | module :: _ =>
    throw (.status .FAILED_PRECONDITION
      ("Module `" ++ (((b.graph.module[module]?).map Module.name).getD "") ++ "` is empty"))
  | [] => pure ()
  match b.emptyFunctions with
  | function :: _ =>
    throw (.status .FAILED_PRECONDITION
      ("Function `" ++ (((b.graph.function[function]?).map Function.name).getD "") ++ "` is empty"))
  | [] => pure ()
  match b.unconnectedNodes with
  | address :: _ => do
    let node ← node address
    throw (.status .FAILED_PRECONDITION
      (Type_Name node.type ++ " has no connections: `" ++ node.text ++ "`"))
  | [] => pure ()

/-- `Build` of the base class -/
def finish : BuilderM C ProgramGraph := do
  if (← get).options.strict then ValidateGraph
  return (← get).graph

def Clear (b : Builder C) : Builder C := { b with
  graph := ⟨[], [], [], [], none⟩
  emptyModules := []
  emptyFunctions := []
  unconnectedNodes := [] }

def new (options : ProgramGraphOptions) : Builder C where
  options := options
  graph := ⟨[⟨.INSTRUCTION, "[external]", 0, 0, none⟩], [], [], [], none⟩
  emptyModules := []
  emptyFunctions := []
  unconnectedNodes := [rootNode]
  blockCount := 0
  callSites := []
  constants := []

end Builder

end NeuroMerge.Graph
