import NeuroMerge.Foundations.Json
import NeuroMerge.Foundations.Places
import Mathlib.Data.Finset.Basic

/-!
# The merge graph

Program graphs, whose parts refer to each other by their places, and how a merge graph is
cut out of one.
-/

namespace NeuroMerge.Classifier

inductive NodeType where
  | INSTRUCTION
  | VARIABLE
  | CONSTANT
  deriving DecidableEq

inductive Flow where
  | CONTROL
  | DATA
  | CALL
  deriving DecidableEq

inductive Feature where
  | bytes_list (value : List (List UInt8))
  | float_list (value : List (BitVec 32))
  | int64_list (value : List Int)
  deriving DecidableEq

abbrev Features : Type := List (String × Feature)

structure Node where
  type : NodeType
  text : String
  function : Nat
  block : Nat
  features : Features
  deriving DecidableEq

structure Edge where
  flow : Flow
  position : Nat
  source : Nat
  target : Nat
  features : Features
  deriving DecidableEq

structure Function where
  name : String
  module : Nat
  features : Features
  deriving DecidableEq

structure Module where
  name : String
  features : Features
  deriving DecidableEq

structure ProgramGraph where
  node : List Node
  edge : List Edge
  function : List Function
  module : List Module
  features : Features
  deriving DecidableEq

structure ProgramGraph.WellFormed (graph : ProgramGraph) : Prop where
  node : ∀ node ∈ graph.node, node.function < graph.function.length
  edge : ∀ edge ∈ graph.edge, edge.source < graph.node.length ∧ edge.target < graph.node.length
  function : ∀ function ∈ graph.function, function.module < graph.module.length

/-- `features.feature["full_text"].bytes_list.value`, which is empty where there is no
such feature or it is of another kind. -/
def Node.fullText (node : Node) : List (List UInt8) :=
  match node.features.lookup "full_text" with
  | some (.bytes_list value) => value
  | _ => []

def mergePointToken : List UInt8 :=
  "<MERGE_POINT_BLOCK> ".toUTF8.toList

def Node.setFullText (node : Node) (value : List (List UInt8)) : Node :=
  { node with
    features := node.features.map fun (key, feature) =>
      if key = "full_text" then (key, .bytes_list value) else (key, feature) }

section Trim

variable (node_ids_to_keep : Finset Nat) (isolates : List Nat) (old_merge_point_node_id : Nat)
  (old_merge_point_block_nodes : List Nat)

structure NodeLoop where
  nodes : List Node
  node_ids_mapping : List (Nat × Nat)
  function_ids_to_keep : List Nat

/-- The token that indicates the merge point is put before the text of a node of its
block. -/
def insertToken (i : Nat) (node : Node) : Except PyError Node :=
  if i ∈ old_merge_point_block_nodes then
    match node.fullText with
    | [] => .error .indexError
    | text :: rest => .ok (node.setFullText ((mergePointToken ++ text) :: rest))
  else
    .ok node

def visitNode (loop : NodeLoop) (entry : Node × Nat) : Except PyError NodeLoop :=
  if entry.2 ∈ node_ids_to_keep ∧ entry.2 ∉ isolates then do
    let node ← insertToken old_merge_point_block_nodes entry.2 entry.1
    .ok
      { nodes := loop.nodes ++ [node]
        node_ids_mapping := loop.node_ids_mapping ++ [(entry.2, loop.nodes.length)]
        function_ids_to_keep := loop.function_ids_to_keep ++ [node.function] }
  else
    .ok loop

def renumberEdge (node_ids_mapping : List (Nat × Nat)) (edge : Edge) : Option Edge := do
  let source ← node_ids_mapping.lookup edge.source
  let target ← node_ids_mapping.lookup edge.target
  some { edge with source := source, target := target }

def trim (merge_graph : ProgramGraph) : Except PyError (ProgramGraph × Nat) := do
  let loop ← merge_graph.node.zipIdx.foldlM
    (visitNode node_ids_to_keep isolates old_merge_point_block_nodes) ⟨[], [], []⟩
  let edges := merge_graph.edge.filterMap (renumberEdge loop.node_ids_mapping)
  let functions := Places.select (· ∈ loop.function_ids_to_keep) merge_graph.function
  let module_ids_to_keep := functions.map (·.module)
  let modules := Places.select (· ∈ module_ids_to_keep) merge_graph.module
  match loop.node_ids_mapping.lookup old_merge_point_node_id with
  | none => .error .keyError
  | some merge_point =>
    .ok ({ merge_graph with
            node := loop.nodes
            edge := edges
            function := functions
            module := modules },
      merge_point)

abbrev Graphs : Type := List ProgramGraph

/-- The graphs afterwards, the reference to the merge graph, and the merge point. -/
def gen_merge_graph_in_programl_format (graphs : Graphs) (programl_graph : Fin graphs.length) :
    Except PyError (Graphs × Nat × Nat) := do
  -- `deepcopy` is a new graph, on which all the steps work.
  let (merge_graph, merge_point) ← trim node_ids_to_keep isolates old_merge_point_node_id
    old_merge_point_block_nodes (graphs.get programl_graph)
  .ok (graphs ++ [merge_graph], graphs.length, merge_point)

end Trim

end NeuroMerge.Classifier
