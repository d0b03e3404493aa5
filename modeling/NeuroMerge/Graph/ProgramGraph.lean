import NeuroMerge.Classifier.MergeGraph

/-!
# Program graphs

The messages of `program_graph.proto` and `features.proto`, with unset fields.
-/

namespace NeuroMerge

def Classifier.NodeType.number : Classifier.NodeType → Int
  | .INSTRUCTION => 0
  | .VARIABLE => 1
  | .CONSTANT => 2

def Classifier.Flow.number : Classifier.Flow → Int
  | .CONTROL => 0
  | .DATA => 1
  | .CALL => 2

namespace Graph

open Classifier (NodeType Flow Feature)

/-- A feature may have no kind. -/
structure Features where
  feature : List (String × Option Feature)
  deriving DecidableEq

structure Node where
  type : NodeType
  text : String
  function : Int
  block : Int
  features : Option Features
  deriving DecidableEq

structure Edge where
  flow : Flow
  position : Int
  source : Int
  target : Int
  features : Option Features
  deriving DecidableEq

structure Function where
  name : String
  module : Int
  features : Option Features
  deriving DecidableEq

structure Module where
  name : String
  features : Option Features
  deriving DecidableEq

structure ProgramGraph where
  node : List Node
  edge : List Edge
  function : List Function
  module : List Module
  features : Option Features
  deriving DecidableEq

end Graph

end NeuroMerge
