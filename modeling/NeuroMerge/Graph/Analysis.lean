import Mathlib.Data.Finset.Union
import NeuroMerge.Foundations.Outcome
import NeuroMerge.Graph.ProgramGraph

/-!
# Data-flow analyses

The analyses of `programl/graph/analysis`, which label the nodes of a program graph
for a root node.
-/

namespace NeuroMerge.Graph.Analysis

open List

open Classifier (Flow Feature)

/-- An index out of bounds is undefined. -/
inductive Fault where
  | outOfRange
  | notConverged
  | outOfFuel
  deriving DecidableEq

def CreateFeature (value : Int) : Feature := .int64_list [value]

/-- One of the lists of `ComputeAdjacencies`: each edge of the flow is filed under one of
its ends. -/
def ComputeAdjacencies (graph : ProgramGraph) (flow : Flow) (key value : Edge → Int) :
    Except Fault (Int → List Int) :=
  let edges := graph.edge.filter (·.flow = flow)
  if ∀ edge ∈ edges, 0 ≤ key edge ∧ key edge < graph.node.length then
    pure fun i => (edges.filter (key · = i)).map value
  else throw .outOfRange

def indices (graph : ProgramGraph) : List Int := (List.range graph.node.length).map Int.ofNat

def nodeAt (graph : ProgramGraph) (i : Int) : Option Node := graph.node[i.toNat]?

/-- The indices behind that of the program root. -/
def GetInstructionsInFunctionsNodeIndices (graph : ProgramGraph) : List Int :=
  (indices graph).filter fun i => i ≠ 0 ∧ (nodeAt graph i).map Node.type = some .INSTRUCTION

/-- What `RunOne` adds: a feature of each kind for each node, and two for the graph. -/
structure RootFeatures where
  dataFlowRootNode : List Feature
  dataFlowValue : List Feature
  dataFlowStepCount : Feature
  dataFlowActiveNodeCount : Feature

def RootFeatures.LabelledTrue (features : RootFeatures) (i : Int) : Prop :=
  features.dataFlowValue[i.toNat]? = some (CreateFeature 1)

def addFeatures (graph : ProgramGraph) (rootNode : Int) (label : Int → Bool) (stepCount : Int) :
    RootFeatures where
  dataFlowRootNode := (indices graph).map fun i => CreateFeature (if i = rootNode then 1 else 0)
  dataFlowValue := (indices graph).map fun i => CreateFeature (if label i then 1 else 0)
  dataFlowStepCount := CreateFeature stepCount
  dataFlowActiveNodeCount := CreateFeature ((indices graph).countP label)

theorem labelledTrue_addFeatures {graph : ProgramGraph} {rootNode i stepCount : Int} {label : Int → Bool} (inside : i ∈ indices graph) :
    (addFeatures graph rootNode label stepCount).LabelledTrue i ↔ label i = true := by
  obtain ⟨place, within, rfl⟩ := List.mem_map.mp inside
  rw [mem_range] at within
  simp [RootFeatures.LabelledTrue, addFeatures, CreateFeature, indices, within]

/-! ## Dominance -/

/-- `instructionsInFunction`, which are nodes of any type. -/
def instructionsInFunction (graph : ProgramGraph) (function : Int) : List Int :=
  (indices graph).filter fun i => i ≠ 0 ∧ (nodeAt graph i).map Node.function = some function

/-- The empty set for what is not in the map. -/
abbrev Dominators := Int → Finset Int

structure Progress where
  dominators : Dominators
  dataFlowSteps : Nat
  changed : Bool

section ComputeDominators

variable (rcfg : Int → List Int) (instructions : List Int) (rootNode : Int)

def initialDominators : Dominators := fun node =>
  if node ∉ instructions then ∅
  else if node = rootNode then {rootNode}
  else instructions.toFinset.erase rootNode

def newDom (dominators : Dominators) (node : Int) : Finset Int :=
  let predecessors := rcfg node
  insert node ((predecessors.toFinset.biUnion dominators).filter fun d =>
    predecessors.countP (d ∈ dominators ·) = predecessors.length)

def visit (state : Progress) (node : Int) : Except Fault Progress :=
  if node = rootNode then pure state
  else
    let newDom := newDom rcfg state.dominators node
    if newDom = state.dominators node then pure state
    else if state.dataFlowSteps + 1 > 1000 then throw .notConverged
    else pure ⟨Function.update state.dominators node newDom, state.dataFlowSteps + 1, true⟩

/-- The loop of `ComputeDominators`. -/
def iterate : Nat → Progress → Except Fault Progress
  | 0, _ => throw .outOfFuel
  | fuel + 1, state => do
    let state ← instructions.foldlM (visit rcfg rootNode) { state with changed := false }
    if state.changed then iterate fuel state else pure state

end ComputeDominators

/-- `Init` and `RunOne` of `DominanceAnalysis`. -/
def dominanceRunOne (fuel : Nat) (graph : ProgramGraph) (rootNode : Int) :
    Except Fault RootFeatures := do
  let rcfg ← ComputeAdjacencies graph .CONTROL Edge.target Edge.source
  match nodeAt graph rootNode with
  | none => throw .outOfRange
  | some root => do
    let instructions := instructionsInFunction graph root.function
    let state ← iterate rcfg instructions rootNode fuel
      ⟨initialDominators instructions rootNode, 0, true⟩
    pure (addFeatures graph rootNode (fun i => rootNode ∈ state.dominators i) state.dataFlowSteps)

/-- The types of the nodes do not matter. -/
def Control (graph : ProgramGraph) (x y : Int) : Prop :=
  ∃ edge ∈ graph.edge, edge.flow = .CONTROL ∧ edge.source = x ∧ edge.target = y

/-- A path along control edges, the last node first, from a node of the function that has no
predecessor in it. -/
inductive ControlPath (graph : ProgramGraph) (function : Int) : List Int → Int → Prop
  | entry {e : Int} : e ∈ instructionsInFunction graph function →
      (∀ p, Control graph p e → p ∉ instructionsInFunction graph function) →
      ControlPath graph function [e] e
  | step {path : List Int} {p b : Int} : ControlPath graph function path p → Control graph p b →
      ControlPath graph function (b :: path) b

def Reachable (graph : ProgramGraph) (function b : Int) : Prop :=
  ∃ path, ControlPath graph function path b

def Dominates (graph : ProgramGraph) (function a b : Int) : Prop :=
  ∀ path, ControlPath graph function path b → a ∈ path

/-- Every walk back along control edges comes to the root node, and does not leave the function
before that. -/
inductive ComesTo (graph : ProgramGraph) (function rootNode : Int) : Int → Prop
  | here : ComesTo graph function rootNode rootNode
  | back {b : Int} : b ∈ instructionsInFunction graph function → (∃ p, Control graph p b) →
      (∀ p, Control graph p b → ComesTo graph function rootNode p) →
      ComesTo graph function rootNode b

section Dominance

variable {graph : ProgramGraph} {function rootNode : Int} {rcfg : Int → List Int}
  {dominators : Dominators} {state after : Progress} {node b : Int}

theorem mem_adjacencies
    (computed : ComputeAdjacencies graph .CONTROL Edge.target Edge.source = .ok rcfg) (x y : Int) : x ∈ rcfg y ↔ Control graph x y := by
  rw [ComputeAdjacencies] at computed
  split at computed
  · cases computed
    simp only [mem_map, mem_filter, decide_eq_true_eq, Control]
    constructor
    · rintro ⟨edge, ⟨⟨inside, flow⟩, target⟩, source⟩
      exact ⟨edge, inside, flow, source, target⟩
    · rintro ⟨edge, inside, flow, source, target⟩
      exact ⟨edge, ⟨⟨inside, flow⟩, target⟩, source⟩
  · cases computed

theorem visit_cases (runs : visit rcfg rootNode state node = .ok after) :
    (after = state ∧
      (node = rootNode ∨ newDom rcfg state.dominators node = state.dominators node)) ∨
    (node ≠ rootNode ∧ after.changed = true ∧
      after.dominators = Function.update state.dominators node (newDom rcfg state.dominators node)) := by
  rw [visit] at runs
  by_cases isRoot : node = rootNode
  · rw [if_pos isRoot] at runs
    cases runs
    exact .inl ⟨rfl, .inl isRoot⟩
  by_cases same : newDom rcfg state.dominators node = state.dominators node
  · simp only [if_neg isRoot, if_pos same] at runs
    cases runs
    exact .inl ⟨rfl, .inr same⟩
  simp only [if_neg isRoot, if_neg same] at runs
  by_cases long : state.dataFlowSteps + 1 > 1000
  · rw [if_pos long] at runs
    cases runs
  · rw [if_neg long] at runs
    cases runs
    exact .inr ⟨isRoot, rfl, rfl⟩

/-- The root node is in sets of nodes from which every walk back comes to it, and in its own. -/
structure Sound (graph : ProgramGraph) (function rootNode : Int) (dominators : Dominators) :
    Prop where
  comes : ∀ b, rootNode ∈ dominators b → ComesTo graph function rootNode b
  root : rootNode ∈ dominators rootNode

theorem sound_initial (inside : rootNode ∈ instructionsInFunction graph function) :
    Sound graph function rootNode (initialDominators (instructionsInFunction graph function) rootNode) := by
  constructor
  · intro b member
    rw [initialDominators] at member
    split at member
    · cases member
    split at member
    · exact ‹b = rootNode› ▸ .here
    · exact absurd rfl (Finset.ne_of_mem_erase member)
  · rw [initialDominators, if_neg (not_not.mpr inside), if_pos rfl]
    exact Finset.mem_singleton_self _

section Linked

variable (linked : ∀ x y, x ∈ rcfg y ↔ Control graph x y)
include linked

theorem root_mem_newDom (other : node ≠ rootNode) : rootNode ∈ newDom rcfg dominators node ↔
    (∃ p, Control graph p node) ∧ ∀ p, Control graph p node → rootNode ∈ dominators p := by
  rw [newDom, Finset.mem_insert, Finset.mem_filter, Finset.mem_biUnion, countP_eq_length]
  simp only [mem_toFinset, decide_eq_true_eq, linked]
  constructor
  · rintro (same | ⟨⟨p, control, _⟩, all⟩)
    · exact absurd same.symm other
    · exact ⟨⟨p, control⟩, all⟩
  · rintro ⟨⟨p, control⟩, all⟩
    exact .inr ⟨⟨p, control, all p control⟩, all⟩

theorem Sound.update (sound : Sound graph function rootNode dominators)
    (inside : node ∈ instructionsInFunction graph function) (other : node ≠ rootNode) :
    Sound graph function rootNode (Function.update dominators node (newDom rcfg dominators node)) := by
  constructor
  · intro b member
    by_cases same : b = node
    · subst same
      rw [Function.update_self, root_mem_newDom linked other] at member
      exact .back inside member.1 fun p control => sound.comes p (member.2 p control)
    · rw [Function.update_of_ne same] at member
      exact sound.comes b member
  · rw [Function.update_of_ne other.symm]
    exact sound.root

theorem round_spec {nodes : List Int} (sound : Sound graph function rootNode state.dominators)
    (inside : ∀ node ∈ nodes, node ∈ instructionsInFunction graph function)
    (runs : nodes.foldlM (visit rcfg rootNode) state = .ok after) :
    Sound graph function rootNode after.dominators ∧ (after.changed = false →
      after = state ∧ ∀ node ∈ nodes, node = rootNode ∨ newDom rcfg state.dominators node = state.dominators node) := by
  induction nodes generalizing state with
  | nil =>
    cases runs
    exact ⟨sound, fun _ => ⟨rfl, nofun⟩⟩
  | cons node nodes ih =>
    obtain ⟨middle, visited, rest⟩ := bind_eq_ok_iff.mp runs
    have later : ∀ next ∈ nodes, next ∈ instructionsInFunction graph function := fun next member => inside next (mem_cons_of_mem _ member)
    rcases visit_cases visited with ⟨rfl, fixedHere⟩ | ⟨other, changed, updated⟩
    · obtain ⟨kept, fixed⟩ := ih sound later rest
      refine ⟨kept, fun still => ?_⟩
      exact ⟨(fixed still).1, forall_mem_cons.mpr ⟨fixedHere, (fixed still).2⟩⟩
    · have soundMiddle := sound.update linked (inside node mem_cons_self) other
      obtain ⟨kept, fixed⟩ := ih (updated ▸ soundMiddle) later rest
      refine ⟨kept, fun still => ?_⟩
      rw [(fixed still).1, changed] at still
      cases still

theorem mem_of_fixed (root : rootNode ∈ dominators rootNode)
    (fixed : ∀ node ∈ instructionsInFunction graph function,
      node = rootNode ∨ newDom rcfg dominators node = dominators node)
    (comes : ComesTo graph function rootNode b) : rootNode ∈ dominators b := by
  induction comes with
  | here => exact root
  | @back b inside some _ before =>
    by_cases isRoot : b = rootNode
    · exact isRoot ▸ root
    · rw [← (fixed b inside).resolve_left isRoot]
      exact (root_mem_newDom linked isRoot).mpr ⟨some, before⟩

theorem iterate_spec {fuel : Nat} (sound : Sound graph function rootNode state.dominators)
    (runs : iterate rcfg (instructionsInFunction graph function) rootNode fuel state = .ok after)
    (b : Int) : rootNode ∈ after.dominators b ↔ ComesTo graph function rootNode b := by
  induction fuel generalizing state with
  | zero => cases runs
  | succ fuel ih =>
    obtain ⟨middle, visited, rest⟩ := bind_eq_ok_iff.mp runs
    obtain ⟨kept, fixed⟩ := round_spec linked (by exact sound) (fun _ => id) visited
    by_cases changed : middle.changed = true
    · rw [if_pos changed] at rest
      exact ih kept rest
    rw [if_neg changed] at rest
    cases rest
    obtain ⟨same, fixed⟩ := fixed (Bool.eq_false_iff.mpr changed)
    rw [← same] at fixed
    exact ⟨kept.comes b, mem_of_fixed linked kept.root fixed⟩

end Linked

theorem ComesTo.dominates (root : rootNode ∈ instructionsInFunction graph function)
    (comes : ComesTo graph function rootNode b) : Dominates graph function rootNode b := by
  intro path its
  induction its with
  | entry inside first =>
    cases comes with
    | here => exact mem_singleton_self _
    | back _ some before =>
      obtain ⟨p, control⟩ := some
      cases before p control with
      | here => exact absurd root (first _ control)
      | back member _ _ => exact absurd member (first _ control)
  | step _ control ih =>
    cases comes with
    | here => exact mem_cons_self
    | back _ _ before => exact mem_cons_of_mem _ (ih (before _ control))

/-- Reachable instructions of the function of a node are labelled if and only if all paths to
them pass through it. -/
def LabelsDominated (graph : ProgramGraph) (rootNode : Int) (features : RootFeatures) : Prop :=
  ∀ root ∈ nodeAt graph rootNode, ∀ b ∈ instructionsInFunction graph root.function,
    (nodeAt graph b).map Node.type = some .INSTRUCTION →
      Reachable graph root.function b →
        (features.LabelledTrue b ↔ Dominates graph root.function rootNode b)

/-- What dominates an instruction is found by walking back from it. -/
theorem labelsDominated_iff {fuel : Nat} {features : RootFeatures}
    (eligible : rootNode ∈ GetInstructionsInFunctionsNodeIndices graph)
    (runs : dominanceRunOne fuel graph rootNode = .ok features) :
    LabelsDominated graph rootNode features ↔
      ∀ root ∈ nodeAt graph rootNode, ∀ b ∈ instructionsInFunction graph root.function,
        (nodeAt graph b).map Node.type = some .INSTRUCTION →
          Reachable graph root.function b → Dominates graph root.function rootNode b →
            ComesTo graph root.function rootNode b := by
  obtain ⟨rcfg, computed, runs⟩ := bind_eq_ok_iff.mp runs
  cases found : nodeAt graph rootNode with
  | none =>
    rw [found] at runs
    cases runs
  | some root =>
    rw [found] at runs
    obtain ⟨after, iterated, same⟩ := bind_eq_ok_iff.mp runs
    cases same
    have inside : rootNode ∈ instructionsInFunction graph root.function := by
      rw [GetInstructionsInFunctionsNodeIndices, mem_filter] at eligible
      rw [instructionsInFunction, mem_filter, found]
      simpa using ⟨eligible.1, (of_decide_eq_true eligible.2).1⟩
    have labelled : ∀ b ∈ instructionsInFunction graph root.function,
        (addFeatures graph rootNode (fun i => decide (rootNode ∈ after.dominators i))
          after.dataFlowSteps).LabelledTrue b ↔ ComesTo graph root.function rootNode b := by
      intro b member
      rw [labelledTrue_addFeatures (mem_of_mem_filter member), decide_eq_true_eq]
      exact iterate_spec (mem_adjacencies computed) (sound_initial inside) iterated b
    rw [LabelsDominated, found]
    refine forall₂_congr fun other same => forall₂_congr fun b member => ?_
    obtain rfl := Option.some.inj same
    refine forall₂_congr fun _ _ => ?_
    rw [labelled b member]
    exact ⟨fun both => both.mpr, fun comes => ⟨fun its => its.dominates inside, comes⟩⟩

def twoInstructions (more : List Edge) : ProgramGraph where
  node := ⟨.INSTRUCTION, "[external]", -1, -1, none⟩ ::
    ["a", "b"].map (⟨.INSTRUCTION, ·, 0, 0, none⟩)
  edge := ⟨.CALL, 0, 0, 1, none⟩ :: ⟨.CONTROL, 0, 1, 2, none⟩ :: more
  function := [⟨"fn", 0, none⟩]
  module := [⟨"mod", none⟩]
  features := none

theorem labelsDominated_iff_sample :
    LabelsDominated (twoInstructions []) 1 (addFeatures (twoInstructions []) 1 (0 < ·) 1) := by
  apply (labelsDominated_iff (by decide)
    (show dominanceRunOne 2 (twoInstructions []) 1 = .ok _ from rfl)).mpr
  rintro root ⟨⟩ b inside _ _ _
  have cases : b = 1 ∨ b = 2 := by
    simpa [show instructionsInFunction (twoInstructions []) 0 = [1, 2] by decide] using inside
  rcases cases with rfl | rfl
  · exact .here
  · refine .back inside ⟨1, ⟨.CONTROL, 0, 1, 2, none⟩, by decide, rfl, rfl, rfl⟩ ?_
    rintro p ⟨edge, member, flow, rfl, target⟩
    obtain rfl : edge = ⟨.CONTROL, 0, 1, 2, none⟩ := by
      revert edge
      decide
    exact .here

/-- The second instruction branches to itself. -/
theorem loop_unlabelled : ∃ features,
    dominanceRunOne 1 (twoInstructions [⟨.CONTROL, 0, 2, 2, none⟩]) 1 = .ok features ∧
      ¬ LabelsDominated (twoInstructions [⟨.CONTROL, 0, 2, 2, none⟩]) 1 features := by
  refine ⟨addFeatures _ 1 (· = 1) 0, rfl, fun labels => ?_⟩
  have control : Control (twoInstructions [⟨.CONTROL, 0, 2, 2, none⟩]) 1 2 :=
    ⟨⟨.CONTROL, 0, 1, 2, none⟩, by decide, rfl, rfl, rfl⟩
  have entry : ControlPath (twoInstructions [⟨.CONTROL, 0, 2, 2, none⟩]) 0 [1] 1 :=
    .entry (by decide) (by
      rintro p ⟨edge, member, flow, rfl, target⟩
      revert edge
      decide)
  have dominates : ∀ b, Dominates (twoInstructions [⟨.CONTROL, 0, 2, 2, none⟩]) 0 1 b := by
    intro b path its
    induction its with
    | @entry e inside first =>
      have cases : e = 1 ∨ e = 2 := by
        simpa [show instructionsInFunction (twoInstructions [⟨.CONTROL, 0, 2, 2, none⟩]) 0 =
          [1, 2] by decide] using inside
      rcases cases with rfl | rfl
      · exact mem_singleton_self _
      · exact absurd (by decide) (first 1 control)
    | step _ _ ih => exact mem_cons_of_mem _ ih
  have labelled := (labels _ rfl 2 (by decide) rfl ⟨_, entry.step control⟩).mpr (dominates 2)
  exact absurd ((labelledTrue_addFeatures (by decide)).mp labelled) (by decide)

end Dominance

end NeuroMerge.Graph.Analysis
