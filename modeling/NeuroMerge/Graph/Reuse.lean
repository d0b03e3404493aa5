import NeuroMerge.Foundations.Fuel
import NeuroMerge.Graph.BuilderProperties

/-!
# Using a builder again

What waits for a part is kept in step with the graph, so that a strict builder refuses what is
incomplete. A builder that has been cleared has lost its root node.
-/

namespace NeuroMerge.Graph

open List Builder

open Classifier (NodeType Flow)

variable {C : Type}

/-- The operations of the builder, with the addresses of what it has made. -/
inductive Operation where
  | addModule (name : String)
  | addFunction (name : String) (module : Nat)
  | addInstruction (text : String) (function : Nat)
  | addVariable (text : String) (function : Nat)
  | addConstant (text : String)
  | addControlEdge (position : Int) (source target : NodeId)
  | addDataEdge (position : Int) (source target : NodeId)
  | addCallEdge (source target : NodeId)
  | getRootNode
  | build

inductive Response where
  | address (index : Nat)
  | edge
  | node (node : Node)
  | graph (graph : ProgramGraph)
  deriving DecidableEq

namespace Operation

def program : Operation → BuilderM C Response
  | addModule name => .address <$> Builder.AddModule name
  | addFunction name module => .address <$> Builder.AddFunction name module
  | addInstruction text function => .address <$> Builder.AddInstruction text function
  | addVariable text function => .address <$> Builder.AddVariable text function
  | addConstant text => .address <$> Builder.AddConstant text
  | addControlEdge position source target =>
    (fun _ => .edge) <$> Builder.AddControlEdge position source target
  | addDataEdge position source target =>
    (fun _ => .edge) <$> Builder.AddDataEdge position source target
  | addCallEdge source target => (fun _ => .edge) <$> Builder.AddCallEdge source target
  | getRootNode => .node <$> Builder.node Builder.rootNode
  | build => .graph <$> Builder.finish

/-- The addresses are those of elements that the builder has made. -/
def Valid (b : Builder C) : Operation → Prop
  | addFunction _ module => module < b.graph.module.length
  | addInstruction _ function | addVariable _ function => function < b.graph.function.length
  | addControlEdge _ source target | addDataEdge _ source target | addCallEdge source target =>
    source < b.graph.node.length ∧ target < b.graph.node.length
  | _ => True

end Operation

namespace Builder

/-- An operation that fails leaves the builder as it is. -/
def perform (b : Builder C) (operation : Operation) : Except Fault Response × Builder C :=
  match operation.program.run b with
  | .ok (response, b') => (.ok response, b')
  | .error fault => (.error fault, b)

def responses (b : Builder C) : List Operation → List (Except Fault Response)
  | [] => []
  | operation :: operations =>
    (b.perform operation).1 :: (b.perform operation).2.responses operations

/-- The builders that additions and builds lead to. -/
inductive Reached (options : ProgramGraphOptions) : Builder C → Prop
  | new : Reached options (new options)
  | perform {b : Builder C} {operation : Operation} : Reached options b → operation.Valid b →
    Reached options (b.perform operation).2

end Builder

/-! ## What waits for a part -/

/-- Of `count` elements those wait that have not met the criterion. -/
structure Awaits (waiting : List Nat) (count : Nat) (met : Nat → Prop) : Prop where
  nodup : waiting.Nodup
  mem : ∀ i, i ∈ waiting ↔ i < count ∧ ¬ met i
  inside : ∀ i, met i → i < count

namespace Awaits

variable {waiting : List Nat} {count k : Nat} {met met' : Nat → Prop}

theorem grow (awaits : Awaits waiting count met) : Awaits (count :: waiting) (count + 1) met where
  nodup := nodup_cons.mpr ⟨fun member => Nat.lt_irrefl _ ((awaits.mem count).mp member).1, awaits.nodup⟩
  mem i := by
    have fresh : i = count → ¬ met i := fun same isMet =>
      Nat.lt_irrefl _ (same ▸ awaits.inside i isMet)
    rw [mem_cons, awaits.mem, Nat.lt_succ_iff_lt_or_eq]
    tauto
  inside i isMet := Nat.lt_succ_of_lt (awaits.inside i isMet)

theorem meet (awaits : Awaits waiting count met) (within : k < count)
    (meets : ∀ i, met' i ↔ met i ∨ i = k) : Awaits (waiting.erase k) count met' where
  nodup := awaits.nodup.erase k
  mem i := by
    rw [awaits.nodup.mem_erase_iff, awaits.mem, meets]
    tauto
  inside i isMet := by
    cases (meets i).mp isMet with
    | inl before => exact awaits.inside i before
    | inr same => exact same ▸ within

theorem congr (awaits : Awaits waiting count met) (same : ∀ i, met' i ↔ met i) : Awaits waiting count met' := by
  obtain rfl : met' = met := funext fun i => propext (same i)
  exact awaits

theorem eq_nil_iff (awaits : Awaits waiting count met) : waiting = [] ↔ ∀ i < count, met i := by
  rw [eq_nil_iff_forall_not_mem]
  refine forall_congr' fun i => ?_
  rw [awaits.mem]
  tauto

end Awaits

namespace ProgramGraph

variable (graph : ProgramGraph)

def HasFunction (module : Nat) : Prop := ∃ f ∈ graph.function, f.module = module

/-- The root and the constants belong to no function. -/
def HasNode (function : Nat) : Prop :=
  ∃ node ∈ graph.node.tail, node.type ≠ .CONSTANT ∧ node.function = function

def Connected (node : Nat) : Prop := ∃ edge ∈ graph.edge, edge.source = node ∨ edge.target = node

def Complete : Prop :=
  (∀ module < graph.module.length, graph.HasFunction module) ∧
    (∀ function < graph.function.length, graph.HasNode function) ∧
    ∀ node < graph.node.length, node ≠ Builder.rootNode → graph.Connected node

end ProgramGraph

/-- The graph has a root, and the sets of the builder are what waits for a part. -/
structure Pending (b : Builder C) : Prop where
  root : b.graph.node ≠ []
  modules : Awaits b.emptyModules b.graph.module.length b.graph.HasFunction
  functions : Awaits b.emptyFunctions b.graph.function.length b.graph.HasNode
  nodes : Awaits b.unconnectedNodes b.graph.node.length b.graph.Connected

section Operations

variable {b : Builder C} {options : ProgramGraphOptions}

theorem Pending.new : Pending (Builder.new options : Builder C) where
  root := cons_ne_nil _ _
  modules := ⟨nodup_nil, by simp [Builder.new], by simp [Builder.new, ProgramGraph.HasFunction]⟩
  functions := ⟨nodup_nil, by simp [Builder.new], by simp [Builder.new, ProgramGraph.HasNode]⟩
  nodes := ⟨nodup_singleton _, by simp [Builder.new, rootNode, ProgramGraph.Connected], by simp [Builder.new, ProgramGraph.Connected]⟩

theorem Pending.addModule (pending : Pending b) (name : String) : Pending (b.perform (.addModule name)).2 := by
  refine ⟨pending.root, ?_, pending.functions, pending.nodes⟩
  change Awaits _ (b.graph.module ++ [(⟨name, none⟩ : Module)]).length _
  rw [length_append]
  exact pending.modules.grow

theorem Pending.addFunction (pending : Pending b) (name : String) {module : Nat} (valid : module < b.graph.module.length) :
    Pending (b.perform (.addFunction name module)).2 := by
  refine ⟨pending.root, pending.modules.meet valid fun i => ?_, ?_, pending.nodes⟩
  · change (∃ f ∈ b.graph.function ++ [(⟨name, module, none⟩ : Function)], f.module = (i : Int)) ↔ _
    simp only [mem_append, mem_singleton, or_and_right, exists_or, exists_eq_left, Nat.cast_inj, @eq_comm _ module]
    exact Iff.rfl
  · change Awaits _ (b.graph.function ++ [(⟨name, module, none⟩ : Function)]).length _
    rw [length_append]
    exact pending.functions.grow

theorem hasNode_append (root : b.graph.node ≠ []) (added : Node) (function : Nat) :
    { b.graph with node := b.graph.node ++ [added] }.HasNode function ↔
      b.graph.HasNode function ∨ added.type ≠ .CONSTANT ∧ added.function = function := by
  rw [ProgramGraph.HasNode, tail_append_of_ne_nil root]
  simp only [mem_append, mem_singleton, or_and_right, exists_or, exists_eq_left]
  exact Iff.rfl

theorem Pending.addConstant (pending : Pending b) (text : String) : Pending (b.perform (.addConstant text)).2 := by
  refine ⟨append_ne_nil_of_left_ne_nil pending.root _, pending.modules, pending.functions.congr fun function => ?_, ?_⟩
  · refine (hasNode_append pending.root ⟨.CONSTANT, text, 0, 0, none⟩ function).trans ?_
    simp
  · change Awaits _ (b.graph.node ++ [(⟨.CONSTANT, text, 0, 0, none⟩ : Node)]).length _
    rw [length_append]
    exact pending.nodes.grow

theorem Pending.addNodeTo (pending : Pending b) {type : NodeType} (text : String) {function : Nat}
    (varies : type ≠ .CONSTANT) (valid : function < b.graph.function.length) :
    Ensures (Builder.AddNodeTo type text function) b fun _ b' => Pending b' := by
  refine ⟨_, _, rfl, ?_⟩
  dsimp only
  rw [modify_length_append]
  refine ⟨append_ne_nil_of_left_ne_nil pending.root _, pending.modules, pending.functions.meet valid fun i => ?_, ?_⟩
  · refine (hasNode_append pending.root ⟨type, text, function, 0, none⟩ i).trans ?_
    simp [varies, @eq_comm _ function]
  · rw [length_append]
    exact pending.nodes.grow

theorem Pending.addEdge (pending : Pending b) (flow : Flow) (position : Int)
    {source target : NodeId} (validSource : source < b.graph.node.length) (validTarget : target < b.graph.node.length) :
    Ensures (Builder.AddEdge flow position source target) b fun _ b' => Pending b' := by
  refine ⟨_, _, rfl, pending.root, pending.modules, pending.functions, ?_⟩
  have half := pending.nodes.meet validSource fun i => Iff.rfl
  refine half.meet validTarget fun i => ?_
  change (∃ edge ∈ b.graph.edge ++ [⟨flow, position, source, target, none⟩], _) ↔ _
  simp only [mem_append, mem_singleton, or_and_right, exists_or, exists_eq_left,
    Nat.cast_inj, @eq_comm _ source, @eq_comm _ target, or_assoc]
  exact Iff.rfl

/-- The program leaves a builder in step behind, or fails. -/
def Leaves {α : Type} (program : BuilderM C α) (b : Builder C) : Prop :=
  Ensures program b (fun _ b' => Pending b') ∨ ∃ fault, program.run b = .error fault

theorem Leaves.perform {α : Type} {program : BuilderM C α} {apply : α → Response}
    {operation : Operation} (leaves : Leaves program b) (pending : Pending b)
    (same : operation.program = apply <$> program) : Pending (b.perform operation).2 := by
  rw [Builder.perform, same, StateT.run_map]
  rcases leaves with ⟨value, b', ran, after⟩ | ⟨fault, failed⟩
  · rw [ran]
    exact after
  · rw [failed]
    exact pending

section Edges

variable (pending : Pending b) {source target : NodeId} (valid : source < b.graph.node.length ∧ target < b.graph.node.length)

theorem node_run {address : NodeId} (valid : address < b.graph.node.length) :
    (Builder.node address).run b = .ok (b.graph.node[address], b) := by
  simp only [Builder.node, StateT.run_bind, StateT.run_get, pure_bind, getElem?_eq_getElem valid]
  rfl

include pending valid

theorem leaves_addControlEdge (position : Int) : Leaves (Builder.AddControlEdge position source target) b := by
  rw [Leaves, Ensures]
  simp only [Builder.AddControlEdge, StateT.run_bind, node_run valid.1, node_run valid.2, ok_bind]
  split
  · exact .inr ⟨_, rfl⟩
  · split
    · exact .inr ⟨_, rfl⟩
    · split
      · exact .inr ⟨_, rfl⟩
      · exact .inl (pending.addEdge .CONTROL position valid.1 valid.2)

theorem leaves_addDataEdge (position : Int) : Leaves (Builder.AddDataEdge position source target) b := by
  rw [Leaves, Ensures]
  simp only [Builder.AddDataEdge, StateT.run_bind, node_run valid.1, node_run valid.2, ok_bind]
  split
  · exact .inr ⟨_, rfl⟩
  · exact .inl (pending.addEdge .DATA position valid.1 valid.2)

theorem leaves_addCallEdge : Leaves (Builder.AddCallEdge source target) b := by
  rw [Leaves, Ensures]
  simp only [Builder.AddCallEdge, StateT.run_bind, node_run valid.1, node_run valid.2, ok_bind]
  split
  · exact .inr ⟨_, rfl⟩
  · split
    · exact .inr ⟨_, rfl⟩
    · exact .inl (pending.addEdge .CALL 0 valid.1 valid.2)

end Edges

theorem Pending.complete_iff (pending : Pending b) :
    b.graph.Complete ∧ b.graph.Connected rootNode ↔ b.emptyModules = [] ∧ b.emptyFunctions = [] ∧ b.unconnectedNodes = [] := by
  rw [pending.modules.eq_nil_iff, pending.functions.eq_nil_iff, pending.nodes.eq_nil_iff, ProgramGraph.Complete, and_assoc, and_assoc]
  refine and_congr_right fun _ => and_congr_right fun _ => ⟨fun ⟨others, root⟩ node within => ?_,
    fun all => ⟨fun node within _ => all node within, all 0 (length_pos_of_ne_nil pending.root)⟩⟩
  by_cases same : node = rootNode
  · exact same ▸ root
  · exact others node within same

/-- The elements that wait are in the graph, so that one of them is reported. -/
theorem Pending.validateGraph_run (pending : Pending b) :
    (b.graph.Complete ∧ b.graph.Connected rootNode) ∧ Builder.ValidateGraph.run b = .ok ((), b) ∨
      ¬ (b.graph.Complete ∧ b.graph.Connected rootNode) ∧
        ∃ message, Builder.ValidateGraph.run b = .error (.status .FAILED_PRECONDITION message) := by
  rw [pending.complete_iff]
  cases modules : b.emptyModules with
  | cons module _ =>
    refine .inr ⟨by simp, ?_⟩
    simp only [Builder.ValidateGraph, StateT.run_bind, StateT.run_get, pure_bind, modules]
    exact ⟨_, rfl⟩
  | nil =>
    cases functions : b.emptyFunctions with
    | cons function _ =>
      refine .inr ⟨by simp, ?_⟩
      simp only [Builder.ValidateGraph, StateT.run_bind, StateT.run_get, pure_bind, modules, functions]
      exact ⟨_, rfl⟩
    | nil =>
      cases nodes : b.unconnectedNodes with
      | cons address _ =>
        have within : address < b.graph.node.length := ((pending.nodes.mem address).mp (by simp [nodes])).1
        refine .inr ⟨by simp, ?_⟩
        simp only [Builder.ValidateGraph, StateT.run_bind, StateT.run_get, pure_bind, modules, functions, nodes, node_run within]
        exact ⟨_, rfl⟩
      | nil =>
        refine .inl ⟨by simp, ?_⟩
        simp only [Builder.ValidateGraph, StateT.run_bind, StateT.run_get, pure_bind, modules, functions, nodes]
        rfl

theorem Pending.finish_run (pending : Pending b) :
    (b.options.strict = true → b.graph.Complete ∧ b.graph.Connected rootNode) ∧
        finish.run b = .ok (b.graph, b) ∨
      (b.options.strict = true ∧ ¬ (b.graph.Complete ∧ b.graph.Connected rootNode)) ∧
        ∃ message, finish.run b = .error (.status .FAILED_PRECONDITION message) := by
  cases strict : b.options.strict with
  | false =>
    refine .inl ⟨nofun, ?_⟩
    simp only [finish, StateT.run_bind, StateT.run_get, pure_bind, strict]
    rfl
  | true =>
    simp only [finish, StateT.run_bind, StateT.run_get, pure_bind, strict, if_true]
    rcases pending.validateGraph_run with ⟨complete, ran⟩ | ⟨incomplete, message, ran⟩
    · exact .inl ⟨fun _ => complete, by rw [ran]; rfl⟩
    · exact .inr ⟨⟨trivial, incomplete⟩, message, by rw [ran]; rfl⟩

theorem Pending.perform (pending : Pending b) {operation : Operation} (valid : operation.Valid b) : Pending (b.perform operation).2 := by
  cases operation with
  | addModule name => exact pending.addModule name
  | addFunction name module => exact pending.addFunction name valid
  | addInstruction text function =>
    exact Leaves.perform (.inl (pending.addNodeTo text (by decide) valid)) pending rfl
  | addVariable text function =>
    exact Leaves.perform (.inl (pending.addNodeTo text (by decide) valid)) pending rfl
  | addConstant text => exact pending.addConstant text
  | addControlEdge position source target =>
    exact (leaves_addControlEdge pending valid position).perform pending rfl
  | addDataEdge position source target =>
    exact (leaves_addDataEdge pending valid position).perform pending rfl
  | addCallEdge source target => exact (leaves_addCallEdge pending valid).perform pending rfl
  | getRootNode =>
    exact Leaves.perform (.inl ⟨_, b, node_run (length_pos_of_ne_nil pending.root), pending⟩) pending rfl
  | build =>
    rcases pending.finish_run with ⟨-, built⟩ | ⟨-, message, refused⟩
    · exact Leaves.perform (.inl ⟨_, b, built, pending⟩) pending rfl
    · exact Leaves.perform (.inr ⟨_, refused⟩) pending rfl

theorem Builder.Reached.pending (reached : Reached options b) : Pending b := by
  induction reached with
  | new => exact .new
  | perform _ valid pending => exact pending.perform valid

end Operations

/-! ## Validation -/

section Validation

variable {b : Builder C} {options : ProgramGraphOptions}

/-- `Build` returns an error status. -/
def Refused (b : Builder C) : Prop :=
  ∃ message, (b.perform .build).1 = .error (.status .FAILED_PRECONDITION message)

theorem Pending.refused_iff (pending : Pending b) (strict : b.options.strict = true) :
    Refused b ↔ ¬ (b.graph.Complete ∧ b.graph.Connected rootNode) := by
  have build : (b.perform .build).1 =
      match finish.run b with
      | .ok (graph, _) => .ok (.graph graph)
      | .error fault => .error fault := by
    rw [Builder.perform, Operation.program, StateT.run_map]
    cases finish.run b <;> rfl
  rw [Refused, build]
  rcases pending.finish_run with ⟨complete, built⟩ | ⟨incomplete, message, refused⟩
  · rw [built]
    exact ⟨nofun, fun incomplete => absurd (complete strict) incomplete⟩
  · rw [refused]
    exact ⟨fun _ => incomplete.2, fun _ => ⟨message, rfl⟩⟩

/-- A cleared builder is as good as new, and validation finds what is incomplete. -/
def Reusable (b : Builder C) : Prop :=
  (∀ operations, b.Clear.responses operations =
      (Builder.new b.options : Builder C).responses operations) ∧
    (b.options.strict = true → (Refused b ↔ ¬ b.graph.Complete))

theorem cleared_build_ne (b : Builder C) : b.Clear.responses [.build] ≠ (Builder.new b.options : Builder C).responses [.build] := by
  obtain ⟨options, graph, modules, functions, nodes, blockCount, callSites, constants⟩ := b
  obtain ⟨strict, only, ignore⟩ := options
  cases strict <;> exact nofun

/-- No builder is as good as new once it has been cleared. A strict one finds what is incomplete,
but the root has to be connected as well. -/
theorem not_reusable (reached : Builder.Reached options b) :
    ¬ Reusable b ∧ (b.options.strict = true → ((Refused b ↔ ¬ b.graph.Complete) ↔
      (b.graph.Complete → b.graph.Connected Builder.rootNode))) := by
  refine ⟨fun reusable => cleared_build_ne b (reusable.1 _), fun strict => ?_⟩
  rw [reached.pending.refused_iff strict]
  tauto

/-- A module with a function whose only instruction the root calls, built once. -/
def calledBuilder : Builder Unit :=
  [Operation.addModule "m", .addFunction "f" 0, .addInstruction "ret" 0, .addCallEdge rootNode 1, .build].foldl
    (fun b operation => (b.perform operation).2) (Builder.new ⟨true, false, false⟩)

theorem calledBuilder_reached : Builder.Reached ⟨true, false, false⟩ calledBuilder := by
  refine .perform (.perform (.perform (.perform (.perform .new trivial) ?_) ?_) ?_) trivial
  · exact show 0 < 1 by decide
  · exact show 0 < 1 by decide
  · exact show 0 < 2 ∧ 1 < 2 by decide

theorem not_reusable_sample :
    calledBuilder.graph.edge.length = 1 ∧ ¬ Reusable calledBuilder ∧
      (Refused calledBuilder ↔ ¬ calledBuilder.graph.Complete) := by
  obtain ⟨notReusable, refuses_iff⟩ := not_reusable calledBuilder_reached
  refine ⟨rfl, notReusable, (refuses_iff rfl).mpr fun _ => ?_⟩
  exact ⟨⟨.CALL, 0, 0, 1, none⟩, .head _, .inl rfl⟩

theorem cleared_without_root : ¬ Reusable (Builder.new .default : Builder Unit) := by
  intro reusable
  exact cleared_build_ne _ (reusable.1 [.build])

end Validation

end NeuroMerge.Graph
