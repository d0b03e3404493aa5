import NeuroMerge.Foundations.Stateful
import NeuroMerge.Graph.Picture

/-!
# Drawing nodes and edges

Each step of the builder adds one item or one edge to the picture, or nothing.
-/

namespace NeuroMerge.Graph

open List

open Classifier (NodeType Flow Feature)
open Ir (Place Operand LlvmTextComponents)

variable {C : Type}

/-- What has been drawn: items and edges, and the call sites and the uses of constants that
are put off. -/
@[ext] structure Picture (C : Type) where
  items : Multiset (Item C)
  edges : Multiset (ItemEdge C)
  callSites : Multiset (Item C × Nat)
  constants : Multiset (C × Item C × Nat)

namespace Picture

instance : Zero (Picture C) := ⟨⟨0, 0, 0, 0⟩⟩

instance : Add (Picture C) := ⟨fun p q =>
  ⟨p.items + q.items, p.edges + q.edges, p.callSites + q.callSites, p.constants + q.constants⟩⟩

@[simp] theorem zero_items : (0 : Picture C).items = 0 := rfl
@[simp] theorem zero_edges : (0 : Picture C).edges = 0 := rfl
@[simp] theorem zero_callSites : (0 : Picture C).callSites = 0 := rfl
@[simp] theorem zero_constants : (0 : Picture C).constants = 0 := rfl

@[simp] theorem add_items (p q : Picture C) : (p + q).items = p.items + q.items := rfl
@[simp] theorem add_edges (p q : Picture C) : (p + q).edges = p.edges + q.edges := rfl
@[simp] theorem add_callSites (p q : Picture C) : (p + q).callSites = p.callSites + q.callSites := rfl
@[simp] theorem add_constants (p q : Picture C) : (p + q).constants = p.constants + q.constants := rfl

instance : AddCommMonoid (Picture C) where
  add_assoc p q r := by ext1 <;> simp [add_assoc]
  zero_add p := by ext1 <;> simp
  add_zero p := by ext1 <;> simp
  add_comm p q := by ext1 <;> simp [add_comm]
  nsmul := nsmulRec

def ofItem (item : Item C) : Picture C := ⟨{item}, 0, 0, 0⟩

def ofEdge (edge : ItemEdge C) : Picture C := ⟨0, {edge}, 0, 0⟩

section Parts

variable {picture : Picture C} {item : Item C} {edge : ItemEdge C}

@[simp] theorem ofItem_items : (ofItem item).items = {item} := rfl
@[simp] theorem ofItem_edges : (ofItem item).edges = 0 := rfl
@[simp] theorem ofItem_callSites : (ofItem item).callSites = 0 := rfl
@[simp] theorem ofItem_constants : (ofItem item).constants = 0 := rfl

@[simp] theorem ofEdge_items : (ofEdge edge).items = 0 := rfl
@[simp] theorem ofEdge_edges : (ofEdge edge).edges = {edge} := rfl
@[simp] theorem ofEdge_callSites : (ofEdge edge).callSites = 0 := rfl
@[simp] theorem ofEdge_constants : (ofEdge edge).constants = 0 := rfl

end Parts

end Picture

/-! ## Tables of consumers -/

section Consumers

variable {K : Type} {key : K} {instructionId : String} {consumer : NodeId × Int} {table : List (K × Consumers)}

def uses (table : List (K × Consumers)) : Multiset (K × NodeId × Int) :=
  (table.map fun entry => Multiset.map (fun consumer => (entry.1, consumer)) entry.2.2).sum

theorem mem_uses_keys (used : ∀ entry ∈ table, entry.2.2 ≠ []) : key ∈ (uses table).map Prod.fst ↔ key ∈ table.map Prod.fst := by
  induction table with
  | nil => simp [uses]
  | cons entry rest ih =>
    have later := ih fun e member => used e (mem_cons_of_mem entry member)
    have some : ∃ consumer, consumer ∈ entry.2.2 := exists_mem_of_ne_nil _ (used entry mem_cons_self)
    rw [uses, map_cons, sum_cons, Multiset.map_add, Multiset.mem_add, ← uses, later, map_cons, mem_cons]
    apply or_congr_left
    obtain ⟨consumer, member⟩ := some
    constructor
    · intro found
      obtain ⟨use, inside, rfl⟩ := Multiset.mem_map.mp found
      obtain ⟨consumer, -, rfl⟩ := Multiset.mem_map.mp inside
      rfl
    · rintro rfl
      exact Multiset.mem_map.mpr ⟨(entry.1, consumer), Multiset.mem_map_of_mem _ (Multiset.mem_coe.mpr member), rfl⟩

structure Table (table : List (K × Consumers)) : Prop where
  nodup : (table.map Prod.fst).Nodup
  used : ∀ entry ∈ table, entry.2.2 ≠ []

theorem Table.keys [DecidableEq K] (valid : Table table) : (table.map Prod.fst : Multiset K) = ((uses table).map Prod.fst).dedup := by
  rw [Multiset.Nodup.ext (Multiset.coe_nodup.mpr valid.nodup) (Multiset.nodup_dedup _)]
  intro key
  rw [Multiset.mem_dedup, Multiset.mem_coe, mem_uses_keys valid.used]

variable [DecidableEq K]

theorem addConsumer_keys : (addConsumer key instructionId consumer table).map Prod.fst =
    if key ∈ table.map Prod.fst then table.map Prod.fst else table.map Prod.fst ++ [key] := by
  induction table with
  | nil => simp [addConsumer]
  | cons entry rest ih =>
    obtain ⟨other, first, consumers⟩ := entry
    rw [addConsumer]
    by_cases same : other = key
    · simp [same]
    · rw [if_neg same, map_cons, ih]
      by_cases later : key ∈ rest.map Prod.fst
      · rw [if_pos later, if_pos (by simp [later])]
        rfl
      · rw [if_neg later, if_neg (by simp [later, Ne.symm same])]
        rfl

theorem addConsumer_uses : uses (addConsumer key instructionId consumer table) = uses table + {(key, consumer)} := by
  induction table with
  | nil => simp [addConsumer, uses]
  | cons entry rest ih =>
    obtain ⟨other, first, consumers⟩ := entry
    rw [addConsumer]
    by_cases same : other = key
    · subst same
      simp only [if_pos, uses, map_cons, sum_cons, Multiset.map_coe, map_append, map_nil, add_right_comm]
      rfl
    · rw [if_neg same]
      simp only [uses, map_cons, sum_cons] at ih ⊢
      rw [ih, add_assoc]

theorem Table.addConsumer (valid : Table table) : Table (Graph.addConsumer key instructionId consumer table) where
  nodup := by
    rw [addConsumer_keys]
    split
    · exact valid.nodup
    · rename_i fresh
      rw [nodup_append]
      exact ⟨valid.nodup, nodup_singleton key, fun other member same isKey equal =>
        fresh (by rw [mem_singleton] at isKey; rwa [← isKey, ← equal])⟩
  used := by
    have used := valid.used
    clear valid
    induction table with
    | nil => simp [Graph.addConsumer]
    | cons entry rest ih =>
      rw [Graph.addConsumer]
      split
      · simpa using fun _ _ _ member => used _ (mem_cons_of_mem _ member)
      · intro entry member
        cases member with
        | head => exact used _ mem_cons_self
        | tail _ later => exact ih (fun e m => used e (mem_cons_of_mem _ m)) entry later

end Consumers

/-! ## Pictures -/

theorem rel_singleton {α β : Type} {R : α → β → Prop} {x : α} {y : β} (related : R x y) : Multiset.Rel R {x} {y} :=
  Multiset.rel_cons_left.mpr ⟨y, 0, related, Multiset.rel_zero_left.mpr rfl, rfl⟩

theorem rel_concat {α β : Type} {R : α → β → Prop} {expected : Multiset α} {elements : List β}
    {x : α} {y : β} (rel : Multiset.Rel R expected elements) (related : R x y) :
    Multiset.Rel R (expected + {x}) (elements ++ [y] : List β) :=
  rel.add (rel_singleton related)

structure Uses {K : Type} (labels : List (Item C)) (expected : K × Item C × Nat)
    (use : K × NodeId × Int) : Prop where
  key : use.1 = expected.1
  node : labels[use.2.1]? = some expected.2.1
  position : use.2.2 = expected.2.2

structure Calls (labels : List (Item C)) (expected : Item C × Nat) (callSite : NodeId × Nat) :
    Prop where
  node : labels[callSite.1]? = some expected.1
  callee : callSite.2 = expected.2

/-- The builder has drawn the picture, and got to a block and a function. -/
structure Shows (encode : C → LlvmTextComponents) (module : Ir.Module C)
    (labels : List (Item C)) (picture : Picture C) (blocks functions : Nat) (b : Builder C) :
    Prop where
  options : b.options = .default
  nodes : List.Forall₂ (Stands encode module) labels b.graph.node
  items : (labels : Multiset (Item C)) = picture.items
  edges : Multiset.Rel (Depicts labels) picture.edges b.graph.edge
  callSites : Multiset.Rel (Calls labels) picture.callSites b.callSites
  constants : Multiset.Rel (Uses labels) picture.constants (uses b.constants)
  table : Table b.constants
  blockCount : b.blockCount = blocks
  functions : b.graph.function.length = functions

section Growth

variable {labels labels' : List (Item C)} {item : Item C} {node : NodeId}

section

variable (grows : labels <+: labels')
include grows

theorem getElem?_of_isPrefix (found : labels[node]? = some item) : labels'[node]? = some item := by
  obtain ⟨more, rfl⟩ := grows
  exact getElem?_append_left (List.getElem?_eq_some_iff.mp found).1 ▸ found

theorem exists_grows {holds : List (Item C) → Prop}
    (later : ∃ final, labels' <+: final ∧ holds final) : ∃ final, labels <+: final ∧ holds final :=
  later.imp fun _ => And.imp_left grows.trans

theorem Depicts.grow {expected : ItemEdge C} {edge : Edge} (depicts : Depicts labels expected edge) : Depicts labels' expected edge where
  flow := depicts.flow
  position := depicts.position
  source := depicts.source.imp fun _ => And.imp_right (getElem?_of_isPrefix grows)
  target := depicts.target.imp fun _ => And.imp_right (getElem?_of_isPrefix grows)

theorem Uses.grow {K : Type} {expected : K × Item C × Nat} {use : K × NodeId × Int}
    (uses : Uses labels expected use) : Uses labels' expected use :=
  ⟨uses.key, getElem?_of_isPrefix grows uses.node, uses.position⟩

theorem Calls.grow {expected : Item C × Nat} {callSite : NodeId × Nat}
    (calls : Calls labels expected callSite) : Calls labels' expected callSite :=
  ⟨getElem?_of_isPrefix grows calls.node, calls.callee⟩

end

end Growth

section Steps

variable {encode : C → LlvmTextComponents} {module : Ir.Module C} {labels : List (Item C)}
  {picture : Picture C} {blocks functions : Nat} {b b' : Builder C} {item : Item C} {added : Node} {program : BuilderM C NodeId}

structure Steady (b b' : Builder C) : Prop where
  options : b'.options = b.options
  edge : b'.graph.edge = b.graph.edge
  function : b'.graph.function.length = b.graph.function.length
  callSites : b'.callSites = b.callSites
  constants : b'.constants = b.constants
  blockCount : b'.blockCount = b.blockCount

theorem Steady.nodes (steady : Steady b b') (nodes : List Node) (forgotten : List Nat) :
    Steady b { b' with
      graph := { b'.graph with node := nodes }
      emptyFunctions := forgotten } :=
  ⟨steady.options, steady.edge, steady.function, steady.callSites, steady.constants, steady.blockCount⟩

def Adds (program : BuilderM C NodeId) (b : Builder C) (added : Node) : Prop :=
  Ensures program b fun address b' =>
    address = b.graph.node.length ∧ b'.graph.node = b.graph.node ++ [added] ∧ Steady b b'

theorem modify_length_append {α : Type} (change : α → α) (last : α) (elements : List α) :
    (elements ++ [last]).modify elements.length change = elements ++ [change last] := by
  induction elements with
  | nil => rfl
  | cons head rest ih => simpa using ih

namespace Adds

theorem addNode (type : NodeType) (text : String) : Adds (Builder.AddNode type text) b ⟨type, text, 0, 0, none⟩ :=
  ⟨_, _, rfl, rfl, rfl, ⟨rfl, rfl, rfl, rfl, rfl, rfl⟩⟩

theorem modifyNode (adds : Adds program b added) {rest : NodeId → BuilderM C NodeId}
    (change : Node → Node) (forgets : List Nat → List Nat)
    (same : ∀ address b', b'.blockCount = b.blockCount →
      (rest address).run b' = .ok (address, { b' with
      graph := { b'.graph with node := b'.graph.node.modify address change }
      emptyFunctions := forgets b'.emptyFunctions })) :
    Adds (program >>= rest) b (change added) := by
  apply adds.bind
  rintro address b' ⟨rfl, nodes, steady⟩
  refine ⟨_, _, same _ b' steady.blockCount, rfl, ?_, steady.nodes _ _⟩
  rw [nodes]
  exact modify_length_append change added b.graph.node

theorem addNodeTo (type : NodeType) (text : String) (f : Nat) : Adds (Builder.AddNodeTo type text f) b ⟨type, text, f, 0, none⟩ :=
  (addNode type text).modifyNode (fun node => { node with function := f }) (·.erase f)
    fun _ _ _ => rfl

theorem addLlvmInstruction (instruction : Ir.Instruction C) (f : Nat) (instructionId mark : String) :
    Adds (Builder.AddLlvmInstruction instruction f instructionId mark) b
      (annotateInstruction b.blockCount ⟨.INSTRUCTION, instruction.text.opcode_name, f, 0, none⟩ instruction instructionId mark) :=
  (addNodeTo .INSTRUCTION _ f).modifyNode (fun node => annotateInstruction b.blockCount node instruction instructionId mark) id
    fun _ _ same => by rw [← same]; rfl

theorem addLlvmVariable (text : LlvmTextComponents) (f : Nat) (key instructionId : String) :
    Adds (Builder.AddLlvmVariable text f key instructionId) b
      (annotateValue b.blockCount ⟨.VARIABLE, text.lhs_type, f, 0, none⟩ text.lhs key instructionId) :=
  (addNodeTo .VARIABLE _ f).modifyNode (fun node => annotateValue b.blockCount node text.lhs key instructionId) id
    fun _ _ same => by rw [← same]; rfl

theorem addLlvmConstant (text : LlvmTextComponents) (instructionId : String) :
    Adds (Builder.AddLlvmConstant text instructionId) b
      (annotateValue b.blockCount ⟨.CONSTANT, text.lhs_type, 0, 0, none⟩ text.text "const_inst_id" instructionId) :=
  (addNode .CONSTANT _).modifyNode (fun node => annotateValue b.blockCount node text.text "const_inst_id" instructionId) id
    fun _ _ same => by rw [← same]; rfl

end Adds

theorem Shows.addItem (shows : Shows encode module labels picture blocks functions b)
    (nodes : b'.graph.node = b.graph.node ++ [added]) (steady : Steady b b') (stands : Stands encode module item added) :
    Shows encode module (labels ++ [item]) (picture + .ofItem item) blocks functions b' where
  options := steady.options.trans shows.options
  nodes := by
    rw [nodes]
    exact rel_append shows.nodes (.cons stands .nil)
  items := by
    rw [Picture.add_items, ← shows.items]
    rfl
  edges := by
    rw [steady.edge, Picture.add_edges, Picture.ofItem_edges, add_zero]
    exact shows.edges.mono fun _ _ _ _ => Depicts.grow (prefix_append labels [item])
  callSites := by
    rw [steady.callSites, Picture.add_callSites, Picture.ofItem_callSites, add_zero]
    exact shows.callSites.mono fun _ _ _ _ => Calls.grow (prefix_append labels [item])
  constants := by
    rw [steady.constants, Picture.add_constants, Picture.ofItem_constants, add_zero]
    exact shows.constants.mono fun _ _ _ _ => Uses.grow (prefix_append labels [item])
  table := steady.constants ▸ shows.table
  blockCount := steady.blockCount.trans shows.blockCount
  functions := steady.function.trans shows.functions

theorem Shows.steady (shows : Shows encode module labels picture blocks functions b)
    (nodes : b'.graph.node = b.graph.node) (steady : Steady b b') : Shows encode module labels picture blocks functions b' where
  options := steady.options.trans shows.options
  nodes := nodes ▸ shows.nodes
  items := shows.items
  edges := steady.edge ▸ shows.edges
  callSites := steady.callSites ▸ shows.callSites
  constants := steady.constants ▸ shows.constants
  table := steady.constants ▸ shows.table
  blockCount := steady.blockCount.trans shows.blockCount
  functions := steady.function.trans shows.functions

theorem Adds.shows (adds : Adds program b added) (shows : Shows encode module labels picture blocks functions b)
    (stands : Stands encode module item added) :
    Ensures program b fun address b' =>
      Shows encode module (labels ++ [item]) (picture + .ofItem item) blocks functions b' ∧ (labels ++ [item])[address]? = some item := by
  refine adds.mono ?_
  rintro address b' ⟨rfl, nodes, steady⟩
  refine ⟨shows.addItem nodes steady stands, ?_⟩
  rw [← shows.nodes.length_eq]
  exact getElem?_concat_length

theorem Shows.addUse [DecidableEq C] {c : C} {p : Nat} {address : NodeId} {instructionId : String}
    (shows : Shows encode module labels picture blocks functions b) (isNode : labels[address]? = some item) :
    Shows encode module labels (picture + ⟨0, 0, 0, {(c, item, p)}⟩) blocks functions
      { b with constants := addConsumer c instructionId (address, p) b.constants } where
  options := shows.options
  nodes := shows.nodes
  items := shows.items.trans (add_zero _).symm
  edges := by
    rw [Picture.add_edges, add_zero]
    exact shows.edges
  callSites := by
    rw [Picture.add_callSites, add_zero]
    exact shows.callSites
  constants := by
    rw [addConsumer_uses]
    exact shows.constants.add (rel_singleton ⟨rfl, isNode, rfl⟩)
  table := shows.table.addConsumer
  blockCount := shows.blockCount
  functions := shows.functions

theorem Shows.addCallSite {callee : Nat} {address : NodeId} (shows : Shows encode module labels picture blocks functions b)
    (isNode : labels[address]? = some item) :
    Shows encode module labels (picture + ⟨0, 0, {(item, callee)}, 0⟩) blocks functions
      { b with callSites := b.callSites ++ [(address, callee)] } where
  options := shows.options
  nodes := shows.nodes
  items := shows.items.trans (add_zero _).symm
  edges := by
    rw [Picture.add_edges, add_zero]
    exact shows.edges
  callSites := rel_concat shows.callSites ⟨isNode, rfl⟩
  constants := by
    rw [Picture.add_constants, add_zero]
    exact shows.constants
  table := shows.table
  blockCount := shows.blockCount
  functions := shows.functions

theorem Shows.nextBlock {blocks : Nat} (shows : Shows encode module labels picture blocks functions b) :
    Shows encode module labels picture (blocks + 1) functions { b with blockCount := b.blockCount + 1 } :=
  { shows with blockCount := by rw [shows.blockCount, Nat.cast_succ] }

section Edges

variable {source target : NodeId} {sourceItem targetItem : Item C} {position : Nat}

section

variable (shows : Shows encode module labels picture blocks functions b)
include shows

theorem Shows.node (found : labels[source]? = some sourceItem) :
    ∃ node, (Builder.node source).run b = .ok (node, b) ∧ Stands encode module sourceItem node := by
  obtain ⟨within, same⟩ := List.getElem?_eq_some_iff.mp found
  have within' : source < b.graph.node.length := shows.nodes.length_eq ▸ within
  have stands := shows.nodes.get within within'
  refine ⟨b.graph.node[source], ?_, by simpa [same] using stands⟩
  have isNode := getElem?_eq_getElem within'
  simp only [Builder.node, StateT.run_bind, StateT.run_get, pure_bind, isNode]
  rfl

theorem Shows.addEdge (flow : Flow) (isSource : labels[source]? = some sourceItem) (isTarget : labels[target]? = some targetItem) :
    Ensures (Builder.AddEdge flow position source target) b fun _ b' =>
      Shows encode module labels (picture + .ofEdge ⟨flow, position, sourceItem, targetItem⟩) blocks functions b' := by
  refine .modify ⟨shows.options, shows.nodes, ?_, ?_, ?_, ?_, shows.table, shows.blockCount, shows.functions⟩
  · rw [Picture.add_items, shows.items]
    exact (add_zero _).symm
  · have drawn : Depicts labels ⟨flow, position, sourceItem, targetItem⟩ ⟨flow, position, source, target, none⟩ :=
      ⟨rfl, rfl, ⟨source, rfl, isSource⟩, ⟨target, rfl, isTarget⟩⟩
    exact rel_concat shows.edges drawn
  · rw [Picture.add_callSites, Picture.ofEdge_callSites, add_zero]
    exact shows.callSites
  · rw [Picture.add_constants, Picture.ofEdge_constants, add_zero]
    exact shows.constants

theorem Shows.addControlEdge (isSource : labels[source]? = some sourceItem)
    (isTarget : labels[target]? = some targetItem) (typeSource : sourceItem.type = .INSTRUCTION)
    (typeTarget : targetItem.type = .INSTRUCTION) (same : sourceItem.function = targetItem.function) :
    Ensures (Builder.AddControlEdge 0 source target) b fun _ b' =>
      Shows encode module labels (picture + .ofEdge ⟨.CONTROL, 0, sourceItem, targetItem⟩) blocks functions b' := by
  obtain ⟨sourceNode, foundSource, standsSource⟩ := shows.node isSource
  obtain ⟨targetNode, foundTarget, standsTarget⟩ := shows.node isTarget
  have function : sourceNode.function = targetNode.function := by
    rw [standsSource.function, standsTarget.function, same]
  refine .step foundSource (.step foundTarget ?_)
  rw [if_neg (by simp [standsSource.type, typeSource]), if_neg (by simp [standsTarget.type, typeTarget]), if_neg (by simp [function])]
  exact shows.addEdge .CONTROL isSource isTarget

theorem Shows.addCallEdge (isSource : labels[source]? = some sourceItem)
    (isTarget : labels[target]? = some targetItem) (typeSource : sourceItem.type = .INSTRUCTION)
    (typeTarget : targetItem.type = .INSTRUCTION) :
    Ensures (Builder.AddCallEdge source target) b fun _ b' =>
      Shows encode module labels (picture + .ofEdge ⟨.CALL, 0, sourceItem, targetItem⟩) blocks functions b' := by
  obtain ⟨sourceNode, foundSource, standsSource⟩ := shows.node isSource
  obtain ⟨targetNode, foundTarget, standsTarget⟩ := shows.node isTarget
  refine .step foundSource (.step foundTarget ?_)
  rw [if_neg (by simp [standsSource.type, typeSource]), if_neg (by simp [standsTarget.type, typeTarget])]
  exact shows.addEdge .CALL isSource isTarget

theorem Shows.addDataEdge (position : Nat) (isSource : labels[source]? = some sourceItem)
    (isTarget : labels[target]? = some targetItem) (types : sourceItem.type = .INSTRUCTION ↔ targetItem.type ≠ .INSTRUCTION) :
    Ensures (Builder.AddDataEdge position source target) b fun _ b' =>
      Shows encode module labels (picture + .ofEdge ⟨.DATA, position, sourceItem, targetItem⟩) blocks functions b' := by
  obtain ⟨sourceNode, foundSource, standsSource⟩ := shows.node isSource
  obtain ⟨targetNode, foundTarget, standsTarget⟩ := shows.node isTarget
  refine .step foundSource (.step foundTarget ?_)
  rw [if_neg (by
    rw [not_not, Builder.isData, Builder.isData, standsSource.type, standsTarget.type]
    cases typeSource : sourceItem.type <;> cases typeTarget : targetItem.type <;> simp_all)]
  exact shows.addEdge .DATA isSource isTarget

end

end Edges

end Steps

end NeuroMerge.Graph
