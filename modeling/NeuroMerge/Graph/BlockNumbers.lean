import NeuroMerge.Graph.BuildProperties

/-!
# Block numbers

What the block numbers of the nodes say about the blocks that they belong to. The nodes of
instructions and of their operands are right; the outside, the functions without blocks and
the arguments have numbers of other blocks.
-/

namespace NeuroMerge.Graph

open List

open Classifier (NodeType Flow Feature)
open Ir (Place Operand LlvmTextComponents)

variable {C : Type}

/-! ## Numbers of blocks -/

section Numbers

variable {module : Ir.Module C} {f g m n : Nat} {function other : Ir.Function C}

theorem Ir.Module.firstBlock_mono : Monotone module.firstBlock := by
  refine monotone_nat_of_le_succ fun f => ?_
  rw [firstBlock, firstBlock, take_add_one, map_append, sum_append]
  exact Nat.le_add_right _ _

theorem Ir.Module.blockNumber_inj (isFunction : module.functions[f]? = some function)
    (isOther : module.functions[g]? = some other) (within : m < function.blocks.length) (withinOther : n < other.blocks.length)
    (same : module.firstBlock f + m = module.firstBlock g + n) : f = g ∧ m = n := by
  have next := firstBlock_succ isFunction
  have nextOther := firstBlock_succ isOther
  rcases Nat.lt_trichotomy f g with before | rfl | after
  · have := module.firstBlock_mono (show f + 1 ≤ g from before)
    omega
  · exact ⟨rfl, by omega⟩
  · have := module.firstBlock_mono (show g + 1 ≤ f from after)
    omega

theorem Ir.Module.exists_firstBlock_zero (defined : ∃ function ∈ module.functions,
    ¬ function.isDeclaration) : ∃ (f : Nat) (function : Function C),
      module.functions[f]? = some function ∧ ¬ function.isDeclaration ∧ module.firstBlock f = 0 := by
  classical
  have there : ∃ f : Nat, ∃ function : Ir.Function C, module.functions[f]? = some function ∧ ¬ function.isDeclaration := by
    obtain ⟨function, member, isDefined⟩ := defined
    obtain ⟨f, isFunction⟩ := mem_iff_getElem?.mp member
    exact ⟨f, function, isFunction, isDefined⟩
  obtain ⟨function, isFunction, isDefined⟩ := Nat.find_spec there
  refine ⟨_, function, isFunction, isDefined, ?_⟩
  refine List.sum_eq_zero fun length member => ?_
  obtain ⟨earlier, inFront, rfl⟩ := mem_map.mp member
  obtain ⟨g, isEarlier⟩ := mem_iff_getElem?.mp inFront
  rw [getElem?_take] at isEarlier
  split at isEarlier
  · rename_i before
    by_contra nonempty
    refine Nat.find_min there before ⟨earlier, isEarlier, ?_⟩
    rwa [Function.isDeclaration, List.isEmpty_iff, ← length_eq_zero_iff]
  · cases isEarlier

theorem Ir.Function.WellFormed.exists_start {functions : Nat}
    (wellFormed : function.WellFormed functions) (isDefined : ¬ function.isDeclaration) :
    ∃ instruction, function.instruction? ⟨0, 0⟩ = some instruction := by
  cases blocks : function.blocks with
  | nil => exact absurd (List.isEmpty_iff.mpr blocks) isDefined
  | cons block rest =>
    have nonempty := wellFormed.nonempty block (by simp [blocks])
    cases instructions : block.instructions with
    | nil => exact absurd instructions nonempty
    | cons instruction later =>
      refine ⟨instruction, instruction?_eq_some.mpr ⟨block, ?_, ?_⟩⟩
      · rw [blocks]
        rfl
      · rw [instructions]
        rfl

end Numbers

/-! ## Nodes and their blocks -/

def Item.Belongs (module : Ir.Module C) (f n : Nat) : Item C → Prop
  | .instruction g place | .operand g place _ => g = f ∧ place.block = n
  | .argument g k => g = f ∧ ∃ i instruction,
      module.instruction? f ⟨n, i⟩ = some instruction ∧ .argument k ∈ instruction.operands
  | .external | .undefined _ | .constant _ => False

def Item.IsOutside : Item C → Prop
  | .external | .undefined _ => True
  | _ => False

section Properties

variable (module : Ir.Module C) (labels : List (Item C)) (graph : ProgramGraph)

def HasNode (x : Item C) (node : Node) : Prop :=
  ∃ address : NodeId, labels[address]? = some x ∧ graph.node[address]? = some node

def NumbersIdentify : Prop :=
  ∀ x y node node', HasNode labels graph x node → HasNode labels graph y node' → x ≠ y →
    x.type ≠ .CONSTANT → y.type ≠ .CONSTANT → node.block = node'.block →
    ∃ f n, x.Belongs module f n ∧ y.Belongs module f n

def VariablesInside : Prop :=
  ∀ x node, HasNode labels graph x node → x.type = .VARIABLE → ∃ f n i node',
    x.Belongs module f n ∧ HasNode labels graph (.instruction f ⟨n, i⟩) node' ∧
      node.block = node'.block

def OutsideApart : Prop :=
  ∀ x node f place node', HasNode labels graph x node → x.IsOutside →
    HasNode labels graph (.instruction f place) node' → node.block ≠ node'.block

/-- Two nodes of instructions or results that carry one number belong to one block. -/
def CodeIdentified : Prop :=
  ∀ x y node node' f g m n, HasNode labels graph x node → HasNode labels graph y node' →
    x.Belongs module f m → y.Belongs module g n → (∀ f k, x ≠ .argument f k) →
    (∀ f k, y ≠ .argument f k) → node.block = node'.block → f = g ∧ m = n

end Properties

section Blocks

variable [DecidableEq C] {encode : C → LlvmTextComponents} {module : Ir.Module C}
  {labels : List (Item C)} {graph : ProgramGraph} {x : Item C} {node : Node}

section

variable (pictures : Pictures labels encode module graph)
include pictures

theorem Pictures.block_eq (hasNode : HasNode labels graph x node) : node.block = x.block module := by
  obtain ⟨address, isItem, isNode⟩ := hasNode
  obtain ⟨within, rfl⟩ := List.getElem?_eq_some_iff.mp isItem
  obtain ⟨within', rfl⟩ := List.getElem?_eq_some_iff.mp isNode
  exact (pictures.nodes.get within within').block

theorem Pictures.mem_items (hasNode : HasNode labels graph x node) : x ∈ module.items := by
  obtain ⟨address, isItem, -⟩ := hasNode
  rw [← pictures.items]
  exact Multiset.mem_coe.mpr (mem_of_getElem? isItem)

theorem Pictures.exists_node (member : x ∈ module.items) : ∃ node, HasNode labels graph x node := by
  rw [← pictures.items, Multiset.mem_coe] at member
  obtain ⟨address, isItem⟩ := mem_iff_getElem?.mp member
  have within : address < graph.node.length := pictures.nodes.length_eq ▸ (List.getElem?_eq_some_iff.mp isItem).1
  exact ⟨graph.node[address], address, isItem, getElem?_eq_getElem within⟩

end

variable {f g n : Nat} {function : Ir.Function C} {place : Place}

section

variable (pictures : Pictures labels encode module graph)
include pictures

theorem Pictures.instruction_node {instruction : Ir.Instruction C} (isFunction : module.functions[f]? = some function)
    (isAt : function.instruction? place = some instruction) :
    ∃ node, HasNode labels graph (.instruction f place) node ∧ node.block = (module.firstBlock f + place.block : Nat) := by
  obtain ⟨node, hasNode⟩ := pictures.exists_node (Ir.Module.mem_items.mpr (.inr (.inl ⟨f, function, isFunction, .instruction isAt⟩)))
  exact ⟨node, hasNode, pictures.block_eq hasNode⟩

theorem Pictures.block_lt (hasNode : HasNode labels graph (.instruction f place) node) :
    ∃ function, module.functions[f]? = some function ∧ place.block < function.blocks.length := by
  obtain same | ⟨g, function, isFunction, has⟩ | ⟨c, -, same⟩ := Ir.Module.mem_items.mp (pictures.mem_items hasNode)
  · cases same
  · cases has with
    | instruction isAt =>
      obtain ⟨block, isBlock, -⟩ := Ir.Function.instruction?_eq_some.mp isAt
      exact ⟨function, isFunction, (List.getElem?_eq_some_iff.mp isBlock).1⟩
  · cases same

/-- The outside is apart from the blocks exactly when there are none. -/
theorem Pictures.outsideApart_iff (wellFormed : module.WellFormed) : OutsideApart labels graph ↔
      ∀ function ∈ module.functions, function.isDeclaration := by
  constructor
  · intro apart
    by_contra some
    obtain ⟨function, member, isDefined⟩ := not_forall₂.mp some
    obtain ⟨f, function, isFunction, isDefined, first⟩ := module.exists_firstBlock_zero ⟨function, member, isDefined⟩
    obtain ⟨instruction, isAt⟩ := (wellFormed.located isFunction).wellFormed.exists_start isDefined
    obtain ⟨node, hasNode, isBlock⟩ := pictures.instruction_node isFunction isAt
    obtain ⟨root, hasRoot⟩ := pictures.exists_node (Ir.Module.mem_items.mpr (.inl rfl))
    refine apart .external root f ⟨0, 0⟩ node hasRoot trivial hasNode ?_
    rw [isBlock, pictures.block_eq hasRoot, first]
    rfl
  · intro declared x node f place node' hasNode _ hasOther
    obtain ⟨function, isFunction, within⟩ := pictures.block_lt hasOther
    have none := declared function (mem_of_getElem? isFunction)
    rw [Ir.Function.isDeclaration, List.isEmpty_iff] at none
    rw [none] at within
    cases within

/-- The variables are inside exactly when no argument is used: the nodes of arguments are made
when the number of the last block of the function is gone. -/
theorem Pictures.variablesInside_iff :
    VariablesInside module labels graph ↔ ∀ function ∈ module.functions, function.usedArguments = 0 := by
  constructor
  · intro inside function member
    refine Multiset.eq_zero_of_forall_notMem fun n used => ?_
    obtain ⟨f, isFunction⟩ := mem_iff_getElem?.mp member
    obtain ⟨node, hasNode⟩ := pictures.exists_node (Ir.Module.mem_items.mpr (.inr (.inl ⟨f, function, isFunction, .argument used⟩)))
    obtain ⟨g, m, i, node', ⟨rfl, -⟩, hasOther, same⟩ := inside _ node hasNode rfl
    obtain ⟨other, isOther, within⟩ := pictures.block_lt hasOther
    obtain rfl : function = other := Option.some.inj (isFunction.symm.trans isOther)
    rw [pictures.block_eq hasNode, pictures.block_eq hasOther, Item.block, Item.block, Ir.Module.firstBlock_succ isFunction] at same
    have := Int.ofNat.inj same
    omega
  · intro unused x node hasNode isVariable
    obtain rfl | ⟨f, function, isFunction, has⟩ | ⟨c, -, rfl⟩ := Ir.Module.mem_items.mp (pictures.mem_items hasNode)
    · cases isVariable
    · cases has with
      | undefined => cases isVariable
      | instruction => cases isVariable
      | @operand place _ _ _ isAt =>
        obtain ⟨node', hasOther, isBlock⟩ := pictures.instruction_node isFunction isAt
        exact ⟨f, place.block, place.index, node', ⟨rfl, rfl⟩, hasOther, (pictures.block_eq hasNode).trans isBlock.symm⟩
      | argument used =>
        rw [unused function (mem_of_getElem? isFunction)] at used
        cases used
    · cases isVariable

/-- A module with a function has two nodes with the number 0 that are in no block together. -/
theorem Pictures.numbersIdentify_iff (wellFormed : module.WellFormed) : NumbersIdentify module labels graph ↔ module.functions = [] := by
  constructor
  · intro identify
    by_contra nonempty
    obtain ⟨root, hasRoot⟩ := pictures.exists_node (Ir.Module.mem_items.mpr (.inl rfl))
    have isRoot := pictures.block_eq hasRoot
    by_cases declared : ∀ function ∈ module.functions, function.isDeclaration
    · obtain ⟨function, member⟩ := exists_mem_of_ne_nil _ nonempty
      obtain ⟨f, isFunction⟩ := mem_iff_getElem?.mp member
      obtain ⟨node, hasNode⟩ := pictures.exists_node (Ir.Module.mem_items.mpr
        (.inr (.inl ⟨f, function, isFunction, .undefined (declared function member)⟩)))
      obtain ⟨_, _, none, -⟩ := identify _ _ root node hasRoot hasNode nofun nofun nofun (isRoot.trans (pictures.block_eq hasNode).symm)
      exact none
    · obtain ⟨function, member, isDefined⟩ := not_forall₂.mp declared
      obtain ⟨f, function, isFunction, isDefined, first⟩ := module.exists_firstBlock_zero ⟨function, member, isDefined⟩
      obtain ⟨instruction, isAt⟩ := (wellFormed.located isFunction).wellFormed.exists_start isDefined
      obtain ⟨node, hasNode, isBlock⟩ := pictures.instruction_node isFunction isAt
      have same : root.block = node.block := by
        rw [isRoot, isBlock, first]
        rfl
      obtain ⟨_, _, none, -⟩ := identify _ _ root node hasRoot hasNode nofun nofun nofun same
      exact none
  · intro empty x y node node' hasNode hasNode' different notConstant notConstant'
    have only {z : Item C} {other : Node} (hasOther : HasNode labels graph z other)
        (notConstant : z.type ≠ .CONSTANT) : z = .external := by
      obtain rfl | ⟨f, function, isFunction, -⟩ | ⟨c, -, rfl⟩ := Ir.Module.mem_items.mp (pictures.mem_items hasOther)
      · rfl
      · rw [empty] at isFunction
        cases isFunction
      · exact absurd rfl notConstant
    exact absurd ((only hasNode notConstant).trans (only hasNode' notConstant').symm) different

theorem Pictures.block_of_belongs (hasNode : HasNode labels graph x node)
    (belongs : x.Belongs module f n) (notArgument : ∀ g k, x ≠ .argument g k) :
    ∃ function, module.functions[f]? = some function ∧ n < function.blocks.length ∧ node.block = (module.firstBlock f + n : Nat) := by
  have isBlock := pictures.block_eq hasNode
  have within {place : Place} {function : Ir.Function C} {instruction : Ir.Instruction C}
      (isAt : function.instruction? place = some instruction) :
      place.block < function.blocks.length := by
    obtain ⟨block, isBlock, -⟩ := Ir.Function.instruction?_eq_some.mp isAt
    exact (List.getElem?_eq_some_iff.mp isBlock).1
  obtain rfl | ⟨g, function, isFunction, has⟩ | ⟨c, -, rfl⟩ := Ir.Module.mem_items.mp (pictures.mem_items hasNode)
  · exact absurd belongs id
  · cases has with
    | undefined => exact absurd belongs id
    | instruction isAt =>
      obtain ⟨rfl, rfl⟩ := belongs
      exact ⟨function, isFunction, within isAt, isBlock⟩
    | operand isAt =>
      obtain ⟨rfl, rfl⟩ := belongs
      exact ⟨function, isFunction, within isAt, isBlock⟩
    | argument => exact absurd rfl (notArgument _ _)
  · exact absurd belongs id

theorem Pictures.codeIdentified : CodeIdentified module labels graph := by
  intro x y node node' f g m n hasNode hasNode' belongs belongs' notArgument notArgument' same
  obtain ⟨function, isFunction, within, isBlock⟩ := pictures.block_of_belongs hasNode belongs notArgument
  obtain ⟨other, isOther, within', isBlock'⟩ := pictures.block_of_belongs hasNode' belongs' notArgument'
  rw [isBlock, isBlock'] at same
  exact Ir.Module.blockNumber_inj isFunction isOther within within' (Int.ofNat.inj same)

end

/-- Block numbers identify blocks: all of what they are meant to say. -/
structure BlocksIdentified (module : Ir.Module C) (labels : List (Item C)) (graph : ProgramGraph) :
    Prop where
  numbers : NumbersIdentify module labels graph
  inside : VariablesInside module labels graph
  apart : OutsideApart labels graph

theorem Pictures.blocksIdentified_iff (pictures : Pictures labels encode module graph) (wellFormed : module.WellFormed) :
    BlocksIdentified module labels graph ↔ module.functions = [] := by
  constructor
  · exact fun identified => (pictures.numbersIdentify_iff wellFormed).mp identified.numbers
  · intro empty
    refine ⟨(pictures.numbersIdentify_iff wellFormed).mpr empty, ?_, ?_⟩
    · exact pictures.variablesInside_iff.mpr (by simp [empty])
    · exact (pictures.outsideApart_iff wellFormed).mpr (by simp [empty])

/-- The numbers identify the blocks exactly in a module without functions. The nodes of
instructions and results always have the number of their block; the variables do exactly when
no instruction uses an argument, and the outside is apart exactly when no function has blocks. -/
theorem block_numbers_identify_iff {orders : Orders C} {b : Builder C}
    (wellFormed : module.WellFormed)
    (built : (Builder.Build encode orders module).run (Builder.new .default) = .ok (graph, b)) :
    ∃ labels, Pictures labels encode module graph ∧
      (BlocksIdentified module labels graph ↔ module.functions = []) ∧
      CodeIdentified module labels graph ∧
      (VariablesInside module labels graph ↔
        ∀ function ∈ module.functions, function.usedArguments = 0) ∧
      (OutsideApart labels graph ↔ ∀ function ∈ module.functions, function.isDeclaration) := by
  obtain ⟨labels, pictures⟩ := pictures_of_build wellFormed built
  exact ⟨labels, pictures, pictures.blocksIdentified_iff wellFormed, pictures.codeIdentified,
    pictures.variablesInside_iff, pictures.outsideApart_iff wellFormed⟩

theorem block_numbers_identify_iff_sample : ∃ graph labels,
    Pictures labels sampleText sampleModule graph ∧
      ¬ BlocksIdentified sampleModule labels graph := by
  obtain ⟨graph, b, ran⟩ := sampleModule_builds
  obtain ⟨labels, pictures, identified, -⟩ :=
    block_numbers_identify_iff sampleModule_wellFormed ran
  exact ⟨graph, labels, pictures, fun all => nomatch identified.mp all⟩

/-- In the sample the outside, the first block and the declaration have the number 0, and the
argument has a number that is none of a block. -/
theorem block_numbers_clash : ∃ graph b,
    (Builder.Build sampleText sampleOrders sampleModule).run (Builder.new .default) =
        .ok (graph, b) ∧
      ∀ labels, Pictures labels sampleText sampleModule graph →
        ¬ BlocksIdentified sampleModule labels graph ∧
          ¬ VariablesInside sampleModule labels graph ∧ ¬ OutsideApart labels graph := by
  obtain ⟨graph, b, ran⟩ := sampleModule_builds
  refine ⟨graph, b, ran, fun labels pictures => ⟨?_, ?_, ?_⟩⟩
  · rw [pictures.blocksIdentified_iff sampleModule_wellFormed]
    exact nofun
  · rw [pictures.variablesInside_iff]
    intro unused
    have none := unused sampleMain mem_cons_self
    have used : 0 ∈ sampleMain.usedArguments :=
      Ir.Function.mem_usedArguments.mpr ⟨⟨0, 0⟩, _, rfl, mem_cons_self⟩
    rw [none] at used
    cases used
  · rw [pictures.outsideApart_iff sampleModule_wellFormed]
    exact fun declared => nomatch declared sampleMain mem_cons_self

end Blocks

end NeuroMerge.Graph
