import NeuroMerge.Graph.BuilderProperties

/-!
# Visiting the blocks of a function

What the visit of an operand, an instruction or a block draws and puts off.
-/

namespace NeuroMerge.Graph

open List

open Classifier (NodeType Flow Feature)
open Ir (Place Operand LlvmTextComponents)

variable {C : Type}

/-! ## Texts -/

section Texts

variable {node : Node} {key : String} {value : Feature}

theorem fullText_addScalarFeature (other : key ≠ "full_text") : (node.AddScalarFeature key value).fullText = node.fullText := by
  rw [Node.fullText, Node.AddScalarFeature, AddFeature]
  split
  · rfl
  · simp only [Option.getD_some, lookup_append, Node.fullText]
    cases List.lookup "full_text" (node.features.getD ⟨[]⟩).feature with
    | some value => rfl
    | none => simp [List.lookup_cons, beq_false_of_ne (Ne.symm other)]

theorem fullText_first (unset : node.features = none) : (node.AddScalarFeature "full_text" value).fullText = some value := by
  simp [Node.fullText, Node.AddScalarFeature, AddFeature, unset]

/-- The nodes differ in features that are not looked at. -/
structure Alike (node changed : Node) : Prop where
  type : changed.type = node.type
  text : changed.text = node.text
  function : changed.function = node.function
  block : changed.block = node.block
  fullText : changed.fullText = node.fullText

theorem Alike.addScalarFeature {original : Node} (alike : Alike original node)
    (other : key ≠ "full_text") : Alike original (node.AddScalarFeature key value) :=
  ⟨alike.type, alike.text, alike.function, alike.block, (fullText_addScalarFeature other).trans alike.fullText⟩

theorem annotateValue_alike {block : Int} {text instructionId : String}
    (other : key ≠ "full_text") : Alike ({ node with block := block }.AddScalarFeature "full_text" (CreateFeature text))
      (annotateValue block node text key instructionId) :=
  Alike.addScalarFeature ⟨rfl, rfl, rfl, rfl, rfl⟩ other

theorem annotateInstruction_alike {block : Int} {instruction : Ir.Instruction C}
    {instructionId mark : String} : Alike ({ node with block := block }.AddScalarFeature "full_text"
        (CreateFeature instruction.text.text))
      (annotateInstruction block node instruction instructionId mark) := by
  rw [annotateInstruction]
  split <;> split <;> split <;> repeat refine Alike.addScalarFeature ?_ (by decide)
  all_goals exact ⟨rfl, rfl, rfl, rfl, rfl⟩

end Texts

section Stands

variable {encode : C → LlvmTextComponents} {module : Ir.Module C} {f : Nat} {place : Place}
  {instructionId mark : String} {block : Int}

theorem Alike.stands {original changed : Node} {item : Item C} (alike : Alike original changed)
    (stands : Stands encode module item original) : Stands encode module item changed := by
  obtain ⟨type, function, block, full, texts, fullText⟩ := stands
  exact ⟨alike.type.trans type, alike.function.trans function, alike.block.trans block, full,
    alike.text ▸ texts, alike.fullText.trans fullText⟩

theorem stands_instruction {instruction : Ir.Instruction C} (isAt : module.instruction? f place = some instruction)
    (isBlock : block = (module.firstBlock f + place.block : Nat)) :
    Stands encode module (.instruction f place) (annotateInstruction block
      ⟨.INSTRUCTION, instruction.text.opcode_name, f, 0, none⟩ instruction instructionId mark) := by
  apply annotateInstruction_alike.stands
  refine ⟨rfl, rfl, isBlock, some instruction.text.text, ?_, fullText_first rfl⟩
  simp [Item.texts, isAt, Node.AddScalarFeature]

theorem stands_operand {instruction producer : Ir.Instruction C} {position : Nat}
    {producerPlace : Place} (isAt : module.instruction? f place = some instruction)
    (isOperand : instruction.operands[position]? = some (.instruction producerPlace))
    (isProducer : module.instruction? f producerPlace = some producer) (isBlock : block = (module.firstBlock f + place.block : Nat)) :
    Stands encode module (.operand f place position) (annotateValue block
      ⟨.VARIABLE, producer.text.lhs_type, f, 0, none⟩ producer.text.lhs "op_inst_id" instructionId) := by
  apply (annotateValue_alike (by decide)).stands
  refine ⟨rfl, rfl, isBlock, some producer.text.lhs, ?_, fullText_first rfl⟩
  simp [Item.texts, isAt, isOperand, isProducer, Node.AddScalarFeature]

theorem stands_undefined : Stands encode module (.undefined f)
    ((Node.mk .INSTRUCTION "; undefined function" f 0 none |>.AddScalarFeature "full_text"
      (CreateFeature "")).AddScalarFeature "function_entry" (CreateFeature "")) := by
  have alike (node : Node) : Alike node (node.AddScalarFeature "function_entry" (CreateFeature "")) :=
    Alike.addScalarFeature ⟨rfl, rfl, rfl, rfl, rfl⟩ (by decide)
  apply (alike _).stands
  exact ⟨rfl, rfl, rfl, some "", rfl, fullText_first rfl⟩

theorem stands_argument {function : Ir.Function C} {n : Nat} (isFunction : module.functions[f]? = some function)
    (isBlock : block = (module.firstBlock (f + 1) : Nat)) :
    let text := (function.arguments[n]?).getD ⟨"", "", "", ""⟩
    Stands encode module (.argument f n) (annotateValue block
      ⟨.VARIABLE, text.lhs_type, f, 0, none⟩ text.lhs "arg_inst_id" instructionId) := by
  intro text
  apply (annotateValue_alike (by decide)).stands
  refine ⟨rfl, rfl, isBlock, some text.lhs, ?_, fullText_first rfl⟩
  simp [Item.texts, isFunction, Node.AddScalarFeature, text]

theorem stands_constant {c : C} (isBlock : block = (module.firstBlock module.functions.length : Nat)) :
    Stands encode module (.constant c) (annotateValue block
      ⟨.CONSTANT, (encode c).lhs_type, 0, 0, none⟩ (encode c).text "const_inst_id" instructionId) := by
  apply (annotateValue_alike (by decide)).stands
  exact ⟨rfl, rfl, isBlock, some (encode c).text, rfl, fullText_first rfl⟩

end Stands

/-! ## Notes -/

/-- What a function puts off: the places visited, the results whose producers are to be
connected, and the uses of its arguments. -/
@[ext] structure Notes (C : Type) where
  places : Multiset Place
  definitions : Multiset (Place × Item C)
  arguments : Multiset (Nat × Item C × Nat)

namespace Notes

instance : Zero (Notes C) := ⟨⟨0, 0, 0⟩⟩

instance : Add (Notes C) := ⟨fun m n =>
  ⟨m.places + n.places, m.definitions + n.definitions, m.arguments + n.arguments⟩⟩

@[simp] theorem zero_places : (0 : Notes C).places = 0 := rfl
@[simp] theorem zero_definitions : (0 : Notes C).definitions = 0 := rfl
@[simp] theorem zero_arguments : (0 : Notes C).arguments = 0 := rfl

@[simp] theorem add_places (m n : Notes C) : (m + n).places = m.places + n.places := rfl
@[simp] theorem add_definitions (m n : Notes C) : (m + n).definitions = m.definitions + n.definitions := rfl
@[simp] theorem add_arguments (m n : Notes C) : (m + n).arguments = m.arguments + n.arguments := rfl

instance : AddCommMonoid (Notes C) where
  add_assoc m n l := by ext1 <;> simp [add_assoc]
  zero_add m := by ext1 <;> simp
  add_zero m := by ext1 <;> simp
  add_comm m n := by ext1 <;> simp [add_comm]
  nsmul := nsmulRec

end Notes

structure Results (labels : List (Item C)) (expected : Place × Item C) (entry : Place × NodeId) :
    Prop where
  place : entry.1 = expected.1
  node : labels[entry.2]? = some expected.2

variable {labels' : List (Item C)}

theorem Results.grow {labels : List (Item C)} {expected : Place × Item C} {entry : Place × NodeId}
    (grows : labels <+: labels') (results : Results labels expected entry) : Results labels' expected entry :=
  ⟨results.place, getElem?_of_isPrefix grows results.node⟩

structure Records (f : Nat) (labels : List (Item C)) (notes : Notes C) (maps : FunctionMaps) :
    Prop where
  instructions : Multiset.Rel (Results labels) (notes.places.map fun place =>
    (place, Item.instruction f place)) maps.instructions
  definitions : Multiset.Rel (Results labels) notes.definitions maps.dataEdgesToAdd
  arguments : Multiset.Rel (Uses labels) notes.arguments (uses maps.argumentConsumers)
  table : Table maps.argumentConsumers

theorem Records.grow {f : Nat} {labels : List (Item C)} {notes : Notes C} {maps : FunctionMaps}
    (grows : labels <+: labels') (records : Records f labels notes maps) : Records f labels' notes maps where
  instructions := records.instructions.mono fun _ _ _ _ => Results.grow grows
  definitions := records.definitions.mono fun _ _ _ _ => Results.grow grows
  arguments := records.arguments.mono fun _ _ _ _ => Uses.grow grows
  table := records.table

theorem Records.empty {f : Nat} {labels : List (Item C)} : Records f labels 0 ⟨[], [], []⟩ :=
  ⟨.zero, .zero, .zero, ⟨nodup_nil, by simp⟩⟩

/-! ## Operands -/

namespace Ir

section Operands

variable (f : Nat) (place : Place) (p : Nat)

def Operand.picture : Operand C → Picture C
  | .constant c => ⟨0, 0, 0, {(c, .instruction f place, p)}⟩
  | .instruction _ =>
    .ofItem (.operand f place p) + .ofEdge ⟨.DATA, p, .operand f place p, .instruction f place⟩
  | _ => 0

def Operand.notes : Operand C → Notes C
  | .instruction producer => ⟨0, {(producer, .operand f place p)}, 0⟩
  | .argument n => ⟨0, 0, {(n, .instruction f place, p)}⟩
  | _ => 0

end Operands

end Ir

structure Located (module : Ir.Module C) (f : Nat) (function : Ir.Function C) : Prop where
  isFunction : module.functions[f]? = some function
  wellFormed : function.WellFormed module.functions.length

theorem Located.instruction? {module : Ir.Module C} {f : Nat} {function : Ir.Function C}
    (located : Located module f function) (place : Place) : module.instruction? f place = function.instruction? place := by
  simp [Ir.Module.instruction?, located.isFunction]

theorem Ir.Function.instruction?_eq_some {function : Ir.Function C} {place : Place} {instruction : Ir.Instruction C} :
    function.instruction? place = some instruction ↔ ∃ block,
      function.blocks[place.block]? = some block ∧ block.instructions[place.index]? = some instruction := by
  rw [Function.instruction?, Option.bind_eq_bind, Option.bind_eq_some_iff]

theorem Located.operand {module : Ir.Module C} {f : Nat} {function : Ir.Function C}
    {place : Place} {instruction : Ir.Instruction C} {operand : Operand C}
    (located : Located module f function) (isAt : function.instruction? place = some instruction)
    (member : operand ∈ instruction.operands) : operand ≠ .other ∧
      ∀ producer, operand = .instruction producer → function.instruction? producer ≠ none := by
  obtain ⟨block, isBlock, isInstruction⟩ := Ir.Function.instruction?_eq_some.mp isAt
  have inFunction := mem_of_getElem? isBlock
  have inBlock := mem_of_getElem? isInstruction
  constructor
  · rintro rfl
    exact located.wellFormed.known block inFunction instruction inBlock member
  · rintro producer rfl
    exact located.wellFormed.operands block inFunction instruction inBlock producer member

section Visit

variable [DecidableEq C] {encode : C → LlvmTextComponents} {module : Ir.Module C}
  {labels : List (Item C)} {picture : Picture C} {functions f : Nat} {b : Builder C}
  {function : Ir.Function C} {place : Place} {instruction : Ir.Instruction C} {notes : Notes C}
  {maps : FunctionMaps} {node : NodeId} {instructionId : String}

theorem visitOperand_shows (located : Located module f function)
    (shows : Shows encode module labels picture (module.firstBlock f + place.block) functions b)
    (records : Records f labels notes maps) (isAt : function.instruction? place = some instruction)
    (isNode : labels[node]? = some (.instruction f place)) {operand : Operand C} {p : Nat}
    (isOperand : instruction.operands[p]? = some operand) (known : operand ≠ .other)
    (defined : ∀ producer, operand = .instruction producer →
      function.instruction? producer ≠ none) :
    Ensures (Builder.visitOperand f function node instructionId (maps, p) operand) b
      fun result b' => result.2 = (p + 1 : Nat) ∧ ∃ labels', labels <+: labels' ∧
        Shows encode module labels' (picture + operand.picture f place p)
          (module.firstBlock f + place.block) functions b' ∧ Records f labels' (notes + operand.notes f place p) result.1 := by
  have options := shows.options
  have stays (same : operand.picture f place p = 0) (nothing : operand.notes f place p = 0) :
      ∃ labels', labels <+: labels' ∧
        Shows encode module labels' (picture + operand.picture f place p) (module.firstBlock f + place.block) functions b ∧
        Records f labels' (notes + operand.notes f place p) maps := by
    rw [same, nothing, add_zero, add_zero]
    exact ⟨labels, prefix_rfl, shows, records⟩
  cases operand with
  | function number => exact .pure ⟨rfl, stays rfl rfl⟩
  | basicBlock number => exact .pure ⟨rfl, stays rfl rfl⟩
  | inlineAsm => exact .pure ⟨rfl, stays rfl rfl⟩
  | metadata => exact .pure ⟨rfl, stays rfl rfl⟩
  | other => exact absurd rfl known
  | constant c =>
    have nothing : (Operand.constant c).notes f place p = 0 := rfl
    refine .read ?_
    rw [if_neg (by simp [options, ProgramGraphOptions.default])]
    refine .step rfl (.pure ⟨rfl, labels, prefix_rfl, ?_, ?_⟩)
    · exact shows.addUse isNode
    · rw [nothing, add_zero]
      exact records
  | instruction producer =>
    obtain ⟨defines, isProducer⟩ := Option.ne_none_iff_exists'.mp (defined producer rfl)
    refine .read ?_
    rw [if_neg (by simp [options, ProgramGraphOptions.default])]
    simp only [isProducer]
    refine (Adds.addLlvmVariable defines.text f "op_inst_id" instructionId).shows shows
      (stands_operand ((located.instruction? place).trans isAt) isOperand
        ((located.instruction? producer).trans isProducer) shows.blockCount) |>.bind ?_
    rintro result b' ⟨shows', isResult⟩
    have grows := prefix_append labels [Item.operand f place p]
    refine (shows'.addDataEdge _ isResult (getElem?_of_isPrefix grows isNode) (by simp [Item.type])).bind ?_
    rintro _ b'' shows''
    refine .pure ⟨rfl, _, grows, ?_, ?_⟩
    · rw [Operand.picture, ← add_assoc]
      exact shows''
    · have kept := records.grow grows
      refine ⟨?_, ?_, ?_, kept.table⟩
      · rw [Notes.add_places, Operand.notes, add_zero]
        exact kept.instructions
      · exact rel_concat kept.definitions ⟨rfl, isResult⟩
      · rw [Notes.add_arguments, Operand.notes, add_zero]
        exact kept.arguments
  | argument n =>
    have nothing : (Operand.argument n : Operand C).picture f place p = 0 := rfl
    refine .read ?_
    rw [if_neg (by simp [options, ProgramGraphOptions.default])]
    refine .pure ⟨rfl, labels, prefix_rfl, ?_, ?_⟩
    · rw [nothing, add_zero]
      exact shows
    · refine ⟨?_, ?_, ?_, records.table.addConsumer⟩
      · rw [Notes.add_places, Operand.notes, add_zero]
        exact records.instructions
      · rw [Notes.add_definitions, Operand.notes, add_zero]
        exact records.definitions
      · rw [addConsumer_uses]
        exact records.arguments.add (rel_singleton ⟨rfl, isNode, rfl⟩)

end Visit

/-! ## Instructions -/

namespace Ir

section Instructions

variable (f : Nat) (place : Place) (instruction : Instruction C)

def Instruction.callSites : Multiset (Item C × Nat) :=
  match instruction.calledFunction with
  | some callee => {(.instruction f place, callee)}
  | none => 0

def Instruction.visited : Picture C × Notes C :=
  (⟨{.instruction f place}, place.edges f, instruction.callSites f place, 0⟩, ⟨{place}, 0, 0⟩) +
    instruction.total fun p operand => (operand.picture f place p, operand.notes f place p)

end Instructions

end Ir

/-- The first and the last node of the instructions of a block that have been visited. -/
inductive Ends (labels : List (Item C)) (f b : Nat) : Nat → Option NodeId → Option NodeId → Prop
  | none : Ends labels f b 0 none none
  | some {i : Nat} {first last : NodeId}
      (isFirst : labels[first]? = some (.instruction f ⟨b, 0⟩))
      (isLast : labels[last]? = some (.instruction f ⟨b, i⟩)) :
      Ends labels f b (i + 1) (some first) (some last)

section Visit

variable [DecidableEq C] {encode : C → LlvmTextComponents} {module : Ir.Module C}
  {labels : List (Item C)} {picture : Picture C} {functions f : Nat} {b : Builder C}
  {function : Ir.Function C} {instruction : Ir.Instruction C} {notes : Notes C}
  {maps : FunctionMaps} {node : NodeId} {instructionId : String} {place : Place}

theorem visitOperands_shows (located : Located module f function)
    (shows : Shows encode module labels picture (module.firstBlock f + place.block) functions b)
    (records : Records f labels notes maps) (isAt : function.instruction? place = some instruction)
    (isNode : labels[node]? = some (.instruction f place)) :
    Ensures (instruction.operands.foldlM (Builder.visitOperand f function node instructionId)
        (maps, 0)) b
      fun result b' => ∃ labels', labels <+: labels' ∧
        Shows encode module labels'
          ((picture, notes) + instruction.total fun p operand =>
            (operand.picture f place p, operand.notes f place p)).1
          (module.firstBlock f + place.block) functions b' ∧
        Records f labels' ((picture, notes) + instruction.total fun p operand =>
            (operand.picture f place p, operand.notes f place p)).2 result.1 := by
  refine (Ensures.foldlM_sum (M := Picture C × Notes C) (fun entry => (entry.1.picture f place entry.2, entry.1.notes f place entry.2))
    (fun p drawn result b' => result.2 = (p : Int) ∧ ∃ labels', labels <+: labels' ∧
      Shows encode module labels' drawn.1 (module.firstBlock f + place.block) functions b' ∧
      Records f labels' drawn.2 result.1)
    (picture, notes) ⟨rfl, labels, prefix_rfl, shows, records⟩ ?_).mono fun _ _ => And.right
  rintro operand p ⟨maps', position⟩ b' drawn isOperand ⟨rfl, labels', grows, shows', records'⟩
  obtain ⟨known, defined⟩ := located.operand isAt (mem_of_getElem? isOperand)
  exact (visitOperand_shows located shows' records' isAt (getElem?_of_isPrefix grows isNode)
    isOperand known defined).mono fun _ _ => And.imp_right (exists_grows grows)

theorem visitLinked_shows (located : Located module f function) {first : NodeId}
    (shows : Shows encode module labels
      (picture + .ofItem (.instruction f place) + ⟨0, place.edges f, 0, 0⟩)
      (module.firstBlock f + place.block) functions b) (records : Records f labels (notes + ⟨{place}, 0, 0⟩) maps)
    (isAt : function.instruction? place = some instruction) (isFirst : labels[first]? = some (.instruction f ⟨place.block, 0⟩))
    (isNode : labels[node]? = some (.instruction f place)) :
    Ensures (do
      if let some calledFunction := instruction.calledFunction then
        modify fun b => { b with callSites := b.callSites ++ [(node, calledFunction)] }
      let (maps, _) ← instruction.operands.foldlM (Builder.visitOperand f function node instructionId) (maps, 0)
      return (⟨some first, some node, maps⟩ : Builder.BlockVisit)) b
      fun result b' => ∃ labels', labels <+: labels' ∧
        Shows encode module labels' ((picture, notes) + instruction.visited f place).1 (module.firstBlock f + place.block) functions b' ∧
        Records f labels' ((picture, notes) + instruction.visited f place).2 result.maps ∧
        Ends labels' f place.block (place.index + 1) result.firstNode result.lastNode := by
  have operands {b₁ : Builder C} (shows₁ : Shows encode module labels
      (picture + ⟨{.instruction f place}, place.edges f, instruction.callSites f place, 0⟩)
      (module.firstBlock f + place.block) functions b₁) :
      Ensures (instruction.operands.foldlM (Builder.visitOperand f function node instructionId) (maps, 0)) b₁ _ :=
    visitOperands_shows located shows₁ records isAt isNode
  rw [Ir.Instruction.visited, ← add_assoc]
  cases called : instruction.calledFunction with
  | none =>
    have drawn : picture + .ofItem (.instruction f place) + ⟨0, place.edges f, 0, 0⟩ =
        picture + ⟨{.instruction f place}, place.edges f, instruction.callSites f place, 0⟩ := by
      ext1 <;> simp [Ir.Instruction.callSites, called]
    refine (operands (drawn ▸ shows)).bind ?_
    rintro ⟨maps', position⟩ b' ⟨labels', grows, shows', records'⟩
    exact .pure ⟨labels', grows, shows', records', .some (getElem?_of_isPrefix grows isFirst) (getElem?_of_isPrefix grows isNode)⟩
  | some callee =>
    have drawn : picture + .ofItem (.instruction f place) + ⟨0, place.edges f, 0, 0⟩ + ⟨0, 0, {(.instruction f place, callee)}, 0⟩ =
        picture + ⟨{.instruction f place}, place.edges f, instruction.callSites f place, 0⟩ := by
      ext1 <;> simp [Ir.Instruction.callSites, called]
    refine .step rfl ((operands (drawn ▸ shows.addCallSite isNode)).bind ?_)
    rintro ⟨maps', position⟩ b' ⟨labels', grows, shows', records'⟩
    exact .pure ⟨labels', grows, shows', records', .some (getElem?_of_isPrefix grows isFirst) (getElem?_of_isPrefix grows isNode)⟩

theorem visitInstruction_shows (located : Located module f function) {n i : Nat} {first last : Option NodeId} {mark : String}
    (shows : Shows encode module labels picture (module.firstBlock f + n) functions b)
    (records : Records f labels notes maps) (ends : Ends labels f n i first last)
    (isAt : function.instruction? ⟨n, i⟩ = some instruction) :
    Ensures (Builder.visitInstruction f function n mark ⟨first, last, maps⟩ (instruction, i)) b
      fun result b' => ∃ labels', labels <+: labels' ∧
        Shows encode module labels' ((picture, notes) + instruction.visited f ⟨n, i⟩).1
          (module.firstBlock f + n) functions b' ∧
        Records f labels' ((picture, notes) + instruction.visited f ⟨n, i⟩).2 result.maps ∧
        Ends labels' f n (i + 1) result.firstNode result.lastNode := by
  refine ((Adds.addLlvmInstruction _ _ _ _).shows shows (stands_instruction
    ((located.instruction? ⟨n, i⟩).trans isAt) shows.blockCount)).bind ?_
  rintro address b₁ ⟨shows₁, isNode⟩
  have grows := prefix_append labels [Item.instruction f ⟨n, i⟩]
  have kept := records.grow grows
  have noted : Records f (labels ++ [.instruction f ⟨n, i⟩]) (notes + ⟨{⟨n, i⟩}, 0, 0⟩)
      { maps with instructions := maps.instructions ++ [(⟨n, i⟩, address)] } := by
    refine ⟨?_, ?_, ?_, kept.table⟩
    · rw [Notes.add_places, Multiset.map_add]
      exact rel_concat kept.instructions ⟨rfl, isNode⟩
    · rw [Notes.add_definitions, add_zero]
      exact kept.definitions
    · rw [Notes.add_arguments, add_zero]
      exact kept.arguments
  cases ends with
  | none =>
    have drawn : picture + .ofItem (.instruction f ⟨n, 0⟩) + ⟨0, (Place.mk n 0).edges f, 0, 0⟩ =
        picture + .ofItem (.instruction f ⟨n, 0⟩) := add_zero _
    exact (visitLinked_shows located (by rw [drawn]; exact shows₁) noted isAt isNode isNode).mono fun _ _ => exists_grows grows
  | some isFirst isLast =>
    refine (shows₁.addControlEdge (getElem?_of_isPrefix grows isLast) isNode rfl rfl rfl).bind ?_
    rintro _ b₂ shows₂
    exact (visitLinked_shows located shows₂ noted isAt (getElem?_of_isPrefix grows isFirst) isNode).mono fun _ _ => exists_grows grows

end Visit

/-! ## Blocks -/

namespace Ir

def BasicBlock.visited (f n : Nat) (block : BasicBlock C) : Picture C × Notes C :=
  (block.instructions.zipIdx.map fun (instruction, i) => instruction.visited f ⟨n, i⟩).sum

end Ir

def Ir.Function.visited (f : Nat) (function : Ir.Function C) : Picture C × Notes C :=
  function.total fun place instruction => instruction.visited f place

theorem Ir.Module.firstBlock_succ {module : Ir.Module C} {f : Nat} {function : Ir.Function C}
    (isFunction : module.functions[f]? = some function) : module.firstBlock (f + 1) = module.firstBlock f + function.blocks.length := by
  rw [firstBlock, take_add_one, isFunction]
  simp [firstBlock]

theorem exists_lookup {K V : Type} [BEq K] [LawfulBEq K] {table : List (K × V)} {key : K} (member : key ∈ table.map Prod.fst) :
    ∃ value, table.lookup key = some value ∧ (key, value) ∈ table := by
  obtain ⟨entry, inside, rfl⟩ := mem_map.mp member
  have found : (table.lookup entry.1).isSome := lookup_isSome_iff.mpr ⟨entry, inside, beq_self_eq_true entry.1⟩
  obtain ⟨value, isValue⟩ := Option.isSome_iff_exists.mp found
  obtain ⟨before, after, split, -⟩ := lookup_eq_some_iff.mp isValue
  exact ⟨value, isValue, by simp [split]⟩

structure Entered (labels : List (Item C)) (f : Nat) (function : Ir.Function C) (n : Nat)
    (blocks : List (Nat × BasicBlockEntryExit)) : Prop where
  keys : blocks.map Prod.fst = List.range n
  entry : ∀ visited ∈ blocks, labels[visited.2.1]? = some (.instruction f ⟨visited.1, 0⟩)
  exit : ∀ visited ∈ blocks, labels[visited.2.2]? = some (function.exit f visited.1)

variable {blocks : List (Nat × BasicBlockEntryExit)}

theorem Entered.grow {labels : List (Item C)} {f n : Nat} {function : Ir.Function C}
    (grows : labels <+: labels') (entered : Entered labels f function n blocks) : Entered labels' f function n blocks where
  keys := entered.keys
  entry := fun visited member => getElem?_of_isPrefix grows (entered.entry visited member)
  exit := fun visited member => getElem?_of_isPrefix grows (entered.exit visited member)

theorem Entered.add {labels : List (Item C)} {f n : Nat} {function : Ir.Function C}
    {ends : BasicBlockEntryExit} (entered : Entered labels f function n blocks)
    (isFirst : labels[ends.1]? = some (.instruction f ⟨n, 0⟩)) (isLast : labels[ends.2]? = some (function.exit f n)) :
    Entered labels f function (n + 1) (blocks ++ [(n, ends)]) where
  keys := by rw [map_append, entered.keys, range_succ, map_singleton]
  entry := by
    intro visited member
    rcases mem_append.mp member with old | new
    · exact entered.entry visited old
    · rwa [mem_singleton.mp new]
  exit := by
    intro visited member
    rcases mem_append.mp member with old | new
    · exact entered.exit visited old
    · rwa [mem_singleton.mp new]

theorem Entered.lookup {labels : List (Item C)} {f n k : Nat} {function : Ir.Function C}
    (entered : Entered labels f function n blocks) (within : k < n) :
    ∃ first last, blocks.lookup k = some (first, last) ∧
      labels[first]? = some (.instruction f ⟨k, 0⟩) ∧ labels[last]? = some (function.exit f k) := by
  have isKey : k ∈ blocks.map Prod.fst := by
    rw [entered.keys]
    exact mem_range.mpr within
  obtain ⟨⟨first, last⟩, found, member⟩ := exists_lookup isKey
  exact ⟨first, last, found, entered.entry _ member, entered.exit _ member⟩

section Visit

variable [DecidableEq C] {encode : C → LlvmTextComponents} {module : Ir.Module C}
  {labels : List (Item C)} {picture : Picture C} {functions f n : Nat} {b : Builder C}
  {function : Ir.Function C} {block : Ir.BasicBlock C} {notes : Notes C} {maps : FunctionMaps}

theorem visitBasicBlock_shows (located : Located module f function)
    (shows : Shows encode module labels picture (module.firstBlock f + n) functions b)
    (records : Records f labels notes maps) (isBlock : function.blocks[n]? = some block) :
    Ensures (Builder.VisitBasicBlock f function n block maps) b
      fun result b' => ∃ labels', labels <+: labels' ∧
        Shows encode module labels' ((picture, notes) + block.visited f n).1
          (module.firstBlock f + (n + 1)) functions b' ∧
        Records f labels' ((picture, notes) + block.visited f n).2 result.2 ∧
        labels'[result.1.1]? = some (.instruction f ⟨n, 0⟩) ∧ labels'[result.1.2]? = some (function.exit f n) := by
  have nonempty := located.wellFormed.nonempty block (mem_of_getElem? isBlock)
  rw [Builder.VisitBasicBlock, if_neg (mt length_eq_zero_iff.mp nonempty)]
  refine (Ensures.foldlM_zipIdx_sum (M := Picture C × Notes C) (fun (instruction, i) => instruction.visited f ⟨n, i⟩)
    (fun i drawn visit b' => ∃ labels', labels <+: labels' ∧
      Shows encode module labels' drawn.1 (module.firstBlock f + n) functions b' ∧
      Records f labels' drawn.2 visit.maps ∧ Ends labels' f n i visit.firstNode visit.lastNode)
    (picture, notes) ⟨labels, prefix_rfl, shows, records, .none⟩ ?_).bind ?_
  · rintro instruction i ⟨first, last, maps'⟩ b' drawn isInstruction ⟨labels', grows, shows', records', ends⟩
    have isAt : function.instruction? ⟨n, i⟩ = some instruction := Ir.Function.instruction?_eq_some.mpr ⟨block, isBlock, isInstruction⟩
    exact (visitInstruction_shows located shows' records' ends isAt).mono fun _ _ => exists_grows grows
  · rintro ⟨first, last, maps'⟩ b' ⟨labels', grows, shows', records', ends⟩
    obtain ⟨i, length⟩ := Nat.exists_eq_succ_of_ne_zero (mt length_eq_zero_iff.mp nonempty)
    rw [length] at ends
    cases ends with
    | some isFirst isLast =>
      refine .step rfl (.pure ⟨labels', grows, shows'.nextBlock, records', isFirst, ?_⟩)
      rw [isLast, Ir.Function.exit, isBlock, Option.map_some, Option.getD_some, length]
      rfl

theorem visitBlocks_shows (located : Located module f function)
    (shows : Shows encode module labels picture (module.firstBlock f) functions b) :
    Ensures (function.blocks.zipIdx.foldlM (Builder.visitBlock f function) ([], ⟨[], [], []⟩)) b
      fun result b' => ∃ labels', labels <+: labels' ∧
        Shows encode module labels' (picture + (function.visited f).1)
          (module.firstBlock (f + 1)) functions b' ∧
        Records f labels' (function.visited f).2 result.2 ∧ Entered labels' f function function.blocks.length result.1 := by
  have loop : Ensures (function.blocks.zipIdx.foldlM (Builder.visitBlock f function)
      ([], ⟨[], [], []⟩)) b fun result b' => ∃ labels', labels <+: labels' ∧
        Shows encode module labels' ((picture, 0) + function.visited f).1 (module.firstBlock f + function.blocks.length) functions b' ∧
        Records f labels' ((picture, 0) + function.visited f).2 result.2 ∧
        Entered labels' f function function.blocks.length result.1 := by
    refine .foldlM_zipIdx_sum (M := Picture C × Notes C) (fun entry => Ir.BasicBlock.visited f entry.2 entry.1)
      (fun n drawn (result : List (Nat × BasicBlockEntryExit) × FunctionMaps) b' =>
        ∃ labels', labels <+: labels' ∧
        Shows encode module labels' drawn.1 (module.firstBlock f + n) functions b' ∧
        Records f labels' drawn.2 result.2 ∧ Entered labels' f function n result.1)
      (picture, 0) ⟨labels, prefix_rfl, shows, .empty, ⟨rfl, by simp, by simp⟩⟩ ?_
    rintro block n ⟨blocks, maps'⟩ b' drawn isBlock ⟨labels', grows, shows', records', entered⟩
    refine (visitBasicBlock_shows located shows' records' isBlock).bind ?_
    rintro ⟨ends, maps''⟩ b'' ⟨labels'', grows', shows'', records'', isFirst, isLast⟩
    exact .pure ⟨labels'', grows.trans grows', shows'', records'', (entered.grow grows').add isFirst isLast⟩
  simpa [Ir.Module.firstBlock_succ located.isFunction] using loop

end Visit

end NeuroMerge.Graph
