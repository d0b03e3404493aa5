import NeuroMerge.Graph.VisitProperties

/-!
# Parts of pictures

Totals are sums, so that a part of a total is the total of the parts.
-/

namespace NeuroMerge.Graph

open List

open Classifier (NodeType Flow Feature)
open Ir (Place Operand LlvmTextComponents)

variable {C : Type}

/-! ## Totals -/

section Additive

variable {α M N : Type} [AddCommMonoid M] [AddCommMonoid N]

/-- The function is additive, as the parts of a sum are. -/
structure IsAdditive (g : M → N) : Prop where
  zero : g 0 = 0
  add : ∀ x y, g (x + y) = g x + g y

theorem IsAdditive.sum {g : M → N} (additive : IsAdditive g) (elements : List M) : g elements.sum = (elements.map g).sum :=
  map_list_sum (⟨⟨g, additive.zero⟩, additive.add⟩ : M →+ N) elements

theorem mem_sum {x : α} (elements : List (Multiset α)) : x ∈ elements.sum ↔ ∃ element ∈ elements, x ∈ element := by
  induction elements with
  | nil => simp
  | cons element rest ih => simp [ih]

theorem mem_sum_zipIdx {β : Type} {x : α} {elements : List β} {g : β × Nat → Multiset α} :
    x ∈ (elements.zipIdx.map g).sum ↔ ∃ i element, elements[i]? = some element ∧ x ∈ g (element, i) := by
  rw [mem_sum]
  simp only [mem_map, Prod.exists, mk_mem_zipIdx_iff_getElem?]
  constructor
  · rintro ⟨_, ⟨element, i, isElement, rfl⟩, inside⟩
    exact ⟨i, element, isElement, inside⟩
  · rintro ⟨i, element, isElement, inside⟩
    exact ⟨_, ⟨element, i, isElement, rfl⟩, inside⟩

end Additive

namespace Ir

section Parts

variable {M N : Type} [AddCommMonoid M] [AddCommMonoid N] {g : M → N}

theorem Instruction.additive_total (additive : IsAdditive g) (instruction : Instruction C)
    (contribution : Nat → Operand C → M) : g (instruction.total contribution) =
      instruction.total fun p operand => g (contribution p operand) := by
  rw [Instruction.total, additive.sum, map_map]
  rfl

theorem Function.additive_total (additive : IsAdditive g) (function : Function C)
    (contribution : Place → Instruction C → M) : g (function.total contribution) =
      function.total fun place instruction => g (contribution place instruction) := by
  rw [Function.total, additive.sum, map_map]
  refine congrArg List.sum (map_congr_left ?_)
  rintro ⟨block, n⟩ -
  rw [Function.comp_apply, additive.sum, map_map]
  rfl

theorem Module.additive_total (additive : IsAdditive g) (module : Module C)
    (contribution : Nat → Function C → M) : g (module.total contribution) =
      module.total fun f function => g (contribution f function) := by
  rw [Module.total, additive.sum, map_map]
  rfl

theorem Module.total_add (module : Module C) (c d : Nat → Function C → M) :
    (module.total fun f function => c f function + d f function) = module.total c + module.total d := by
  rw [Module.total, Module.total, Module.total, ← sum_map_add]

theorem Module.total_congr {module : Module C} {c d : Nat → Function C → M}
    (same : ∀ f function, module.functions[f]? = some function → c f function = d f function) : module.total c = module.total d := by
  refine congrArg List.sum (map_congr_left ?_)
  rintro ⟨function, f⟩ member
  exact same f function (List.mk_mem_zipIdx_iff_getElem?.mp member)

end Parts

section Members

variable {α : Type} {x : α}

theorem Instruction.mem_total {instruction : Instruction C}
    {contribution : Nat → Operand C → Multiset α} : x ∈ instruction.total contribution ↔
      ∃ p operand, instruction.operands[p]? = some operand ∧ x ∈ contribution p operand :=
  mem_sum_zipIdx

theorem Function.mem_total {function : Function C}
    {contribution : Place → Instruction C → Multiset α} : x ∈ function.total contribution ↔
      ∃ place instruction, function.instruction? place = some instruction ∧ x ∈ contribution place instruction := by
  rw [Function.total, mem_sum_zipIdx]
  simp only [mem_sum_zipIdx, instruction?_eq_some]
  constructor
  · rintro ⟨n, block, isBlock, i, instruction, isInstruction, inside⟩
    exact ⟨⟨n, i⟩, instruction, ⟨block, isBlock, isInstruction⟩, inside⟩
  · rintro ⟨⟨n, i⟩, instruction, ⟨block, isBlock, isInstruction⟩, inside⟩
    exact ⟨n, block, isBlock, i, instruction, isInstruction, inside⟩

theorem Module.mem_total {module : Module C} {contribution : Nat → Function C → Multiset α} :
    x ∈ module.total contribution ↔ ∃ f function, module.functions[f]? = some function ∧ x ∈ contribution f function :=
  mem_sum_zipIdx

end Members

end Ir

/-! ## What a function contributes -/

def useEdge {K : Type} (source : K → Item C) (use : K × Item C × Nat) : ItemEdge C :=
  ⟨.DATA, use.2.2, source use.1, use.2.1⟩

def definitionEdge (f : Nat) (definition : Place × Item C) : ItemEdge C :=
  ⟨.DATA, 0, .instruction f definition.1, definition.2⟩

namespace Ir

noncomputable def Function.picture (f : Nat) (function : Function C) : Picture C where
  items := function.items f
  edges := (function.visited f).1.edges +
    (function.visited f).2.arguments.map (useEdge (.argument f)) +
    (function.visited f).2.definitions.map (definitionEdge f) +
    (function.reached.map (function.branchEdges f)).sum
  callSites := (function.visited f).1.callSites
  constants := (function.visited f).1.constants

section Visited

variable {M : Type} [AddCommMonoid M] {f : Nat} {function : Function C}

theorem Function.visited_part {g : Picture C × Notes C → M} (additive : IsAdditive g) :
    g (function.visited f) = function.total fun place instruction =>
      g (⟨{.instruction f place}, place.edges f, instruction.callSites f place, 0⟩,
        ⟨{place}, 0, 0⟩) + instruction.total fun p operand => g (operand.picture f place p, operand.notes f place p) := by
  rw [Function.visited, additive_total additive]
  refine congrArg _ (funext fun place => funext fun instruction => ?_)
  rw [Instruction.visited, additive.add, Instruction.additive_total additive]

theorem Function.visited_items : (function.visited f).1.items = function.total fun place instruction => instruction.items f place := by
  rw [function.visited_part (g := fun visited => visited.1.items) ⟨rfl, fun _ _ => rfl⟩]
  have same (place : Place) (p : Nat) (operand : Operand C) : (operand.picture f place p).items = operand.items f place p := by
    cases operand <;> simp [Operand.picture, Operand.items]
  simp only [same]
  rfl

theorem Function.usedArguments_visited : (function.visited f).2.arguments.map Prod.fst = function.usedArguments := by
  rw [function.visited_part (g := fun visited => visited.2.arguments.map Prod.fst) ⟨rfl, fun _ _ => Multiset.map_add _ _ _⟩]
  have same (place : Place) (p : Nat) (operand : Operand C) :
      (operand.notes f place p).arguments.map Prod.fst = operand.usedArguments := by
    cases operand <;> simp [Operand.notes, Operand.usedArguments]
  simp only [same, Multiset.map_zero, zero_add]
  rfl

theorem Function.picture_definition (isDefined : ¬ function.isDeclaration) :
    (function.visited f).1 +
      (⟨((function.visited f).2.arguments.map Prod.fst).dedup.map (.argument f),
        (function.visited f).2.arguments.map (useEdge (.argument f)), 0, 0⟩ +
      (⟨0, (function.visited f).2.definitions.map (definitionEdge f), 0, 0⟩ +
        ⟨0, (function.reached.map (function.branchEdges f)).sum, 0, 0⟩)) = function.picture f := by
  rw [usedArguments_visited]
  ext1
  · rw [picture, items, if_neg isDefined, ← visited_items]
    simp
  · simp [picture, add_assoc]
  · simp [picture]
  · simp [picture]

theorem Function.usedConstants_visited : (function.visited f).1.constants.map Prod.fst = function.usedConstants := by
  rw [function.visited_part (g := fun visited => visited.1.constants.map Prod.fst) ⟨rfl, fun _ _ => Multiset.map_add _ _ _⟩]
  have same (place : Place) (p : Nat) (operand : Operand C) :
      (operand.picture f place p).constants.map Prod.fst = operand.usedConstants := by
    cases operand <;> simp [Operand.picture, Operand.usedConstants]
  simp only [same, Multiset.map_zero, zero_add]
  rfl

theorem Function.mem_visited_places {place : Place} : place ∈ (function.visited f).2.places ↔ function.instruction? place ≠ none := by
  rw [function.visited_part (g := fun visited => visited.2.places) ⟨rfl, fun _ _ => rfl⟩, mem_total, Option.ne_none_iff_exists']
  have nothing (place : Place) (p : Nat) (operand : Operand C) : (operand.notes f place p).places = 0 := by
    cases operand <;> rfl
  simp [nothing, Instruction.total]

theorem Function.visited_arguments {use : Nat × Item C × Nat}
    (member : use ∈ (function.visited f).2.arguments) : use.2.1.type = .INSTRUCTION := by
  rw [function.visited_part (g := fun visited => visited.2.arguments) ⟨rfl, fun _ _ => rfl⟩, mem_total] at member
  obtain ⟨place, instruction, -, inside⟩ := member
  rw [zero_add, Instruction.mem_total] at inside
  obtain ⟨p, operand, -, inside⟩ := inside
  cases operand with
  | argument n => rw [Multiset.mem_singleton.mp inside]; rfl
  | _ => cases inside

theorem Function.visited_constants {use : C × Item C × Nat}
    (member : use ∈ (function.visited f).1.constants) : use.2.1.type = .INSTRUCTION := by
  rw [function.visited_part (g := fun visited => visited.1.constants) ⟨rfl, fun _ _ => rfl⟩, mem_total] at member
  obtain ⟨place, instruction, -, inside⟩ := member
  rw [zero_add, Instruction.mem_total] at inside
  obtain ⟨p, operand, -, inside⟩ := inside
  cases operand with
  | constant c => rw [Multiset.mem_singleton.mp inside]; rfl
  | _ => cases inside

end Visited

end Ir

theorem Located.visited_definitions {module : Ir.Module C} {f : Nat} {function : Ir.Function C}
    (located : Located module f function) {definition : Place × Item C} (member : definition ∈ (function.visited f).2.definitions) :
    definition.1 ∈ (function.visited f).2.places ∧ definition.2.type = .VARIABLE := by
  rw [function.visited_part (g := fun visited => visited.2.definitions) ⟨rfl, fun _ _ => rfl⟩, Ir.Function.mem_total] at member
  obtain ⟨place, instruction, isAt, inside⟩ := member
  rw [zero_add, Ir.Instruction.mem_total] at inside
  obtain ⟨p, operand, isOperand, inside⟩ := inside
  cases operand with
  | instruction producer =>
    rw [Multiset.mem_singleton.mp inside, Ir.Function.mem_visited_places]
    exact ⟨(located.operand isAt (mem_of_getElem? isOperand)).2 producer rfl, rfl⟩
  | _ => cases inside

theorem Located.visited_callSites {module : Ir.Module C} {f : Nat} {function : Ir.Function C}
    (located : Located module f function) {callSite : Item C × Nat} (member : callSite ∈ (function.visited f).1.callSites) :
    callSite.1.type = .INSTRUCTION ∧ callSite.2 < module.functions.length := by
  rw [function.visited_part (g := fun visited => visited.1.callSites) ⟨rfl, fun _ _ => rfl⟩, Ir.Function.mem_total] at member
  obtain ⟨place, instruction, isAt, inside⟩ := member
  have nothing (p : Nat) (operand : Operand C) : (operand.picture f place p).callSites = 0 := by
    cases operand <;> rfl
  simp only [nothing, Ir.Instruction.total, map_const', sum_replicate, nsmul_zero, add_zero, Ir.Instruction.callSites] at inside
  cases called : instruction.calledFunction with
  | none =>
    rw [called] at inside
    cases inside
  | some callee =>
    rw [called, Multiset.mem_singleton] at inside
    obtain ⟨block, isBlock, isInstruction⟩ := Ir.Function.instruction?_eq_some.mp isAt
    rw [inside]
    exact ⟨rfl, located.wellFormed.called block (mem_of_getElem? isBlock) instruction (mem_of_getElem? isInstruction) callee called⟩

/-! ## The whole module -/

namespace Ir

section Whole

variable (module : Module C) {f : Nat} {function : Function C}

noncomputable def edgesOf (f : Nat) (visited : Picture C × Notes C) : Multiset (ItemEdge C) :=
  visited.1.edges + visited.2.arguments.map (useEdge (.argument f)) +
    visited.2.definitions.map (definitionEdge f) +
    (visited.1.callSites.map fun callSite => module.callEdges callSite.1 callSite.2).sum +
    visited.1.constants.map (useEdge .constant)

theorem edgesOf_additive : IsAdditive (edgesOf module f) where
  zero := rfl
  add visited visited' := by
    simp only [edgesOf, Prod.fst_add, Prod.snd_add, Picture.add_edges, Picture.add_callSites,
      Picture.add_constants, Notes.add_arguments, Notes.add_definitions, Multiset.map_add,
      Multiset.sum_add]
    abel

theorem edgesOf_operand {place : Place} {p : Nat} {operand : Operand C} :
    edgesOf module f (operand.picture f place p, operand.notes f place p) = operand.edges f place p := by
  cases operand <;> simp [edgesOf, Operand.picture, Operand.notes, Operand.edges, useEdge, definitionEdge, add_comm]

theorem edgesOf_visited : edgesOf module f (function.visited f) =
    function.total fun place instruction => instruction.edges f place module := by
  rw [function.visited_part (edgesOf_additive module)]
  refine congrArg _ (funext fun place => funext fun instruction => ?_)
  simp only [edgesOf_operand]
  rw [Instruction.edges, add_right_comm]
  cases called : instruction.calledFunction <;> simp [edgesOf, Instruction.callSites, called]

/-- What the functions add, in front of the calls and the constants. -/
noncomputable def Module.picture : Picture C :=
  .ofItem .external + module.total fun f function => function.picture f

theorem Module.picture_part {M : Type} [AddCommMonoid M] {g : Picture C → M}
    (additive : IsAdditive g) : g module.picture = g (.ofItem .external) + module.total fun f function => g (function.picture f) := by
  rw [picture, additive.add, additive_total additive]

theorem Module.picture_items [DecidableEq C] : module.picture.items +
    (module.picture.constants.map Prod.fst).dedup.map .constant = module.items := by
  rw [module.picture_part (g := Picture.items) ⟨rfl, fun _ _ => rfl⟩,
    module.picture_part (g := fun picture => picture.constants.map Prod.fst) ⟨rfl, fun _ _ => Multiset.map_add _ _ _⟩]
  simp only [Function.picture, Function.usedConstants_visited, Picture.ofItem_items,
    Picture.ofItem_constants, Multiset.map_zero, zero_add]
  rfl

theorem Module.picture_edges : module.picture.edges +
    (module.total fun f function => function.callEdges f .external) +
    (module.picture.callSites.map fun callSite => module.callEdges callSite.1 callSite.2).sum +
    module.picture.constants.map (useEdge .constant) = module.edges := by
  have calls : IsAdditive fun picture : Picture C =>
      (picture.callSites.map fun callSite => module.callEdges callSite.1 callSite.2).sum :=
    ⟨rfl, fun _ _ => by simp only [Picture.add_callSites, Multiset.map_add, Multiset.sum_add]⟩
  have constants : IsAdditive fun picture : Picture C =>
      picture.constants.map (useEdge .constant) := ⟨rfl, fun _ _ => Multiset.map_add _ _ _⟩
  rw [module.picture_part (g := Picture.edges) ⟨rfl, fun _ _ => rfl⟩, module.picture_part calls,
    module.picture_part constants, Module.edges]
  simp only [Picture.ofItem_edges, Picture.ofItem_callSites, Picture.ofItem_constants, Multiset.map_zero, Multiset.sum_zero, zero_add]
  rw [← Module.total_add, ← Module.total_add, ← Module.total_add]
  refine Module.total_congr fun f function _ => ?_
  rw [← edgesOf_visited, edgesOf, Function.picture]
  dsimp only
  abel

theorem Module.picture_constants {use : C × Item C × Nat} (member : use ∈ module.picture.constants) : use.2.1.type = .INSTRUCTION := by
  rw [module.picture_part (g := Picture.constants) ⟨rfl, fun _ _ => rfl⟩] at member
  obtain ⟨f, function, -, inside⟩ := mem_total.mp (by simpa using member)
  exact Function.visited_constants inside

end Whole

end Ir

theorem Ir.Module.WellFormed.located {module : Ir.Module C} {f : Nat} {function : Ir.Function C}
    (wellFormed : module.WellFormed) (isFunction : module.functions[f]? = some function) : Located module f function :=
  ⟨isFunction, wellFormed.functions function (mem_of_getElem? isFunction)⟩

theorem Ir.Module.WellFormed.picture_callSites {module : Ir.Module C} (wellFormed : module.WellFormed) {callSite : Item C × Nat}
    (member : callSite ∈ module.picture.callSites) : callSite.1.type = .INSTRUCTION ∧ callSite.2 < module.functions.length := by
  rw [module.picture_part (g := Picture.callSites) ⟨rfl, fun _ _ => rfl⟩] at member
  obtain ⟨f, function, isFunction, inside⟩ := mem_total.mp (by simpa using member)
  exact (wellFormed.located isFunction).visited_callSites inside

/-! ## No item twice -/

section Nodup

variable {α β : Type}

theorem nodup_sum_zipIdx {elements : List β} {g : β × Nat → Multiset α} (tag : α → Nat)
    (each : ∀ i element, elements[i]? = some element → (g (element, i)).Nodup)
    (tagged : ∀ i element, ∀ x ∈ g (element, i), tag x = i) : (elements.zipIdx.map g).sum.Nodup := by
  induction elements using List.reverseRecOn with
  | nil => exact Multiset.nodup_zero
  | append_singleton front last ih =>
    rw [zipIdx_append, map_append, sum_append, Multiset.nodup_add]
    refine ⟨ih fun i element isElement => each i element ?_, ?_, ?_⟩
    · have within := (List.getElem?_eq_some_iff.mp isElement).1
      rwa [getElem?_append_left within]
    · simpa using each front.length last (by simp)
    · rw [Multiset.disjoint_left]
      intro x inFront inLast
      obtain ⟨i, element, isElement, inside⟩ := mem_sum_zipIdx.mp inFront
      have here : tag x = i := tagged i element x inside
      have there : tag x = front.length := tagged _ _ x (by simpa using inLast)
      have within := (List.getElem?_eq_some_iff.mp isElement).1
      omega

end Nodup

section Items

def Item.place : Item C → Place
  | .instruction _ place | .operand _ place _ => place
  | _ => ⟨0, 0⟩

def Item.position : Item C → Nat
  | .operand _ _ p => p
  | _ => 0

variable {f p : Nat} {place : Place} {x : Item C}

namespace Ir

theorem Operand.mem_items {operand : Operand C} : x ∈ operand.items f place p ↔
    x = .operand f place p ∧ ∃ producer, operand = .instruction producer := by
  cases operand with
  | instruction producer => simp [items]
  | _ => simp [items]

theorem Instruction.mem_items {instruction : Instruction C} :
    x ∈ instruction.items f place ↔ x = .instruction f place ∨
      ∃ p producer, instruction.operands[p]? = some (.instruction producer) ∧ x = .operand f place p := by
  rw [items, Multiset.mem_add, Multiset.mem_singleton, mem_total]
  refine or_congr_right ⟨?_, ?_⟩
  · rintro ⟨p, operand, isOperand, inside⟩
    obtain ⟨same, producer, rfl⟩ := Operand.mem_items.mp inside
    exact ⟨p, producer, isOperand, same⟩
  · rintro ⟨p, producer, isOperand, same⟩
    exact ⟨p, _, isOperand, Operand.mem_items.mpr ⟨same, producer, rfl⟩⟩

inductive Function.Has (f : Nat) (function : Function C) : Item C → Prop
  | undefined (declared : function.isDeclaration) : Has f function (.undefined f)
  | instruction {place : Place} {instruction : Instruction C}
      (isAt : function.instruction? place = some instruction) :
      Has f function (.instruction f place)
  | operand {place producer : Place} {instruction : Instruction C} {p : Nat}
      (isAt : function.instruction? place = some instruction)
      (isOperand : instruction.operands[p]? = some (.instruction producer)) :
      Has f function (.operand f place p)
  | argument {n : Nat} (used : n ∈ function.usedArguments) : Has f function (.argument f n)

theorem Function.mem_usedArguments {function : Function C} {n : Nat} :
    n ∈ function.usedArguments ↔ ∃ place instruction,
      function.instruction? place = some instruction ∧ .argument n ∈ instruction.operands := by
  have used (operand : Operand C) : n ∈ operand.usedArguments ↔ operand = .argument n := by
    cases operand <;> simp [Operand.usedArguments, eq_comm]
  rw [usedArguments, mem_total]
  simp only [Instruction.mem_total, used]
  constructor
  · rintro ⟨place, instruction, isAt, p, operand, isOperand, rfl⟩
    exact ⟨place, instruction, isAt, mem_of_getElem? isOperand⟩
  · rintro ⟨place, instruction, isAt, member⟩
    obtain ⟨p, isOperand⟩ := mem_iff_getElem?.mp member
    exact ⟨place, instruction, isAt, p, _, isOperand, rfl⟩

theorem Function.defined_of_instruction {function : Function C} {instruction : Instruction C}
    (isAt : function.instruction? place = some instruction) : ¬ function.isDeclaration := by
  obtain ⟨block, isBlock, -⟩ := instruction?_eq_some.mp isAt
  rw [isDeclaration, List.isEmpty_iff]
  intro declared
  rw [declared] at isBlock
  cases isBlock

theorem Function.mem_items {function : Function C} : x ∈ function.items f ↔ function.Has f x := by
  constructor
  · intro member
    rw [items] at member
    split at member
    · rename_i declared
      rw [Multiset.mem_singleton.mp member]
      exact .undefined declared
    · rcases Multiset.mem_add.mp member with visited | isArgument
      · obtain ⟨place, instruction, isAt, inside⟩ := mem_total.mp visited
        obtain rfl | ⟨p, producer, isOperand, rfl⟩ := Instruction.mem_items.mp inside
        · exact .instruction isAt
        · exact .operand isAt isOperand
      · obtain ⟨n, used, rfl⟩ := Multiset.mem_map.mp isArgument
        exact .argument (Multiset.mem_dedup.mp used)
  · intro has
    rw [items]
    cases has with
    | undefined declared =>
      rw [if_pos declared]
      exact Multiset.mem_singleton_self _
    | instruction isAt =>
      rw [if_neg (defined_of_instruction isAt), Multiset.mem_add]
      exact .inl (mem_total.mpr ⟨_, _, isAt, Instruction.mem_items.mpr (.inl rfl)⟩)
    | operand isAt isOperand =>
      rw [if_neg (defined_of_instruction isAt), Multiset.mem_add]
      exact .inl (mem_total.mpr ⟨_, _, isAt, Instruction.mem_items.mpr (.inr ⟨_, _, isOperand, rfl⟩)⟩)
    | argument used =>
      obtain ⟨place, instruction, isAt, -⟩ := mem_usedArguments.mp used
      rw [if_neg (defined_of_instruction isAt), Multiset.mem_add]
      exact .inr (Multiset.mem_map_of_mem _ (Multiset.mem_dedup.mpr used))

theorem Instruction.items_nodup (instruction : Instruction C) : (instruction.items f place).Nodup := by
  rw [items, Multiset.nodup_add]
  refine ⟨Multiset.nodup_singleton _, ?_, ?_⟩
  · refine nodup_sum_zipIdx Item.position (fun p operand _ => ?_) fun p operand x inside => ?_
    · cases operand <;> simp [Operand.items]
    · rw [(Operand.mem_items.mp inside).1]
      rfl
  · rw [Multiset.disjoint_left]
    intro x isInstruction inTotal
    obtain ⟨p, operand, -, inside⟩ := mem_total.mp inTotal
    rw [(Operand.mem_items.mp inside).1] at isInstruction
    cases Multiset.mem_singleton.mp isInstruction

theorem Function.items_nodup (function : Function C) : (function.items f).Nodup := by
  rw [items]
  split
  · exact Multiset.nodup_singleton _
  rw [Multiset.nodup_add]
  refine ⟨?_, (Multiset.nodup_dedup _).map fun _ _ same => (Item.argument.inj same).2, ?_⟩
  · refine nodup_sum_zipIdx (fun x => x.place.block) (fun n block _ => ?_) fun n block x inside => ?_
    · refine nodup_sum_zipIdx (fun x => x.place.index) (fun i instruction _ => ?_) fun i instruction x inside => ?_
      · exact instruction.items_nodup
      · obtain rfl | ⟨p, -, -, rfl⟩ := Instruction.mem_items.mp inside <;> rfl
    · obtain ⟨i, instruction, -, inside⟩ := mem_sum_zipIdx.mp inside
      obtain rfl | ⟨p, -, -, rfl⟩ := Instruction.mem_items.mp inside <;> rfl
  · rw [Multiset.disjoint_left]
    intro x visited isArgument
    obtain ⟨place, instruction, -, inside⟩ := mem_total.mp visited
    obtain ⟨n, -, rfl⟩ := Multiset.mem_map.mp isArgument
    obtain same | ⟨p, -, -, same⟩ := Instruction.mem_items.mp inside <;> cases same

theorem Function.Has.function_eq {function : Function C} (has : function.Has f x) : x.function = f := by
  cases has <;> rfl

theorem Module.mem_items [DecidableEq C] {module : Module C} : x ∈ module.items ↔
    x = .external ∨
      (∃ f function, module.functions[f]? = some function ∧ Function.Has f function x) ∨
      ∃ c ∈ module.total fun _ function => function.usedConstants, x = .constant c := by
  simp only [items, Multiset.mem_add, Multiset.mem_singleton, Multiset.mem_map, mem_total,
    Function.mem_items, Multiset.mem_dedup, or_assoc, eq_comm (b := x)]

theorem Module.items_nodup [DecidableEq C] (module : Module C) : module.items.Nodup := by
  rw [items, Multiset.nodup_add, Multiset.nodup_add]
  refine ⟨⟨Multiset.nodup_singleton _, ?_, ?_⟩, ?_, ?_⟩
  · refine nodup_sum_zipIdx Item.function (fun f function _ => function.items_nodup) ?_
    exact fun f function x inside => (Function.mem_items.mp inside).function_eq
  · rw [Multiset.disjoint_left]
    intro x isExternal inTotal
    obtain ⟨f, function, -, inside⟩ := mem_total.mp inTotal
    rw [Multiset.mem_singleton.mp isExternal] at inside
    cases Function.mem_items.mp inside
  · exact (Multiset.nodup_dedup _).map fun _ _ same => Item.constant.inj same
  · rw [Multiset.disjoint_left]
    intro x inFront isConstant
    obtain ⟨c, -, rfl⟩ := Multiset.mem_map.mp isConstant
    rcases Multiset.mem_add.mp inFront with isExternal | inTotal
    · cases Multiset.mem_singleton.mp isExternal
    · obtain ⟨f, function, -, inside⟩ := mem_total.mp inTotal
      cases Function.mem_items.mp inside

end Ir

end Items

end NeuroMerge.Graph
