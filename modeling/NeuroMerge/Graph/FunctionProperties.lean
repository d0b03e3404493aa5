import NeuroMerge.Foundations.Worklist
import NeuroMerge.Graph.PictureProperties

/-!
# Visiting a function

The edges that are put off until the blocks of a function have been visited, and the search
for the blocks that can be reached.
-/

namespace NeuroMerge.Graph

open List

open Classifier (NodeType Flow Feature)
open Ir (Place Operand LlvmTextComponents)

variable {C : Type}

/-! ## What is drawn in any order -/

def itemAt (labels : List (Item C)) (node : NodeId) : Item C := (labels[node]?).getD .external

theorem itemAt_eq {labels : List (Item C)} {node : NodeId} {item : Item C}
    (isNode : labels[node]? = some item) : itemAt labels node = item := by
  rw [itemAt, isNode, Option.getD_some]

def useOf {K : Type} (labels : List (Item C)) (use : K × NodeId × Int) : K × Item C × Nat :=
  (use.1, itemAt labels use.2.1, use.2.2.toNat)

theorem Uses.eq_useOf {K : Type} {labels : List (Item C)} {expected : K × Item C × Nat}
    {use : K × NodeId × Int} (uses : Uses labels expected use) : expected = useOf labels use := by
  rw [useOf, uses.key, itemAt_eq uses.node, uses.position]
  rfl

variable {β : Type}

theorem eq_map_of_rel {α : Type} {R : α → β → Prop} {g : β → α} {s : Multiset α} {t : Multiset β}
    (rel : Multiset.Rel R s t) (decodes : ∀ x y, R x y → x = g y) : s = t.map g := by
  rw [← Multiset.rel_eq, Multiset.rel_map_right]
  exact rel.mono fun x _ y _ => decodes x y

theorem exists_left_of_rel {α : Type} {R : α → β → Prop} {s : Multiset α} {t : Multiset β}
    (rel : Multiset.Rel R s t) {y : β} (member : y ∈ t) : ∃ x ∈ s, R x y :=
  Multiset.exists_mem_of_rel_of_mem (Multiset.rel_flip.mpr rel) member

namespace Picture

variable {α : Type}

theorem sum_drawn (elements : List α) (items : α → Multiset (Item C)) (edges : α → Multiset (ItemEdge C)) :
    (elements.map fun element => (⟨items element, edges element, 0, 0⟩ : Picture C)).sum =
      ⟨(elements.map items).sum, (elements.map edges).sum, 0, 0⟩ := by
  induction elements with
  | nil => rfl
  | cons element rest ih =>
    rw [map_cons, sum_cons, ih]
    rfl

theorem sum_singleton (elements : List α) (g : α → β) :
    (elements.map fun element => ({g element} : Multiset β)).sum = (elements.map g : List β) := by
  induction elements with
  | nil => rfl
  | cons element rest ih =>
    rw [map_cons, sum_cons, ih]
    rfl

theorem sum_ofEdge (elements : List α) (edge : α → ItemEdge C) :
    (elements.map fun element => ofEdge (edge element)).sum = ⟨0, (elements.map edge : List (ItemEdge C)), 0, 0⟩ := by
  rw [← sum_singleton]
  exact (sum_drawn elements (fun _ => 0) fun element => {edge element}).trans (by simp)

end Picture

variable {notes : Notes C} {maps : FunctionMaps}

section Deferred

variable {encode : C → LlvmTextComponents} {module : Ir.Module C} {labels : List (Item C)}
  {picture : Picture C} {blocks functions : Nat} {b : Builder C}

theorem addConsumers_shows {K : Type} {key : K} {source : K → Item C} {node : NodeId}
    {drawn : List (Item C)} {consumers : List (NodeId × Int)} (shows : Shows encode module labels picture blocks functions b)
    (grows : drawn <+: labels) (isSource : labels[node]? = some (source key)) (data : (source key).type ≠ .INSTRUCTION)
    (uses : ∀ consumer ∈ consumers, ∃ expected, Uses drawn expected (key, consumer) ∧
      expected.2.1.type = .INSTRUCTION) :
    Ensures (Builder.addConsumers node consumers) b fun _ b' =>
      Shows encode module labels (picture + ⟨0, (consumers.map fun consumer =>
        useEdge source (useOf drawn (key, consumer)) : List (ItemEdge C)), 0, 0⟩) blocks functions b' := by
  rw [← Picture.sum_ofEdge]
  refine .forM_sum _ (fun total b' => Shows encode module labels total blocks functions b') picture shows ?_
  rintro ⟨consumer, position⟩ member b' total shows'
  obtain ⟨expected, use, instruction⟩ := uses _ member
  rw [← use.eq_useOf]
  obtain ⟨same, isNode, rfl⟩ := use
  have edge := shows'.addDataEdge expected.2.2 isSource (getElem?_of_isPrefix grows isNode) (by simp [data, instruction])
  rw [useEdge, ← same]
  exact edge

variable {K : Type} {source : K → Item C} {expected : Multiset (K × Item C × Nat)} {table : List (K × Consumers)}

theorem drawConsumers [DecidableEq K] (make : K × Consumers → BuilderM C NodeId)
    (shows : Shows encode module labels picture blocks functions b)
    (valid : Table table) (rel : Multiset.Rel (Uses labels) expected (uses table))
    (instructions : ∀ use ∈ expected, use.2.1.type = .INSTRUCTION) (data : ∀ key, (source key).type ≠ .INSTRUCTION)
    (makes : ∀ entry labels' picture' b', Shows encode module labels' picture' blocks functions b' →
      Ensures (make entry) b' fun address b'' =>
        Shows encode module (labels' ++ [source entry.1]) (picture' + .ofItem (source entry.1))
          blocks functions b'' ∧ (labels' ++ [source entry.1])[address]? = some (source entry.1)) (order : Iteration (K × Consumers)) :
    Ensures ((order.visit table).forM fun entry => do
      let node ← make entry
      Builder.addConsumers node entry.2.2) b fun _ b' =>
        ∃ labels', labels <+: labels' ∧ Shows encode module labels' (picture +
          ⟨(expected.map Prod.fst).dedup.map source, expected.map (useEdge source), 0, 0⟩)
          blocks functions b' := by
  have decoded : expected = (uses table).map (useOf labels) := eq_map_of_rel rel fun _ _ => Uses.eq_useOf
  have keys : (expected.map Prod.fst).dedup.map source = (table.map fun entry => ({source entry.1} : Multiset (Item C))).sum := by
    rw [Picture.sum_singleton, decoded, Multiset.map_map]
    have same : Prod.fst ∘ useOf labels = (Prod.fst : K × NodeId × Int → K) := rfl
    rw [same, ← valid.keys, Multiset.map_coe, map_map]
    rfl
  have edges : expected.map (useEdge source) = (table.map fun entry =>
      ((entry.2.2.map fun consumer => useEdge source (useOf labels (entry.1, consumer)) :
        List (ItemEdge C)) : Multiset (ItemEdge C))).sum := by
    have additive : IsAdditive (Multiset.map (useEdge source ∘ useOf labels)) := ⟨rfl, fun _ _ => Multiset.map_add _ _ _⟩
    rw [decoded, Multiset.map_map, uses, additive.sum, map_map]
    refine congrArg List.sum (map_congr_left fun entry _ => ?_)
    rw [Function.comp_apply, Multiset.map_map]
    rfl
  rw [keys, edges, ← Picture.sum_drawn, ← ((order.perm table).map _).sum_eq]
  refine .forM_sum _ (fun total b' => ∃ labels', labels <+: labels' ∧
    Shows encode module labels' total blocks functions b') picture ⟨labels, prefix_rfl, shows⟩ ?_
  rintro entry member b' total ⟨labels', grows, shows'⟩
  have inside : entry ∈ table := (order.perm table).mem_iff.mp member
  refine (makes entry labels' total b' shows').bind ?_
  rintro node b'' ⟨shows'', isNode⟩
  have grows' := grows.trans (prefix_append labels' [source entry.1])
  refine (addConsumers_shows shows'' grows' isNode (data entry.1) ?_).mono ?_
  · intro consumer isConsumer
    have use : (entry.1, consumer) ∈ uses table := (mem_sum _).mpr
      ⟨_, mem_map.mpr ⟨entry, inside, rfl⟩, Multiset.mem_map_of_mem _ isConsumer⟩
    obtain ⟨use, isUse, related⟩ := exists_left_of_rel rel use
    exact ⟨use, related, instructions use isUse⟩
  · rintro _ final drawn
    refine ⟨_, grows', ?_⟩
    rw [add_assoc] at drawn
    exact drawn

variable {f : Nat} {function : Ir.Function C}

theorem addArguments_shows (located : Located module f function)
    (shows : Shows encode module labels picture (module.firstBlock (f + 1)) functions b) (records : Records f labels notes maps)
    (instructions : ∀ use ∈ notes.arguments, use.2.1.type = .INSTRUCTION) (order : Iteration (Nat × Consumers)) :
    Ensures ((order.visit maps.argumentConsumers).forM (Builder.addArgument f function)) b
      fun _ b' => ∃ labels', labels <+: labels' ∧ Shows encode module labels' (picture +
        ⟨(notes.arguments.map Prod.fst).dedup.map (.argument f),
          notes.arguments.map (useEdge (.argument f)), 0, 0⟩) (module.firstBlock (f + 1)) functions b' := by
  refine drawConsumers (fun entry => Builder.AddLlvmVariable
    ((function.arguments[entry.1]?).getD ⟨"", "", "", ""⟩) f "arg_inst_id" entry.2.1) shows
    records.table records.arguments instructions (by simp [Item.type]) ?_ order
  intro entry labels' picture' b' shows'
  exact (Adds.addLlvmVariable _ f "arg_inst_id" entry.2.1).shows shows' (stands_argument located.isFunction shows'.blockCount)

theorem Records.lookup {place : Place} (records : Records f labels notes maps) (member : place ∈ notes.places) :
    ∃ producer, maps.instructions.lookup place = some producer ∧ labels[producer]? = some (.instruction f place) := by
  obtain ⟨entry, inside, results⟩ := Multiset.exists_mem_of_rel_of_mem records.instructions
    (Multiset.mem_map_of_mem (fun place => (place, Item.instruction f place)) member)
  have isKey : place ∈ maps.instructions.map Prod.fst := mem_map.mpr ⟨entry, inside, results.place⟩
  obtain ⟨producer, found, isEntry⟩ := exists_lookup isKey
  obtain ⟨expected, isExpected, related⟩ := exists_left_of_rel records.instructions isEntry
  obtain ⟨other, -, rfl⟩ := Multiset.mem_map.mp isExpected
  obtain rfl : place = other := related.place
  exact ⟨producer, found, related.node⟩

theorem addProducers_shows (shows : Shows encode module labels picture blocks functions b)
    (records : Records f labels notes maps) (visited : ∀ definition ∈ notes.definitions,
      definition.1 ∈ notes.places ∧ definition.2.type = .VARIABLE) :
    Ensures (maps.dataEdgesToAdd.forM (Builder.addProducer function maps.instructions)) b
      fun _ b' => Shows encode module labels (picture + ⟨0, notes.definitions.map (definitionEdge f), 0, 0⟩) blocks functions b' := by
  have decoded : notes.definitions = Multiset.map (fun dataEdge : Place × NodeId =>
      (dataEdge.1, itemAt labels dataEdge.2)) maps.dataEdgesToAdd :=
    eq_map_of_rel records.definitions fun definition dataEdge results => by
      rw [itemAt_eq results.node, results.place]
  rw [decoded, Multiset.map_map, Multiset.map_coe, ← Picture.sum_ofEdge]
  refine .forM_sum _ (fun total b' => Shows encode module labels total blocks functions b') picture shows ?_
  rintro ⟨place, node⟩ member b' total shows'
  obtain ⟨definition, isDefinition, results⟩ := exists_left_of_rel records.definitions member
  obtain ⟨inPlaces, data⟩ := visited definition isDefinition
  obtain ⟨producer, found, isProducer⟩ := records.lookup inPlaces
  rw [Builder.addProducer, results.place, found]
  have edge := shows'.addDataEdge 0 isProducer results.node (iff_of_true rfl (by rw [data]; decide))
  rw [Function.comp_apply, itemAt_eq results.node, results.place]
  exact edge

end Deferred

/-! ## Blocks that can be reached -/

theorem Ir.Function.mem_reached {function : Ir.Function C} {n : Nat} :
    n ∈ function.reached ↔ n < function.blocks.length ∧ Worklist.Reaches function.successors 0 n := by
  simp only [Ir.Function.reached, mem_filter, mem_range, decide_eq_true_eq]
  exact Iff.rfl

theorem Ir.Function.WellFormed.reaches_lt {function : Ir.Function C} {functions n : Nat}
    (wellFormed : function.WellFormed functions) (defined : function.blocks ≠ [])
    (reaches : Worklist.Reaches function.successors 0 n) : n < function.blocks.length := by
  induction reaches with
  | refl => exact length_pos_iff.mpr defined
  | @tail m n _ follows ih =>
    have isBlock := getElem?_eq_getElem ih
    rw [Ir.Function.successors, isBlock] at follows
    exact wellFormed.successors _ (getElem_mem ih) n follows

section Traverse

variable {encode : C → LlvmTextComponents} {module : Ir.Module C} {labels : List (Item C)}
  {picture : Picture C} {functions f current : Nat} {b : Builder C} {function : Ir.Function C}
  {blocks : List (Nat × BasicBlockEntryExit)} {done seen queue : List Nat} {count : Nat}

theorem visitSuccessors_shows (entered : Entered labels f function function.blocks.length blocks)
    (shows : Shows encode module labels picture count functions b)
    (within : ∀ successor ∈ function.successors current, successor < function.blocks.length)
    (search : Worklist.Search function.successors 0 done seen (current :: queue)) {last : NodeId}
    (isLast : labels[last]? = some (function.exit f current)) :
    Ensures ((function.successors current).foldlM (Builder.visitSuccessor blocks last)
        (seen, queue)) b fun result b' =>
      Shows encode module labels (picture + ⟨0, function.branchEdges f current, 0, 0⟩) count
        functions b' ∧ Worklist.Search function.successors 0 (done ++ [current]) result.1 result.2 := by
  let branch (successor : Nat) : ItemEdge C := ⟨.CONTROL, 0, function.exit f current, .instruction f ⟨successor, 0⟩⟩
  refine (Ensures.foldlM (fun looked (result : List Nat × List Nat) b' =>
    Shows encode module labels (picture + ⟨0, (looked.map branch : List (ItemEdge C)), 0, 0⟩) count functions b' ∧
    Worklist.Expanding function.successors 0 done current looked result.1 result.2)
    ⟨?_, search.expand⟩ ?_).mono fun _ _ => And.imp_right Worklist.Expanding.finish
  · exact (add_zero picture).symm ▸ shows
  rintro looked successor remaining ⟨seen', queue'⟩ b' split ⟨shows', expanding⟩
  have isSuccessor : successor ∈ function.successors current := by simp [split]
  obtain ⟨first, _, found, isFirst, -⟩ := entered.lookup (within successor isSuccessor)
  rw [Builder.visitSuccessor]
  simp only [found]
  refine (shows'.addControlEdge isLast isFirst rfl rfl rfl).bind ?_
  rintro _ b'' shows''
  have drawn : picture + ⟨0, (looked.map branch : List (ItemEdge C)), 0, 0⟩ + .ofEdge (branch successor) =
      picture + ⟨0, ((looked ++ [successor]).map branch : List (ItemEdge C)), 0, 0⟩ := by
    rw [add_assoc, map_append]
    rfl
  by_cases before : successor ∈ seen'
  · rw [if_pos before]
    exact .pure ⟨drawn ▸ shows'', expanding.seen_before before⟩
  · rw [if_neg before]
    exact .pure ⟨drawn ▸ shows'', expanding.discovered isSuccessor before⟩

def Ir.Function.exitsOf (f : Nat) (function : Ir.Function C) (blocks : List Nat) : List (Item C) :=
  (blocks.filter fun b => function.successors b = []).map (function.exit f)

theorem Ir.Function.exitsOf_concat : function.exitsOf f (done ++ [current]) =
    function.exitsOf f done ++ if function.successors current = [] then [function.exit f current] else [] := by
  split <;> simp_all [Ir.Function.exitsOf]

def Nodes (labels items : List (Item C)) (nodes : List NodeId) : Prop :=
  List.Forall₂ (fun item node => labels[node]? = some item) items nodes

/-- The rest of the blocks has been expanded, and the exits are those of all of them. -/
def Traversed (encode : C → LlvmTextComponents) (module : Ir.Module C) (labels : List (Item C))
    (picture : Picture C) (count functions f : Nat) (function : Ir.Function C) (done : List Nat)
    (exits : List NodeId) (b : Builder C) : Prop :=
  ∃ rest seen, Worklist.Search function.successors 0 (done ++ rest) seen [] ∧
    Shows encode module labels (picture + ⟨0, (rest.map (function.branchEdges f)).sum, 0, 0⟩) count
      functions b ∧
    Nodes labels (function.exitsOf f (done ++ rest)) exits

theorem Traversed.stop {exits : List NodeId} (search : Worklist.Search function.successors 0 done seen [])
    (shows : Shows encode module labels picture count functions b) (isExits : Nodes labels (function.exitsOf f done) exits) :
    Traversed encode module labels picture count functions f function done exits b :=
  ⟨[], seen, by simpa using search, (add_zero picture).symm ▸ shows, by simpa using isExits⟩

theorem traverse_shows (located : Located module f function) (defined : function.blocks ≠ [])
    (entered : Entered labels f function function.blocks.length blocks) {fuel : Nat}
    {exits : List NodeId} (search : Worklist.Search function.successors 0 done seen queue)
    (enough : function.blocks.length ≤ fuel + done.length) (shows : Shows encode module labels picture count functions b)
    (isExits : Nodes labels (function.exitsOf f done) exits) :
    Ensures (Builder.traverse function blocks fuel seen queue exits) b
      (Traversed encode module labels picture count functions f function done) := by
  have wellFormed := located.wellFormed
  induction fuel generalizing done seen queue exits picture b with
  | zero =>
    cases queue with
    | nil =>
      exact .pure (.stop search shows isExits)
    | cons current queue =>
      have room := search.length_lt (List.range function.blocks.length)
        fun n reaches => List.mem_range.mpr (wellFormed.reaches_lt defined reaches)
      rw [length_range] at room
      omega
  | succ fuel ih =>
    cases queue with
    | nil =>
      exact .pure (.stop search shows isExits)
    | cons current queue =>
      have reaches := search.reached current (search.split.mem_iff.mpr (by simp))
      have inside := wellFormed.reaches_lt defined reaches
      obtain ⟨_, last, found, -, isLast⟩ := entered.lookup inside
      have within : ∀ successor ∈ function.successors current, successor < function.blocks.length := fun successor follows =>
        wellFormed.reaches_lt defined (reaches.tail follows)
      rw [Builder.traverse]
      simp only [found]
      refine (visitSuccessors_shows entered shows within search isLast).bind ?_
      rintro ⟨seen', queue'⟩ b' ⟨shows', search'⟩
      refine (ih search' (by simpa [add_assoc, add_comm 1] using enough) shows' ?_).mono ?_
      · change Nodes labels _ (if (function.successors current).length = 0 then _ else _)
        rw [Ir.Function.exitsOf_concat]
        by_cases isExit : function.successors current = []
        · rw [if_pos isExit, if_pos (List.length_eq_zero_iff.mpr isExit)]
          exact rel_append isExits (.cons isLast .nil)
        · rw [if_neg isExit, if_neg (mt List.length_eq_zero_iff.mp isExit), append_nil]
          exact isExits
      · rintro result b'' ⟨rest, seen'', search'', shows'', isExits'⟩
        refine ⟨current :: rest, seen'', by simpa using search'', ?_, by simpa using isExits'⟩
        rw [add_assoc] at shows''
        exact shows''

end Traverse

/-! ## Functions -/

theorem rel_of_forall₂ {α : Type} {R : α → β → Prop} {elements : List α} {others : List β}
    (related : List.Forall₂ R elements others) : Multiset.Rel R elements others := by
  induction related with
  | nil => exact .zero
  | cons head _ ih => exact .cons head ih

structure Exposes (labels : List (Item C)) (f : Nat) (function : Ir.Function C)
    (entryExits : FunctionEntryExits) : Prop where
  entry : labels[entryExits.1]? = some (function.entry f)
  exits : Multiset.Rel (fun item node => labels[node]? = some item) (function.exits f)
    (entryExits.2 : Multiset NodeId)

theorem Exposes.grow {labels labels' : List (Item C)} {f : Nat} {function : Ir.Function C}
    {entryExits : FunctionEntryExits} (grows : labels <+: labels')
    (exposes : Exposes labels f function entryExits) : Exposes labels' f function entryExits where
  entry := getElem?_of_isPrefix grows exposes.entry
  exits := exposes.exits.mono fun _ _ _ _ => getElem?_of_isPrefix grows

section VisitFunction

variable {encode : C → LlvmTextComponents} {module : Ir.Module C} {labels : List (Item C)}
  {picture : Picture C} {functions f : Nat} {b : Builder C} {function : Ir.Function C}

theorem perm_reached {functions : Nat} (wellFormed : function.WellFormed functions)
    (defined : function.blocks ≠ []) {done seen : List Nat} (search : Worklist.Search function.successors 0 done seen []) :
    done.Perm function.reached := by
  have nodup : function.reached.Nodup := nodup_range.filter _
  rw [perm_ext_iff_of_nodup search.nodup_done nodup]
  intro n
  rw [search.mem_done_iff, Ir.Function.mem_reached]
  exact ⟨fun reaches => ⟨wellFormed.reaches_lt defined reaches, reaches⟩, And.right⟩

theorem Ir.Function.picture_declaration (declared : function.blocks = []) : function.picture f = .ofItem (.undefined f) := by
  have visited : function.visited f = 0 := by rw [visited, total, declared]; rfl
  ext1 <;> simp [picture, visited, reached, items, isDeclaration, declared]

theorem undefinedFunction_shows [DecidableEq C] (located : Located module f function)
    (shows : Shows encode module labels picture (module.firstBlock f) functions b)
    (declared : function.blocks = []) (order : Iteration (Nat × Consumers)) :
    Ensures (Builder.VisitFunction f function order) b fun entryExits b' =>
      ∃ labels', labels <+: labels' ∧ Shows encode module labels' (picture + function.picture f)
        (module.firstBlock (f + 1)) functions b' ∧ Exposes labels' f function entryExits := by
  have isDeclaration : function.isDeclaration := by rw [Ir.Function.isDeclaration, declared]; rfl
  rw [Builder.VisitFunction, if_pos isDeclaration, Ir.Function.picture_declaration declared,
    Ir.Module.firstBlock_succ located.isFunction, declared]
  refine (Adds.addNodeTo .INSTRUCTION _ f).bind ?_
  rintro address b' ⟨rfl, nodes, steady⟩
  refine .step rfl (.pure ?_)
  refine ⟨_, prefix_append labels [.undefined f], shows.addItem ?_ (steady.nodes _ _) stands_undefined, ?_⟩
  · dsimp only
    rw [nodes]
    exact modify_length_append _ _ b.graph.node
  · have isNode : (labels ++ [.undefined f])[b.graph.node.length]? = some (Item.undefined f) := by
      rw [← shows.nodes.length_eq]
      exact getElem?_concat_length
    refine ⟨?_, ?_⟩
    · rw [Ir.Function.entry, if_pos isDeclaration]
      exact isNode
    · rw [Ir.Function.exits, if_pos isDeclaration]
      exact rel_singleton isNode

theorem definedFunction_shows [DecidableEq C] (located : Located module f function)
    (shows : Shows encode module labels picture (module.firstBlock f) functions b)
    (defined : function.blocks ≠ []) (order : Iteration (Nat × Consumers)) :
    Ensures (Builder.VisitFunction f function order) b fun entryExits b' =>
      ∃ labels', labels <+: labels' ∧ Shows encode module labels' (picture + function.picture f)
        (module.firstBlock (f + 1)) functions b' ∧ Exposes labels' f function entryExits := by
  have isDefined : ¬ function.isDeclaration := by
    rwa [Ir.Function.isDeclaration, List.isEmpty_iff]
  rw [Builder.VisitFunction, if_neg isDefined]
  refine (visitBlocks_shows located shows).bind ?_
  rintro ⟨blocks, maps⟩ b₁ ⟨labels₁, grows₁, shows₁, records, entered⟩
  have nonempty : blocks.length ≠ 0 := by
    have length := congrArg List.length entered.keys
    rw [length_map, length_range] at length
    rwa [length, Ne, length_eq_zero_iff]
  dsimp only
  rw [if_neg nonempty]
  refine (addArguments_shows located shows₁ records (fun _ => Ir.Function.visited_arguments) order).bind ?_
  rintro _ b₂ ⟨labels₂, grows₂, shows₂⟩
  refine (addProducers_shows shows₂ (records.grow grows₂) (fun _ => located.visited_definitions)).bind ?_
  rintro _ b₃ shows₃
  have entered₂ := entered.grow grows₂
  obtain ⟨first, last, found, isFirst, -⟩ := entered₂.lookup (length_pos_iff.mpr defined)
  simp only [found]
  refine (traverse_shows located defined entered₂ Worklist.Search.single (by simp) shows₃ .nil).bind ?_
  rintro exits b₄ ⟨rest, seen, search, shows₄, isExits⟩
  have same := perm_reached located.wellFormed defined search
  rw [nil_append] at same isExits
  rw [add_assoc, add_assoc, add_assoc, (same.map _).sum_eq, Ir.Function.picture_definition isDefined] at shows₄
  refine .pure ⟨labels₂, grows₁.trans grows₂, shows₄, ?_, ?_⟩
  · rw [Ir.Function.entry, if_neg isDefined]
    exact isFirst
  · rw [Ir.Function.exits, if_neg isDefined]
    have perm : (function.exitsOf f rest).Perm (function.exitsOf f function.reached) := (same.filter _).map _
    have related := rel_of_forall₂ isExits
    rw [Multiset.coe_eq_coe.mpr perm] at related
    exact related

theorem visitFunction_shows [DecidableEq C] (located : Located module f function)
    (shows : Shows encode module labels picture (module.firstBlock f) functions b) (order : Iteration (Nat × Consumers)) :
    Ensures (Builder.VisitFunction f function order) b fun entryExits b' =>
      ∃ labels', labels <+: labels' ∧ Shows encode module labels' (picture + function.picture f)
        (module.firstBlock (f + 1)) functions b' ∧ Exposes labels' f function entryExits := by
  by_cases declared : function.blocks = []
  · exact undefinedFunction_shows located shows declared order
  · exact definedFunction_shows located shows declared order

end VisitFunction

end NeuroMerge.Graph
