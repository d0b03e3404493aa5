import NeuroMerge.Graph.FunctionProperties

/-!
# The graph of a module

The functions of a module one after the other, the calls between them and the constants.
-/

namespace NeuroMerge.Graph

open List

open Classifier (NodeType Flow Feature)
open Ir (Place Operand LlvmTextComponents)

variable {C : Type}

/-- The functions that have been visited, with the nodes of their entries and exits. -/
structure Tabled (labels : List (Item C)) (module : Ir.Module C) (n : Nat)
    (functions : List (Nat × FunctionEntryExits)) : Prop where
  keys : functions.map Prod.fst = List.range n
  exposes : ∀ entry ∈ functions, ∃ function, module.functions[entry.1]? = some function ∧
    Exposes labels entry.1 function entry.2

namespace Tabled

variable {labels labels' : List (Item C)} {module : Ir.Module C} {n : Nat} {functions : List (Nat × FunctionEntryExits)}

theorem grow (grows : labels <+: labels') (tabled : Tabled labels module n functions) : Tabled labels' module n functions where
  keys := tabled.keys
  exposes := fun entry member => (tabled.exposes entry member).imp fun _ =>
    And.imp_right (Exposes.grow grows)

theorem add {function : Ir.Function C} {entryExits : FunctionEntryExits}
    (tabled : Tabled labels module n functions) (isFunction : module.functions[n]? = some function)
    (exposes : Exposes labels n function entryExits) : Tabled labels module (n + 1) (functions ++ [(n, entryExits)]) where
  keys := by rw [map_append, tabled.keys, range_succ, map_singleton]
  exposes := by
    intro entry member
    rcases mem_append.mp member with old | new
    · exact tabled.exposes entry old
    · rw [mem_singleton.mp new]
      exact ⟨function, isFunction, exposes⟩

theorem lookup {callee : Nat} (tabled : Tabled labels module n functions) (within : callee < n) :
    ∃ entryExits function, functions.lookup callee = some entryExits ∧
      module.functions[callee]? = some function ∧ Exposes labels callee function entryExits := by
  have isKey : callee ∈ functions.map Prod.fst := by
    rw [tabled.keys]
    exact mem_range.mpr within
  obtain ⟨entryExits, found, member⟩ := exists_lookup isKey
  obtain ⟨function, isFunction, exposes⟩ := tabled.exposes _ member
  exact ⟨entryExits, function, found, isFunction, exposes⟩

end Tabled

section Build

variable {encode : C → LlvmTextComponents} {module : Ir.Module C} {labels : List (Item C)}
  {picture : Picture C} {functions f blocks : Nat} {b : Builder C} {function : Ir.Function C}

theorem Shows.addFunction (shows : Shows encode module labels picture blocks functions b)
    (name : String) (m : Nat) : Ensures (Builder.AddFunction name m) b fun f b' =>
      f = functions ∧ Shows encode module labels picture blocks (functions + 1) b' := by
  refine .step rfl (.step rfl (.pure ⟨shows.functions, ?_⟩))
  have more : (b.graph.function ++ [Function.mk name m none]).length = functions + 1 := by
    rw [length_append, shows.functions]
    rfl
  exact { shows with functions := more }

theorem buildFunction_shows [DecidableEq C] {orders : Orders C} {m : Nat}
    {table : List (Nat × FunctionEntryExits)} (located : Located module f function)
    (shows : Shows encode module labels picture (module.firstBlock f) f b) (tabled : Tabled labels module f table) :
    Ensures (Builder.buildFunction orders m table (function, f)) b fun table' b' =>
      ∃ labels', labels <+: labels' ∧ Shows encode module labels' (picture + function.picture f)
        (module.firstBlock (f + 1)) (f + 1) b' ∧ Tabled labels' module (f + 1) table' := by
  refine (shows.addFunction function.name m).bind ?_
  rintro g b' ⟨same, shows'⟩
  subst g
  have rest {b'' : Builder C} (shows'' : Shows encode module labels picture (module.firstBlock f) (f + 1) b'') : Ensures (do
        let entryExits ← Builder.VisitFunction f function (orders.argumentConsumers f)
        return table ++ [(f, entryExits)]) b'' fun table' b' =>
        ∃ labels', labels <+: labels' ∧ Shows encode module labels' (picture + function.picture f)
          (module.firstBlock (f + 1)) (f + 1) b' ∧ Tabled labels' module (f + 1) table' := by
    refine (visitFunction_shows located shows'' _).bind ?_
    rintro entryExits final ⟨labels', grows, drawn, exposes⟩
    exact .pure ⟨labels', grows, drawn, (tabled.grow grows).add located.isFunction exposes⟩
  cases function.entryCount with
  | none => exact rest shows'
  | some count =>
    refine .step rfl (rest (shows'.steady rfl ?_))
    exact ⟨rfl, rfl, length_modify _ _ _, rfl, rfl, rfl⟩

/-! ## Calls -/

theorem Ir.Function.entry_type : (function.entry f).type = .INSTRUCTION := by
  rw [Ir.Function.entry]
  split <;> rfl

theorem Ir.Function.exits_type {exit : Item C} (member : exit ∈ function.exits f) : exit.type = .INSTRUCTION := by
  rw [Ir.Function.exits] at member
  split at member
  · rw [mem_singleton.mp member]
    rfl
  · obtain ⟨n, -, rfl⟩ := mem_map.mp member
    rfl

theorem addCallSite_shows {source : NodeId} {item : Item C} {entryExits : FunctionEntryExits}
    (shows : Shows encode module labels picture blocks functions b)
    (isSource : labels[source]? = some item) (type : item.type = .INSTRUCTION) (exposes : Exposes labels f function entryExits) :
    Ensures (Builder.AddCallSite source entryExits) b fun _ b' => Shows encode module labels
      (picture + ⟨0, function.callEdges f item, 0, 0⟩) blocks functions b' := by
  let back (exit : Item C) : ItemEdge C := ⟨.CALL, 0, exit, item⟩
  have decoded : (function.exits f : Multiset (Item C)) =
      Multiset.map (itemAt labels) (entryExits.2 : Multiset NodeId) :=
    eq_map_of_rel exposes.exits fun _ _ isNode => (itemAt_eq isNode).symm
  refine (shows.addCallEdge isSource exposes.entry type Ir.Function.entry_type).bind ?_
  rintro _ b' shows'
  refine .read ?_
  rw [shows'.options]
  have drawn : picture + ⟨0, function.callEdges f item, 0, 0⟩ =
      picture + .ofEdge ⟨.CALL, 0, item, function.entry f⟩ +
        (entryExits.2.map fun exit => Picture.ofEdge (back (itemAt labels exit))).sum := by
    rw [Picture.sum_ofEdge, add_assoc, Ir.Function.callEdges, decoded, Multiset.map_map]
    rfl
  rw [drawn]
  refine .forM_sum _ (fun total b' => Shows encode module labels total blocks functions b')
    _ shows' ?_
  rintro exit member b'' total shows''
  obtain ⟨expected, isExit, isNode⟩ := exists_left_of_rel exposes.exits member
  rw [itemAt_eq isNode]
  exact shows''.addCallEdge isNode isSource (Ir.Function.exits_type isExit) type

variable {table : List (Nat × FunctionEntryExits)}

theorem Ir.Module.callEdges_eq (isFunction : module.functions[f]? = some function)
    (source : Item C) : module.callEdges source f = function.callEdges f source := by
  rw [Ir.Module.callEdges, isFunction]

theorem Tabled.sum_callEdges (tabled : Tabled labels module module.functions.length table)
    (source : Item C) : (table.map fun entry => module.callEdges source entry.1).sum =
      module.total fun f function => function.callEdges f source := by
  have same : (table.map fun entry => module.callEdges source entry.1) = (table.map Prod.fst).map (module.callEdges source) := by
    rw [map_map]
    rfl
  rw [same, tabled.keys, range_eq_range', ← zipIdx_map_snd, map_map]
  exact Ir.Module.total_congr fun f function isFunction =>
    Ir.Module.callEdges_eq isFunction source

theorem callRoots_shows (order : Iteration (Nat × FunctionEntryExits)) (shows : Shows encode module labels picture blocks functions b)
    (tabled : Tabled labels module module.functions.length table) (isRoot : labels[Builder.rootNode]? = some .external) :
    Ensures ((order.visit table).forM fun function =>
        Builder.AddCallSite Builder.rootNode function.2) b fun _ b' =>
      Shows encode module labels
        (picture + ⟨0, module.total fun f function => function.callEdges f .external, 0, 0⟩) blocks functions b' := by
  have sum := Picture.sum_drawn table (fun _ => 0) fun entry => module.callEdges .external entry.1
  rw [tabled.sum_callEdges, map_const', sum_replicate, nsmul_zero] at sum
  rw [← sum, ← ((order.perm table).map _).sum_eq]
  refine .forM_sum _ (fun total b' => Shows encode module labels total blocks functions b') picture shows ?_
  rintro entry member b' total shows'
  obtain ⟨function, isFunction, exposes⟩ := tabled.exposes entry ((order.perm table).mem_iff.mp member)
  rw [Ir.Module.callEdges_eq isFunction]
  exact addCallSite_shows shows' isRoot rfl exposes

theorem resolveCallSites_shows (order : Iteration (NodeId × Nat)) (shows : Shows encode module labels picture blocks functions b)
    (tabled : Tabled labels module module.functions.length table)
    (calls : ∀ callSite ∈ picture.callSites,
      callSite.1.type = .INSTRUCTION ∧ callSite.2 < module.functions.length) :
    Ensures ((order.visit b.callSites).forM (Builder.resolveCallSite table)) b fun _ b' =>
      Shows encode module labels (picture + ⟨0, (picture.callSites.map fun callSite =>
        module.callEdges callSite.1 callSite.2).sum, 0, 0⟩) blocks functions b' := by
  have decoded : picture.callSites = Multiset.map (fun callSite : NodeId × Nat =>
      (itemAt labels callSite.1, callSite.2)) b.callSites :=
    eq_map_of_rel shows.callSites fun _ _ related => by
      rw [itemAt_eq related.node, related.callee]
  have sum := Picture.sum_drawn b.callSites (fun _ => 0) fun callSite =>
    module.callEdges (itemAt labels callSite.1) callSite.2
  rw [map_const', sum_replicate, nsmul_zero] at sum
  have total : (picture.callSites.map fun callSite =>
      module.callEdges callSite.1 callSite.2).sum = (b.callSites.map fun callSite =>
        module.callEdges (itemAt labels callSite.1) callSite.2).sum := by
    rw [decoded, Multiset.map_map]
    rfl
  rw [total, ← sum, ← ((order.perm b.callSites).map _).sum_eq]
  refine .forM_sum _ (fun total b' => Shows encode module labels total blocks functions b') picture shows ?_
  rintro ⟨node, callee⟩ member b' total shows'
  obtain ⟨callSite, isCallSite, related⟩ := exists_left_of_rel shows.callSites ((order.perm b.callSites).mem_iff.mp member)
  obtain ⟨type, within⟩ := calls callSite isCallSite
  obtain ⟨isNode, rfl⟩ := related
  obtain ⟨entryExits, function, found, isFunction, exposes⟩ := tabled.lookup within
  rw [Builder.resolveCallSite, found, itemAt_eq isNode, Ir.Module.callEdges_eq isFunction]
  exact addCallSite_shows shows' isNode type exposes

/-! ## The module -/

theorem addConstants_shows [DecidableEq C] (order : Iteration (C × Consumers))
    (shows : Shows encode module labels picture (module.firstBlock module.functions.length)
      functions b) (instructions : ∀ use ∈ picture.constants, use.2.1.type = .INSTRUCTION) :
    Ensures ((order.visit b.constants).forM (Builder.addConstant encode)) b fun _ b' =>
      ∃ labels', labels <+: labels' ∧ Shows encode module labels' (picture +
        ⟨(picture.constants.map Prod.fst).dedup.map .constant,
          picture.constants.map (useEdge .constant), 0, 0⟩) (module.firstBlock module.functions.length) functions b' := by
  refine drawConsumers (fun entry => Builder.AddLlvmConstant (encode entry.1) entry.2.1) shows
    shows.table shows.constants instructions (by simp [Item.type]) ?_ order
  intro entry labels' picture' b' shows'
  exact (Adds.addLlvmConstant (encode entry.1) entry.2.1).shows shows' (stands_constant shows'.blockCount)

theorem Shows.new : Shows encode module [.external] (.ofItem .external) 0 0 (Builder.new .default) where
  options := rfl
  nodes := .cons ⟨rfl, rfl, rfl, none, rfl, rfl⟩ .nil
  items := rfl
  edges := .zero
  callSites := .zero
  constants := .zero
  table := ⟨nodup_nil, by simp [Builder.new]⟩
  blockCount := rfl
  functions := rfl

theorem visitFunctions_shows [DecidableEq C] (encode : C → LlvmTextComponents) {orders : Orders C}
    {m : Nat} (wellFormed : module.WellFormed) (shows : Shows encode module [.external] (.ofItem .external) 0 0 b) :
    Ensures (module.functions.zipIdx.foldlM (Builder.buildFunction orders m) []) b
      fun table b' => ∃ labels, [.external] <+: labels ∧
        Shows encode module labels module.picture (module.firstBlock module.functions.length)
          module.functions.length b' ∧ Tabled labels module module.functions.length table := by
  refine .foldlM_zipIdx_sum (fun entry => Ir.Function.picture entry.2 entry.1)
    (fun n total (table : List (Nat × FunctionEntryExits)) b' => ∃ labels, [.external] <+: labels ∧
      Shows encode module labels total (module.firstBlock n) n b' ∧ Tabled labels module n table)
    (.ofItem .external) ?_ ?_
  · exact ⟨_, prefix_rfl, shows, ⟨rfl, by simp⟩⟩
  · rintro function f table' b' total isFunction ⟨labels, grows, shows', tabled⟩
    exact (buildFunction_shows (wellFormed.located isFunction) shows' tabled).mono fun _ _ => exists_grows grows

theorem addProfileSummary_shows {m : Nat} 
    (shows : Shows encode module labels picture blocks functions b) (summarized : module.Summarized) :
    Ensures (Builder.addProfileSummary m module.profileSummary) b fun _ b' => Shows encode module labels picture blocks functions b' := by
  cases flagged : module.profileSummary with
  | none => exact .pure shows
  | some summary =>
    cases summary with
    | none => exact absurd flagged summarized
    | some summary =>
      exact .modify (shows.steady rfl ⟨rfl, rfl, rfl, rfl, rfl, rfl⟩)

theorem Shows.finish (shows : Shows encode module labels picture blocks functions b) :
    Ensures Builder.finish b fun graph b' => graph = b.graph ∧ b' = b := by
  refine .read ?_
  rw [shows.options]
  exact .read (.pure ⟨rfl, rfl⟩)

def Complete [DecidableEq C] (encode : C → LlvmTextComponents) (module : Ir.Module C)
    (b : Builder C) : Prop :=
  ∃ labels picture blocks functions, Shows encode module labels picture blocks functions b ∧
    picture.items = module.items ∧ picture.edges = module.edges

theorem build_complete [DecidableEq C] (encode : C → LlvmTextComponents) (orders : Orders C) (wellFormed : module.WellFormed) :
    Continues (Builder.Build encode orders module) (Builder.new .default)
      (do Builder.addProfileSummary 0 module.profileSummary; Builder.finish)
      (Complete encode module) := by
  refine Continues.step rfl (Continues.step rfl ?_)
  refine Continues.bind (visitFunctions_shows encode wellFormed ?_) ?_
  · exact Shows.new.steady rfl ⟨rfl, rfl, rfl, rfl, rfl, rfl⟩
  rintro table b₁ ⟨labels₁, grows₁, shows₁, tabled⟩
  refine Continues.bind (callRoots_shows orders.functions shows₁ tabled (getElem?_of_isPrefix grows₁ rfl)) ?_
  rintro _ b₂ shows₂
  refine Continues.read (Continues.bind (resolveCallSites_shows orders.callSites shows₂ tabled ?_) ?_)
  · intro callSite member
    exact wellFormed.picture_callSites (by simpa using member)
  rintro _ b₃ shows₃
  refine Continues.read (Continues.bind (addConstants_shows orders.constants shows₃ ?_) ?_)
  · intro use member
    exact module.picture_constants (by simpa using member)
  rintro _ b₄ ⟨labels₄, grows₄, shows₄⟩
  refine Continues.here ⟨labels₄, _, _, _, shows₄, ?_, ?_⟩
  · rw [← module.picture_items]
    simp
  · rw [← module.picture_edges]
    simp

theorem Complete.pictures [DecidableEq C] (complete : Complete encode module b) : ∃ labels, Pictures labels encode module b.graph := by
  obtain ⟨labels, picture, blocks, functions, shows, items, edges⟩ := complete
  have drawn : (labels : Multiset (Item C)) = module.items := shows.items.trans items
  exact ⟨labels, Multiset.coe_nodup.mp (drawn ▸ module.items_nodup), drawn, shows.nodes, edges ▸ shows.edges⟩

theorem build_shows [DecidableEq C] (encode : C → LlvmTextComponents) (orders : Orders C)
    (wellFormed : module.WellFormed) (summarized : module.Summarized) :
    Ensures (Builder.Build encode orders module) (Builder.new .default) fun graph _ => ∃ labels, Pictures labels encode module graph := by
  refine (build_complete encode orders wellFormed).ensures ?_
  rintro b ⟨labels, picture, blocks, functions, shows, items, edges⟩
  refine (addProfileSummary_shows shows summarized).bind ?_
  rintro _ b' shows'
  refine shows'.finish.mono ?_
  rintro graph _ ⟨rfl, -⟩
  exact Complete.pictures ⟨labels, picture, blocks, functions, shows', items, edges⟩

theorem pictures_of_build [DecidableEq C] {orders : Orders C} {graph : ProgramGraph} (wellFormed : module.WellFormed)
    (built : (Builder.Build encode orders module).run (Builder.new .default) = .ok (graph, b)) :
    ∃ labels, Pictures labels encode module graph := by
  have summarized : module.Summarized := by
    intro flagged
    obtain ⟨b', -, same⟩ := build_complete encode orders wellFormed
    rw [built, flagged] at same
    cases same
  obtain ⟨graph', b', ran, pictures⟩ := build_shows encode orders wellFormed summarized
  rw [built] at ran
  cases ran
  exact pictures

end Build

/-! A function that branches on its argument and calls a declaration. -/

def sampleText (text : String) : LlvmTextComponents := ⟨text, text, text, text⟩

def sampleInstruction (text : String) (operands : List (Operand String))
    (calledFunction : Option Nat) : Ir.Instruction String where
  text := sampleText text
  operands := operands
  calledFunction := calledFunction
  profTotalWeight := none
  profMetadata := none

def sampleMain : Ir.Function String where
  name := "main"
  path := "main.c"
  arguments := [sampleText "x"]
  blocks := [
    ⟨[sampleInstruction "icmp" [.argument 0, .constant "0"] none,
      sampleInstruction "br" [.instruction ⟨0, 0⟩, .basicBlock 1, .basicBlock 2] none], [1, 2]⟩,
    ⟨[sampleInstruction "call" [.function 1] (some 1), sampleInstruction "ret" [] none], []⟩,
    ⟨[sampleInstruction "ret" [.constant "0"] none], []⟩]
  entryCount := none

def sampleModule : Ir.Module String where
  name := "main.c"
  targetTriple := ""
  dataLayout := ""
  functions := [sampleMain, ⟨"abort", "", [], [], none⟩]
  profileSummary := none

def sampleOrders : Orders String where
  argumentConsumers _ := ⟨id, fun _ => .rfl⟩
  functions := ⟨id, fun _ => .rfl⟩
  callSites := ⟨id, fun _ => .rfl⟩
  constants := ⟨id, fun _ => .rfl⟩

theorem sampleModule_wellFormed : sampleModule.WellFormed where
  functions := by
    intro function member
    simp only [sampleModule, mem_cons, not_mem_nil, or_false] at member
    rcases member with rfl | rfl
    · constructor
      all_goals simp [sampleMain, sampleModule, sampleInstruction, Ir.Function.instruction?]
    · constructor
      all_goals simp

theorem sampleModule_builds : ∃ graph b,
    (Builder.Build sampleText sampleOrders sampleModule).run (Builder.new .default) = .ok (graph, b) := by
  obtain ⟨graph, b, ran, -⟩ := build_shows sampleText sampleOrders sampleModule_wellFormed nofun
  exact ⟨graph, b, ran⟩

def sampleFlagged : Ir.Module String :=
  { sampleModule with functions := [], profileSummary := some none }

/-- The graph of a module whose operands are of the known kinds is a picture of it: it has a
node for each part, and exactly the edges that the module has. -/
theorem Ir.Module.build_pictures [DecidableEq C] (encode : C → LlvmTextComponents)
    (orders : Orders C) (module : Ir.Module C) (wellFormed : module.WellFormed)
    (summarized : module.Summarized) : ∃ graph labels b,
      (Builder.Build encode orders module).run (Builder.new .default) = .ok (graph, b) ∧
        Pictures labels encode module graph := by
  obtain ⟨graph, b, ran, labels, pictures⟩ := build_shows encode orders wellFormed summarized
  exact ⟨graph, labels, b, ran, pictures⟩

theorem build_pictures_sample : ∃ graph labels b,
    (Builder.Build sampleText sampleOrders sampleModule).run (Builder.new .default) =
        .ok (graph, b) ∧
      Pictures labels sampleText sampleModule graph :=
  Ir.Module.build_pictures sampleText sampleOrders sampleModule sampleModule_wellFormed nofun

/-- What is flagged as a profile summary and is none makes the build fail. -/
theorem build_fails_flagged : ¬ ∀ module : Ir.Module String, module.WellFormed →
    ∃ graph labels b, (Builder.Build sampleText sampleOrders module).run (Builder.new .default) =
        .ok (graph, b) ∧
      Pictures labels sampleText module graph := by
  intro builds
  obtain ⟨graph, labels, b, ran, -⟩ := builds sampleFlagged ⟨nofun⟩
  cases ran

end NeuroMerge.Graph
