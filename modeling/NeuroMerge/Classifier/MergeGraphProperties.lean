import NeuroMerge.Classifier.MergeGraph

/-!
# When a merge graph is well formed

The ends of the edges are renumbered, but not the indices of the functions and of the
modules. They remain right if nothing is dropped before a function or a module that is
kept.
-/

namespace NeuroMerge.Classifier

open List Places

def isKept (node_ids_to_keep : Finset Nat) (isolates : List Nat) (i : Nat) : Bool :=
  i ∈ node_ids_to_keep ∧ i ∉ isolates

def marked (block : List Nat) (i : Nat) (node : Node) : Node :=
  if i ∈ block then
    node.setFullText ((mergePointToken ++ node.fullText.headD []) :: node.fullText.tail)
  else
    node

namespace ProgramGraph

variable (graph : ProgramGraph) (kept : Nat → Bool)

def keptIds : List Nat :=
  Places.below kept graph.node.length

def functionIds : List Nat :=
  (Places.select kept graph.node).map (·.function)

def moduleIds : List Nat :=
  (Places.select (· ∈ graph.functionIds kept) graph.function).map (·.module)

def SameFunction (trimmed : ProgramGraph) (f f' : Function) : Prop :=
  f'.name = f.name ∧ f'.features = f.features ∧
    ∃ module, graph.module[f.module]? = some module ∧ trimmed.module[f'.module]? = some module

/-- The node is the one at this place but for the index of its function, which refers to
the same function. -/
def SameNode (block : List Nat) (trimmed : ProgramGraph) (i : Nat) (node' : Node) : Prop :=
  ∃ node, graph.node[i]? = some node ∧
    node' = { marked block i node with function := node'.function } ∧
    ∃ f f', graph.function[node.function]? = some f ∧
      trimmed.function[node'.function]? = some f' ∧ graph.SameFunction trimmed f f'

def SameEdge (edge edge' : Edge) : Prop :=
  edge' = { edge with source := edge'.source, target := edge'.target } ∧
    (graph.keptIds kept)[edge'.source]? = some edge.source ∧
    (graph.keptIds kept)[edge'.target]? = some edge.target

structure Trimmed (block : List Nat) (old_merge_point_node_id : Nat) (trimmed : ProgramGraph)
    (merge_point : Nat) : Prop where
  nodes : List.Forall₂ (graph.SameNode block trimmed) (graph.keptIds kept) trimmed.node
  edges : List.Forall₂ (graph.SameEdge kept)
    (graph.edge.filter fun edge =>
      edge.source ∈ graph.keptIds kept ∧ edge.target ∈ graph.keptIds kept)
    trimmed.edge
  functions : List.Forall₂ (graph.SameFunction trimmed)
    (Places.select (· ∈ graph.functionIds kept) graph.function) trimmed.function
  mergePoint : (graph.keptIds kept)[merge_point]? = some old_merge_point_node_id

/-- Nothing is dropped that something kept is counted behind, the merge point is kept, and
the nodes of its block have a text. -/
structure NothingBefore (block : List Nat) (old_merge_point_node_id : Nat) : Prop where
  mergePoint : old_merge_point_node_id ∈ graph.keptIds kept
  texts : ∀ i ∈ graph.keptIds kept, i ∈ block →
    ∀ node, graph.node[i]? = some node → node.fullText ≠ []
  functions : ∀ i ∈ graph.functionIds kept, ∀ j < i, j ∈ graph.functionIds kept
  modules : ∀ i ∈ graph.moduleIds kept, ∀ j < i, j ∈ graph.moduleIds kept

def cut (block : List Nat) : ProgramGraph :=
  { graph with
    node := (graph.node.zipIdx.filter fun entry => kept entry.2).map fun entry => marked block entry.2 entry.1
    edge := graph.edge.filterMap (renumberEdge (graph.keptIds kept).zipIdx)
    function := Places.select (· ∈ graph.functionIds kept) graph.function
    module := Places.select (· ∈ graph.moduleIds kept) graph.module }

end ProgramGraph

/-- A merge graph is returned, it is as it should be, and no other graph has changed. -/
def WellTrimmed (node_ids_to_keep : Finset Nat) (isolates : List Nat)
    (old_merge_point_node_id : Nat) (old_merge_point_block_nodes : List Nat) (graphs : Graphs)
    (programl_graph : Fin graphs.length) : Prop :=
  ∃ afterwards merge_graph trimmed merge_point,
    gen_merge_graph_in_programl_format node_ids_to_keep isolates old_merge_point_node_id
      old_merge_point_block_nodes graphs programl_graph =
        .ok (afterwards, merge_graph, merge_point) ∧
    afterwards[merge_graph]? = some trimmed ∧
    (∀ (i : Nat) (before : ProgramGraph), graphs[i]? = some before → afterwards[i]? = some before) ∧
    (graphs.get programl_graph).Trimmed (isKept node_ids_to_keep isolates)
      old_merge_point_block_nodes old_merge_point_node_id trimmed merge_point

@[simp] theorem marked_function (block : List Nat) (i : Nat) (node : Node) : (marked block i node).function = node.function := by
  rw [marked]
  split
  · rfl
  · rfl

section Loop

variable (node_ids_to_keep : Finset Nat) (isolates : List Nat) (block : List Nat)

theorem insertToken_eq {i : Nat} {node : Node} (text : i ∈ block → node.fullText ≠ []) :
    insertToken block i node = .ok (marked block i node) := by
  rw [insertToken, marked]
  split
  · rename_i inBlock
    cases texts : node.fullText with
    | nil => exact absurd texts (text inBlock)
    | cons => rfl
  · rfl

theorem insertToken_ok {i : Nat} {node after : Node} (ok : insertToken block i node = .ok after) : i ∈ block → node.fullText ≠ [] := by
  intro inBlock texts
  rw [insertToken, if_pos inBlock, texts] at ok
  cases ok

theorem foldlM_visitNode {entries : List (Node × Nat)} (loop : NodeLoop)
    (texts : ∀ entry ∈ entries, isKept node_ids_to_keep isolates entry.2 = true →
      entry.2 ∈ block → entry.1.fullText ≠ []) :
    entries.foldlM (visitNode node_ids_to_keep isolates block) loop =
      .ok
        { nodes := loop.nodes ++ (entries.filter fun entry => isKept node_ids_to_keep isolates entry.2).map
              fun entry => marked block entry.2 entry.1
          node_ids_mapping := loop.node_ids_mapping ++
            ((entries.filter fun entry => isKept node_ids_to_keep isolates entry.2).map Prod.snd).zipIdx loop.nodes.length
          function_ids_to_keep := loop.function_ids_to_keep ++
            ((entries.filter fun entry => isKept node_ids_to_keep isolates entry.2).map Prod.fst).map (·.function) } := by
  induction entries generalizing loop with
  | nil => simp [pure, Except.pure]
  | cons entry entries ih =>
    obtain ⟨node, i⟩ := entry
    have rest := fun loop => ih loop fun entry member => texts entry (mem_cons_of_mem _ member)
    rw [foldlM_cons, visitNode]
    by_cases keep : i ∈ node_ids_to_keep ∧ i ∉ isolates
    · have here : isKept node_ids_to_keep isolates i = true := decide_eq_true keep
      have first : ((node, i) :: entries).filter (fun entry => isKept node_ids_to_keep isolates entry.2) =
            (node, i) :: entries.filter fun entry => isKept node_ids_to_keep isolates entry.2 :=
        filter_cons_of_pos here
      rw [if_pos keep, insertToken_eq block (texts (node, i) mem_cons_self here), first]
      simp [bind, Except.bind, rest]
    · have here : ¬ isKept node_ids_to_keep isolates i = true := by
        simpa [isKept] using keep
      have first : ((node, i) :: entries).filter (fun entry => isKept node_ids_to_keep isolates entry.2) =
            entries.filter fun entry => isKept node_ids_to_keep isolates entry.2 :=
        filter_cons_of_neg here
      rw [if_neg keep, first]
      exact rest loop

theorem texts_of_foldlM_ok {entries : List (Node × Nat)} {loop after : NodeLoop}
    (ok : entries.foldlM (visitNode node_ids_to_keep isolates block) loop = .ok after) :
    ∀ entry ∈ entries, isKept node_ids_to_keep isolates entry.2 = true → entry.2 ∈ block → entry.1.fullText ≠ [] := by
  induction entries generalizing loop with
  | nil => exact fun _ member => absurd member not_mem_nil
  | cons first entries ih =>
    rw [foldlM_cons] at ok
    cases visited : visitNode node_ids_to_keep isolates block loop first with
    | error => simp [visited, bind, Except.bind] at ok
    | ok next =>
      rw [visited] at ok
      intro entry member keep
      cases mem_cons.mp member with
      | inr later => exact ih ok entry later keep
      | inl eq =>
        subst eq
        rw [visitNode, if_pos (of_decide_eq_true keep)] at visited
        cases inserted : insertToken block entry.2 entry.1 with
        | error => simp [inserted, bind, Except.bind] at visited
        | ok => exact insertToken_ok block inserted

theorem foldlM_visitNode_graph {graph : ProgramGraph}
    (texts : ∀ entry ∈ graph.node.zipIdx, isKept node_ids_to_keep isolates entry.2 = true →
      entry.2 ∈ block → entry.1.fullText ≠ []) :
    graph.node.zipIdx.foldlM (visitNode node_ids_to_keep isolates block) ⟨[], [], []⟩ =
      .ok
        { nodes := (graph.cut (isKept node_ids_to_keep isolates) block).node
          node_ids_mapping := (graph.keptIds (isKept node_ids_to_keep isolates)).zipIdx
          function_ids_to_keep := graph.functionIds (isKept node_ids_to_keep isolates) } := by
  rw [foldlM_visitNode node_ids_to_keep isolates block _ texts, map_snd_filter_zipIdx]
  rfl

theorem trim_ok_iff {mergePoint : Nat} {graph trimmed : ProgramGraph} {merge_point : Nat} :
    trim node_ids_to_keep isolates mergePoint block graph = .ok (trimmed, merge_point) ↔
      (∀ entry ∈ graph.node.zipIdx, isKept node_ids_to_keep isolates entry.2 = true →
        entry.2 ∈ block → entry.1.fullText ≠ []) ∧
      trimmed = graph.cut (isKept node_ids_to_keep isolates) block ∧
      (graph.keptIds (isKept node_ids_to_keep isolates))[merge_point]? = some mergePoint := by
  have nodup : (graph.keptIds (isKept node_ids_to_keep isolates)).Nodup := nodup_below _ _
  constructor
  · intro ok
    have texts : ∀ entry ∈ graph.node.zipIdx, isKept node_ids_to_keep isolates entry.2 = true →
        entry.2 ∈ block → entry.1.fullText ≠ [] := by
      cases folded : graph.node.zipIdx.foldlM (visitNode node_ids_to_keep isolates block) ⟨[], [], []⟩ with
      | error => simp [trim, folded, bind, Except.bind] at ok
      | ok => exact texts_of_foldlM_ok node_ids_to_keep isolates block folded
    refine ⟨texts, ?_⟩
    rw [trim, foldlM_visitNode_graph node_ids_to_keep isolates block texts] at ok
    simp only [bind, Except.bind] at ok
    cases found : (graph.keptIds (isKept node_ids_to_keep isolates)).zipIdx.lookup mergePoint with
    | none => simp [found] at ok
    | some place =>
      rw [found] at ok
      cases ok
      exact ⟨rfl, (lookup_zipIdx_eq_some_iff nodup).mp found⟩
  · intro ⟨texts, cut, place⟩
    subst cut
    rw [trim, foldlM_visitNode_graph node_ids_to_keep isolates block texts]
    simp only [bind, Except.bind]
    rw [(lookup_zipIdx_eq_some_iff nodup).mpr place]
    rfl

end Loop

namespace ProgramGraph

variable {graph : ProgramGraph} {kept : Nat → Bool} {block : List Nat}

theorem renumberEdge_eq_some_iff {edge edge' : Edge} :
    renumberEdge (graph.keptIds kept).zipIdx edge = some edge' ↔ graph.SameEdge kept edge edge' := by
  have nodup := nodup_below kept graph.node.length
  rw [renumberEdge, SameEdge]
  simp only [Option.bind_eq_bind, Option.bind_eq_some_iff, Option.some.injEq, keptIds, lookup_zipIdx_eq_some_iff nodup]
  constructor
  · rintro ⟨source, atSource, target, atTarget, rfl⟩
    exact ⟨rfl, atSource, atTarget⟩
  · rintro ⟨eq, atSource, atTarget⟩
    exact ⟨edge'.source, atSource, edge'.target, atTarget, eq.symm⟩

theorem cut_edges : List.Forall₂ (graph.SameEdge kept)
    (graph.edge.filter fun edge =>
      edge.source ∈ graph.keptIds kept ∧ edge.target ∈ graph.keptIds kept)
    (graph.edge.filterMap (renumberEdge (graph.keptIds kept).zipIdx)) := by
  have ends : ∀ edge ∈ graph.edge, decide (edge.source ∈ graph.keptIds kept ∧ edge.target ∈ graph.keptIds kept) =
        (renumberEdge (graph.keptIds kept).zipIdx edge).isSome := by
    intro edge _
    rw [Bool.eq_iff_iff, decide_eq_true_iff, Option.isSome_iff_exists]
    simp only [renumberEdge_eq_some_iff]
    constructor
    · intro ⟨source, target⟩
      obtain ⟨source, atSource⟩ := mem_iff_getElem?.mp source
      obtain ⟨target, atTarget⟩ := mem_iff_getElem?.mp target
      exact ⟨{ edge with source := source, target := target }, rfl, atSource, atTarget⟩
    · intro ⟨_, _, atSource, atTarget⟩
      exact ⟨mem_of_getElem? atSource, mem_of_getElem? atTarget⟩
  rw [filter_congr ends]
  exact (forall₂_filterMap (renumberEdge (graph.keptIds kept).zipIdx) graph.edge).imp fun _ _ => renumberEdge_eq_some_iff.mp

theorem mem_functionIds {i : Nat} :
    i ∈ graph.functionIds kept ↔ ∃ place node, kept place = true ∧ graph.node[place]? = some node ∧ node.function = i := by
  simp only [functionIds, mem_map, mem_select]
  constructor
  · rintro ⟨node, ⟨place, keep, found⟩, rfl⟩
    exact ⟨place, node, keep, found, rfl⟩
  · rintro ⟨place, node, keep, found, rfl⟩
    exact ⟨node, ⟨place, keep, found⟩, rfl⟩

theorem forall₂_cut_node {related : Nat → Node → Prop} :
    List.Forall₂ related (graph.keptIds kept) (graph.cut kept block).node ↔
      ∀ i node, kept i = true → graph.node[i]? = some node → related i (marked block i node) := by
  rw [keptIds, ← map_snd_filter_zipIdx, cut, forall₂_map_left_iff, forall₂_map_right_iff, forall₂_same]
  constructor
  · intro all i node keep found
    exact all (node, i) (mem_filter.mpr ⟨mem_zipIdx_iff_getElem?.mpr found, keep⟩)
  · intro all entry member
    exact all entry.2 entry.1 (mem_filter.mp member).2 (mem_zipIdx_iff_getElem?.mp (mem_of_mem_filter member))

variable (wellFormed : graph.WellFormed)

section

include wellFormed

theorem sameFunction_cut (initial : ∀ i ∈ graph.moduleIds kept, ∀ j < i, j ∈ graph.moduleIds kept)
    {f : Function} (member : f ∈ select (· ∈ graph.functionIds kept) graph.function) : graph.SameFunction (graph.cut kept block) f f := by
  have used : f.module ∈ graph.moduleIds kept := List.mem_map.mpr ⟨f, member, rfl⟩
  obtain ⟨i, -, found⟩ := (mem_select _).mp member
  have bound := wellFormed.function f (mem_of_getElem? found)
  refine ⟨rfl, rfl, graph.module[f.module], getElem?_eq_getElem bound, ?_⟩
  rw [cut, getElem?_select_of_initial _ bound (decide_eq_true used) fun j before => decide_eq_true (initial _ used j before)]
  exact getElem?_eq_getElem bound

theorem trimmed_cut {mergePoint merge_point : Nat} (place : (graph.keptIds kept)[merge_point]? = some mergePoint)
    (nothing : graph.NothingBefore kept block mergePoint) : graph.Trimmed kept block mergePoint (graph.cut kept block) merge_point where
  nodes := by
    rw [forall₂_cut_node]
    intro i node keep found
    have used : node.function ∈ graph.functionIds kept := mem_functionIds.mpr ⟨i, node, keep, found, rfl⟩
    have bound := wellFormed.node node (mem_of_getElem? found)
    have stays : (graph.cut kept block).function[node.function]? = graph.function[node.function]? :=
      getElem?_select_of_initial _ bound (decide_eq_true used) fun j before => decide_eq_true (nothing.functions _ used j before)
    have here : graph.function[node.function]? = some graph.function[node.function] := getElem?_eq_getElem bound
    refine ⟨node, found, rfl, _, _, here, ?_, sameFunction_cut wellFormed nothing.modules ?_⟩
    · rw [marked_function, stays, here]
    · exact (mem_select _).mpr ⟨node.function, decide_eq_true used, here⟩
  edges := cut_edges
  functions := forall₂_same.mpr fun _ => sameFunction_cut wellFormed nothing.modules
  mergePoint := place

end

section Converse

variable {mergePoint merge_point : Nat} (trimmed : graph.Trimmed kept block mergePoint (graph.cut kept block) merge_point)

include trimmed

theorem modules_initial : ∀ i ∈ graph.moduleIds kept, ∀ j < i, j ∈ graph.moduleIds kept := by
  intro i used j before
  have all (k : Nat) (keep : decide (k ∈ graph.moduleIds kept) = true) :
      k < (select (· ∈ graph.moduleIds kept) graph.module).length := by
    obtain ⟨f, member, rfl⟩ := List.mem_map.mp (of_decide_eq_true keep)
    obtain ⟨-, -, module, -, there⟩ := forall₂_same.mp trimmed.functions f member
    exact (List.getElem?_eq_some_iff.mp there).1
  exact of_decide_eq_true (initial_of_lt_length (· ∈ graph.moduleIds kept) all (decide_eq_true used) j before)

theorem functions_initial : ∀ i ∈ graph.functionIds kept, ∀ j < i, j ∈ graph.functionIds kept := by
  intro i used j before
  have all (k : Nat) (keep : decide (k ∈ graph.functionIds kept) = true) :
      k < (select (· ∈ graph.functionIds kept) graph.function).length := by
    obtain ⟨place, node, kept, found, rfl⟩ := mem_functionIds.mp (of_decide_eq_true keep)
    obtain ⟨_, _, _, _, _, _, there, _⟩ := forall₂_cut_node.mp trimmed.nodes place node kept found
    rw [marked_function] at there
    exact (List.getElem?_eq_some_iff.mp there).1
  exact of_decide_eq_true (initial_of_lt_length (· ∈ graph.functionIds kept) all (decide_eq_true used) j before)

end Converse

end ProgramGraph

section Main

variable (node_ids_to_keep : Finset Nat) (isolates : List Nat) (old_merge_point_node_id : Nat)
  (old_merge_point_block_nodes : List Nat) (graphs : Graphs) (programl_graph : Fin graphs.length)

/-- What it takes for the result to be the graph that the steps make. -/
theorem wellTrimmed_iff :
    WellTrimmed node_ids_to_keep isolates old_merge_point_node_id old_merge_point_block_nodes
        graphs programl_graph ↔
      ∃ merge_point,
        trim node_ids_to_keep isolates old_merge_point_node_id old_merge_point_block_nodes
          (graphs.get programl_graph) =
            .ok ((graphs.get programl_graph).cut (isKept node_ids_to_keep isolates)
              old_merge_point_block_nodes, merge_point) ∧
        (graphs.get programl_graph).Trimmed (isKept node_ids_to_keep isolates)
          old_merge_point_block_nodes old_merge_point_node_id
          ((graphs.get programl_graph).cut (isKept node_ids_to_keep isolates) old_merge_point_block_nodes) merge_point := by
  constructor
  · intro ⟨afterwards, merge_graph, trimmed, merge_point, ok, found, _, asItShouldBe⟩
    rw [gen_merge_graph_in_programl_format] at ok
    cases steps : trim node_ids_to_keep isolates old_merge_point_node_id old_merge_point_block_nodes (graphs.get programl_graph) with
    | error =>
      rw [steps] at ok
      cases ok
    | ok result =>
      obtain ⟨cut, place⟩ := result
      obtain ⟨-, rfl, -⟩ := (trim_ok_iff _ _ _).mp steps
      rw [steps] at ok
      cases ok
      rw [getElem?_concat_length] at found
      cases found
      exact ⟨merge_point, rfl, asItShouldBe⟩
  · intro ⟨merge_point, steps, asItShouldBe⟩
    refine ⟨graphs ++ [_], graphs.length, _, merge_point, ?_, getElem?_concat_length, ?_, asItShouldBe⟩
    · rw [gen_merge_graph_in_programl_format, steps]
      rfl
    · intro i before found
      rw [getElem?_append_left (List.getElem?_eq_some_iff.mp found).1]
      exact found

/-- The merge graph is well formed if and only if nothing is dropped before something that is
kept. -/
theorem wellTrimmed_of_nothingBefore (wellFormed : (graphs.get programl_graph).WellFormed) :
    WellTrimmed node_ids_to_keep isolates old_merge_point_node_id old_merge_point_block_nodes
        graphs programl_graph ↔
      (graphs.get programl_graph).NothingBefore (isKept node_ids_to_keep isolates)
        old_merge_point_block_nodes old_merge_point_node_id := by
  rw [wellTrimmed_iff]
  constructor
  · intro ⟨merge_point, steps, trimmed⟩
    obtain ⟨texts, -, place⟩ := (trim_ok_iff _ _ _).mp steps
    refine ⟨mem_of_getElem? place, ?_, ProgramGraph.functions_initial trimmed,
      ProgramGraph.modules_initial trimmed⟩
    intro i member inBlock node found
    exact texts (node, i) (mem_zipIdx_iff_getElem?.mpr found) (mem_below.mp member).2 inBlock
  · intro nothing
    obtain ⟨merge_point, place⟩ := mem_iff_getElem?.mp nothing.mergePoint
    refine ⟨merge_point, (trim_ok_iff _ _ _).mpr ⟨?_, rfl, place⟩,
      ProgramGraph.trimmed_cut wellFormed place nothing⟩
    intro entry member keep inBlock
    have found := mem_zipIdx_iff_getElem?.mp member
    have bound := (List.getElem?_eq_some_iff.mp found).1
    exact nothing.texts entry.2 (mem_below.mpr ⟨bound, keep⟩) inBlock entry.1 found

end Main

section Example

def instruction (text fullText : String) (function block : Nat) : Node :=
  ⟨.INSTRUCTION, text, function, block, [("full_text", .bytes_list [fullText.toUTF8.toList])]⟩

def callGraph : ProgramGraph where
  node := [instruction "call" "call void @f()" 0 0, instruction "ret" "ret void" 1 1]
  edge := [⟨.CALL, 0, 0, 1, []⟩]
  function := [⟨"main", 0, []⟩, ⟨"f", 0, []⟩]
  module := [⟨"a.c", []⟩]
  features := []

theorem callGraph_wellFormed : callGraph.WellFormed where
  node := by decide
  edge := by decide
  function := by decide

/-- If only the second instruction is kept, the index of its function is that of none. -/
theorem callGraph_second_not_wellTrimmed :
    callGraph.WellFormed ∧ 1 ∉ ([] : List Nat) ∧
    gen_merge_graph_in_programl_format {1} [] 1 [1] [callGraph] 0 =
      .ok ([callGraph,
        { node := [instruction "ret" "<MERGE_POINT_BLOCK> ret void" 1 1]
          edge := []
          function := [⟨"f", 0, []⟩]
          module := [⟨"a.c", []⟩]
          features := [] }], 1, 0) ∧
    ¬ WellTrimmed {1} [] 1 [1] [callGraph] 0 := by
  refine ⟨callGraph_wellFormed, by decide, by decide +kernel, ?_⟩
  intro wellTrimmed
  obtain ⟨merge_point, -, trimmed⟩ := (wellTrimmed_iff _ _ _ _ _ _).mp wellTrimmed
  have first := ProgramGraph.functions_initial trimmed
  exact absurd (first 1 (by decide) 0 (by decide)) (by decide)

theorem callGraph_first_wellTrimmed : WellTrimmed {0} [] 0 [0] [callGraph] 0 := by
  apply (wellTrimmed_of_nothingBefore {0} [] 0 [0] [callGraph] 0 callGraph_wellFormed).mpr
  exact
    { mergePoint := by decide
      texts := by decide +kernel
      functions := by decide
      modules := by decide }

end Example

end NeuroMerge.Classifier
