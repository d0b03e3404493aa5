import NeuroMerge.Graph.ProgramGraph

/-!
# Node-link documents

`node_link_graph.cc`: the JSON form of a program graph, which `networkx` makes a graph of
again. No status that is returned is an error. What `node_link_graph` of `networkx` makes
of a document is a parameter, of which only what its documentation says is used: links with
the same source, target and key become one edge, and every link has the key zero.
-/

namespace NeuroMerge.Graph

open List
open Classifier (Feature)

/-- `nlohmann::json`; a string of a feature may be any bytes. -/
inductive Document where
  | boolean (b : Bool)
  | number (n : Int)
  | float (bits : BitVec 32)
  | string (s : String)
  | bytes (s : List UInt8)
  | array (items : List Document)
  | object (members : List (String × Document))

namespace Document

def get? (key : String) : Document → Option Document
  | object members => members.lookup key
  | _ => none

end Document

def CreateFeatureArray : Option Feature → Document
  | some (.bytes_list value) => .array (value.map .bytes)
  | some (.float_list value) => .array (value.map .float)
  | some (.int64_list value) => .array (value.map .number)
  | none => .array []

def CreateFeaturesDict (features : Features) : Document :=
  .object (features.feature.map fun feature => (feature.1, CreateFeatureArray feature.2))

/-- The members of the dictionary, and the features if the message has any. -/
def MaybeAddFeatures (features : Option Features) (dict : List (String × Document)) :
    List (String × Document) :=
  match features with
  | some features => dict ++ [("features", CreateFeaturesDict features)]
  | none => dict

def CreateGraphDict (graph : ProgramGraph) : Document :=
  .object (MaybeAddFeatures graph.features
    [("function", .array (graph.function.map fun function =>
        .object (MaybeAddFeatures function.features
          [("name", .string function.name), ("module", .number function.module)]))),
      ("module", .array (graph.module.map fun module =>
        .object (MaybeAddFeatures module.features [("name", .string module.name)])))])

def nodeDict (i : Nat) (node : Node) : List (String × Document) :=
  MaybeAddFeatures node.features
    [("id", .number i), ("type", .number node.type.number), ("text", .string node.text),
      ("function", .number node.function), ("block", .number node.block)]

def CreateNodesList (graph : ProgramGraph) : List Document :=
  graph.node.zipIdx.map fun (node, i) => .object (nodeDict i node)

def edgeDict (edge : Edge) : List (String × Document) :=
  MaybeAddFeatures edge.features
    [("flow", .number edge.flow.number), ("position", .number edge.position),
      ("source", .number edge.source), ("target", .number edge.target), ("key", .number 0)]

def CreateLinksList (graph : ProgramGraph) : List Document :=
  graph.edge.map fun edge => .object (edgeDict edge)

def ProgramGraphToNodeLinkGraph (graph : ProgramGraph) : Document :=
  .object [("directed", .boolean true), ("multigraph", .boolean true),
    ("graph", CreateGraphDict graph), ("nodes", .array (CreateNodesList graph)),
    ("links", .array (CreateLinksList graph))]

/-! ## Rebuilding a graph from its document -/

/-- An edge of a multigraph, and a link of a document. -/
structure MultiEdge where
  source : Int
  target : Int
  key : Int
  attributes : List (String × Document)

def MultiEdge.triple (edge : MultiEdge) : Int × Int × Int :=
  (edge.source, edge.target, edge.key)

/-- `networkx.MultiDiGraph` -/
structure MultiDiGraph where
  nodes : List (Int × List (String × Document))
  edges : List MultiEdge

section Reading

def Document.number? : Document → Option Int
  | .number n => some n
  | _ => none

/-- A node is its id; what else its dictionary has are attributes. -/
def readNode : Document → Option (Int × List (String × Document))
  | .object members => do
    let id ← members.lookup "id" >>= Document.number?
    pure (id, members.filter (·.1 ≠ "id"))
  | _ => none

def readLink : Document → Option MultiEdge
  | .object members => do
    let source ← members.lookup "source" >>= Document.number?
    let target ← members.lookup "target" >>= Document.number?
    let key ← members.lookup "key" >>= Document.number?
    pure ⟨source, target, key, members.filter (·.1 ∉ ["source", "target", "key"])⟩
  | _ => none

def readList {α : Type} (read : Document → Option α) (key : String) (data : Document) :
    Option (List α) :=
  match data.get? key with
  | some (.array items) => items.mapM read
  | _ => none

/-- The graph of these nodes and links. Ends of links that are no nodes become nodes. -/
structure Rebuilds (nodes : List (Int × List (String × Document))) (links : List MultiEdge)
    (graph : MultiDiGraph) : Prop where
  nodes : ∃ added : List Int, graph.nodes.Perm (nodes ++ added.map fun id => (id, [])) ∧
    ∀ id, id ∈ added ↔ id ∉ nodes.map Prod.fst ∧ ∃ link ∈ links, id = link.source ∨ id = link.target
  once : (graph.edges.map MultiEdge.triple).Nodup
  triples : ∀ triple, triple ∈ graph.edges.map MultiEdge.triple ↔
    triple ∈ links.map MultiEdge.triple
  lone : ∀ link, links.filter (fun other => other.triple = link.triple) = [link] →
    link ∈ graph.edges

def ReadsNodeLinks (node_link_graph : Document → MultiDiGraph) : Prop :=
  ∀ (data : Document) (nodes : List (Int × List (String × Document))) (links : List MultiEdge),
    data.get? "directed" = some (.boolean true) → data.get? "multigraph" = some (.boolean true) →
    readList readNode "nodes" data = some nodes → readList readLink "links" data = some links →
    (nodes.map Prod.fst).Nodup → Rebuilds nodes links (node_link_graph data)

end Reading

variable {graph : ProgramGraph} {node_link_graph : Document → MultiDiGraph}

def Node.attributes (node : Node) : List (String × Document) :=
  MaybeAddFeatures node.features
    [("type", .number node.type.number), ("text", .string node.text),
      ("function", .number node.function), ("block", .number node.block)]

def Edge.link (edge : Edge) : MultiEdge where
  source := edge.source
  target := edge.target
  key := 0
  attributes := MaybeAddFeatures edge.features
    [("flow", .number edge.flow.number), ("position", .number edge.position)]

def ProgramGraph.nodes (graph : ProgramGraph) : List (Int × List (String × Document)) :=
  graph.node.zipIdx.map fun (node, i) => ((i : Int), node.attributes)

theorem readNode_nodeDict (i : Nat) (node : Node) : readNode (.object (nodeDict i node)) = some ((i : Int), node.attributes) := by
  obtain ⟨type, text, function, block, features⟩ := node
  cases features <;> rfl

theorem readLink_edgeDict (edge : Edge) : readLink (.object (edgeDict edge)) = some edge.link := by
  obtain ⟨flow, position, source, target, features⟩ := edge
  cases features <;> rfl

theorem mapM_map_some {α β γ : Type} (items : List α) (make : α → β) (read : β → Option γ)
    (result : α → γ) (reads : ∀ item, read (make item) = some (result item)) : (items.map make).mapM read = some (items.map result) := by
  induction items with
  | nil => rfl
  | cons item items ih => simp [reads, ih]

theorem reads_nodes : readList readNode "nodes" (ProgramGraphToNodeLinkGraph graph) = some graph.nodes :=
  mapM_map_some graph.node.zipIdx _ readNode _ fun entry => readNode_nodeDict entry.2 entry.1

theorem reads_links : readList readLink "links" (ProgramGraphToNodeLinkGraph graph) = some (graph.edge.map Edge.link) :=
  mapM_map_some graph.edge _ readLink _ readLink_edgeDict

theorem ids_eq : graph.nodes.map Prod.fst = (List.range graph.node.length).map Int.ofNat := by
  rw [ProgramGraph.nodes, map_map, range_eq_range', ← zipIdx_map_snd 0 graph.node, map_map]
  rfl

theorem mem_ids (id : Int) : id ∈ graph.nodes.map Prod.fst ↔ 0 ≤ id ∧ id < graph.node.length := by
  rw [ids_eq]
  simp only [mem_map, mem_range]
  constructor
  · rintro ⟨i, within, rfl⟩
    exact ⟨Int.natCast_nonneg i, Int.ofNat_lt.mpr within⟩
  · rintro ⟨nonneg, within⟩
    exact ⟨id.toNat, by omega, Int.toNat_of_nonneg nonneg⟩

theorem ids_nodup : (graph.nodes.map Prod.fst).Nodup := by
  rw [ids_eq]
  exact nodup_range.map fun _ _ => Int.ofNat.inj

structure KeepsEdges (graph : ProgramGraph) (data : Document) (rebuilt : MultiDiGraph) : Prop where
  multigraph : data.get? "multigraph" = some (.boolean true)
  triples : ∃ links, readList readLink "links" data = some links ∧
    links.length = graph.edge.length ∧ (links.map MultiEdge.triple).Nodup
  nodes : rebuilt.nodes.Perm graph.nodes
  edges : (rebuilt.edges.map fun edge => (edge.source, edge.target,
      edge.attributes.lookup "flow", edge.attributes.lookup "position")).Perm
    (graph.edge.map fun edge => (edge.source, edge.target,
      some (.number edge.flow.number), some (.number edge.position)))

structure Simple (graph : ProgramGraph) : Prop where
  ends : (graph.edge.map fun edge => (edge.source, edge.target)).Nodup
  source : ∀ edge ∈ graph.edge, 0 ≤ edge.source ∧ edge.source < graph.node.length
  target : ∀ edge ∈ graph.edge, 0 ≤ edge.target ∧ edge.target < graph.node.length

theorem triples_nodup_iff : ((graph.edge.map Edge.link).map MultiEdge.triple).Nodup ↔
    (graph.edge.map fun edge => (edge.source, edge.target)).Nodup := by
  have triples : (graph.edge.map Edge.link).map MultiEdge.triple = (graph.edge.map fun edge => (edge.source, edge.target)).map fun ends =>
        (ends.1, ends.2, (0 : Int)) := by
    rw [map_map, map_map]
    rfl
  have injective : Function.Injective fun ends : Int × Int => (ends.1, ends.2, (0 : Int)) := by
    rintro ⟨source, target⟩ ⟨source', target'⟩ same
    cases same
    rfl
  rw [triples, nodup_map_iff injective]

theorem filter_triple {links : List MultiEdge} (once : (links.map MultiEdge.triple).Nodup)
    {link : MultiEdge} (member : link ∈ links) : links.filter (fun other => other.triple = link.triple) = [link] := by
  induction links with
  | nil => cases member
  | cons first links ih =>
    rw [map_cons, nodup_cons] at once
    obtain rfl | later := List.mem_cons.mp member
    · rw [filter_cons_of_pos (by simp), filter_eq_nil_iff.mpr]
      intro other isOther same
      exact once.1 (List.mem_map.mpr ⟨other, isOther, of_decide_eq_true same⟩)
    · rw [filter_cons_of_neg, ih once.2 later]
      intro same
      exact once.1 (List.mem_map.mpr ⟨link, later, (of_decide_eq_true same).symm⟩)

theorem Rebuilds.edges_perm {nodes : List (Int × List (String × Document))}
    {links : List MultiEdge} {rebuilt : MultiDiGraph} (rebuilds : Rebuilds nodes links rebuilt)
    (once : (links.map MultiEdge.triple).Nodup) : rebuilt.edges.Perm links := by
  have isEdge {link : MultiEdge} (member : link ∈ links) : link ∈ rebuilt.edges := rebuilds.lone link (filter_triple once member)
  rw [perm_ext_iff_of_nodup rebuilds.once.of_map once.of_map]
  intro edge
  refine ⟨fun member => ?_, isEdge⟩
  obtain ⟨link, isLink, same⟩ := List.mem_map.mp ((rebuilds.triples edge.triple).mp (mem_map_of_mem member))
  rw [← inj_on_of_nodup_map rebuilds.once (isEdge isLink) member same]
  exact isLink

section Sample

def update (attributes new : List (String × Document)) : List (String × Document) :=
  attributes.filter (fun old => (new.lookup old.1).isNone) ++ new

/-- `add_edge`, which updates the attributes of an edge that is there. -/
def addEdge (edges : List MultiEdge) (link : MultiEdge) : List MultiEdge :=
  if link.triple ∈ edges.map MultiEdge.triple then
    edges.map fun edge => if edge.triple = link.triple then
      { edge with attributes := update edge.attributes link.attributes } else edge
  else edges ++ [link]

structure Added (links edges : List MultiEdge) : Prop where
  once : (edges.map MultiEdge.triple).Nodup
  triples : ∀ triple, triple ∈ edges.map MultiEdge.triple ↔ triple ∈ links.map MultiEdge.triple
  lone : ∀ link, links.filter (fun other => other.triple = link.triple) = [link] → link ∈ edges

theorem Added.add {links edges : List MultiEdge} (added : Added links edges) (link : MultiEdge) :
    Added (links ++ [link]) (addEdge edges link) := by
  rw [addEdge]
  split
  · rename_i present
    have sameTriples : (edges.map fun edge => if edge.triple = link.triple then
        { edge with attributes := update edge.attributes link.attributes } else edge).map
        MultiEdge.triple = edges.map MultiEdge.triple := by
      rw [map_map]
      refine map_congr_left fun edge _ => ?_
      rw [Function.comp_apply]
      split <;> rfl
    refine ⟨sameTriples ▸ added.once, fun triple => ?_, fun other lone => ?_⟩
    · rw [sameTriples, added.triples, map_append, mem_append]
      refine (or_iff_left_of_imp fun isNew => ?_).symm
      rw [mem_singleton.mp isNew]
      exact (added.triples _).mp present
    · rw [filter_append] at lone
      by_cases same : link.triple = other.triple
      · obtain ⟨old, isOld, sameOld⟩ := List.mem_map.mp ((added.triples _).mp present)
        have kept : old ∈ links.filter fun link => link.triple = other.triple :=
          List.mem_filter.mpr ⟨isOld, decide_eq_true (sameOld.trans same)⟩
        have lengths := congrArg List.length lone
        have positive := length_pos_of_mem kept
        simp only [length_append, filter_cons, same, decide_true, if_true, filter_nil, length_singleton] at lengths
        omega
      · have alone : links.filter (fun link => link.triple = other.triple) = [other] := by
          simpa [same] using lone
        exact List.mem_map.mpr ⟨other, added.lone other alone, if_neg (Ne.symm same)⟩
  · rename_i absent
    refine ⟨?_, fun triple => ?_, fun other lone => ?_⟩
    · rw [map_append]
      exact nodup_append'.mpr ⟨added.once, nodup_singleton _, by simpa using absent⟩
    · rw [map_append, map_append, mem_append, mem_append, added.triples]
    · rw [filter_append] at lone
      by_cases same : link.triple = other.triple
      · have isNew : links.filter (fun link => link.triple = other.triple) = [] := by
          refine filter_eq_nil_iff.mpr fun old isOld sameOld => absent ?_
          rw [added.triples, same, ← of_decide_eq_true sameOld]
          exact mem_map_of_mem isOld
        simp only [isNew, nil_append, filter_cons, same, decide_true, if_true, filter_nil] at lone
        rw [← singleton_inj.mp lone]
        exact mem_append_right _ (mem_singleton_self _)
      · have alone : links.filter (fun link => link.triple = other.triple) = [other] := by
          simpa [same] using lone
        exact mem_append_left _ (added.lone other alone)

theorem added_foldl (links : List MultiEdge) : Added links (links.foldl addEdge []) := by
  have all : ∀ (remaining seen edges : List MultiEdge), Added seen edges → Added (seen ++ remaining) (remaining.foldl addEdge edges) := by
    intro remaining
    induction remaining with
    | nil =>
      intro seen edges added
      rwa [append_nil]
    | cons link remaining ih =>
      intro seen edges added
      rw [append_cons]
      exact ih (seen ++ [link]) _ (added.add link)
  exact all links [] [] ⟨nodup_nil, by simp, by simp⟩

/-- `node_link_graph` for documents with the lists of nodes and links. -/
def rebuild (data : Document) : MultiDiGraph :=
  let nodes := (readList readNode "nodes" data).getD []
  let links := (readList readLink "links" data).getD []
  let ends := (links.flatMap fun link => [link.source, link.target]).filter (· ∉ nodes.map Prod.fst)
  ⟨nodes ++ ends.dedup.map fun id => (id, []), links.foldl addEdge []⟩

theorem rebuild_reads : ReadsNodeLinks rebuild := by
  intro data nodes links _ _ readNodes readLinks _
  have added := added_foldl links
  have rebuilt : rebuild data = ⟨nodes ++ (((links.flatMap fun link =>
      [link.source, link.target]).filter (· ∉ nodes.map Prod.fst)).dedup.map fun id => (id, [])),
      links.foldl addEdge []⟩ := by
    simp only [rebuild, readNodes, readLinks, Option.getD_some]
  rw [rebuilt]
  refine ⟨⟨_, .refl _, ?_⟩, added.once, added.triples, added.lone⟩
  intro id
  simp only [mem_dedup, mem_filter, mem_flatMap, mem_cons, not_mem_nil, or_false, decide_eq_true_eq]
  exact and_comm

def sampleGraph (positions : List Int) : ProgramGraph where
  node := [⟨.INSTRUCTION, "mul", 0, 0, none⟩, ⟨.VARIABLE, "i32", 0, 0, none⟩]
  edge := positions.map fun position => ⟨.DATA, position, 1, 0, none⟩
  function := [⟨"square", 0, none⟩]
  module := [⟨"module", none⟩]
  features := none

end Sample

/-- What is rebuilt is the graph if and only if no two edges have the same ends. -/
theorem nodeLink_keepsEdges_iff (reads : ReadsNodeLinks node_link_graph) (graph : ProgramGraph) :
    KeepsEdges graph (ProgramGraphToNodeLinkGraph graph)
        (node_link_graph (ProgramGraphToNodeLinkGraph graph)) ↔ Simple graph := by
  have rebuilds := reads (ProgramGraphToNodeLinkGraph graph) graph.nodes _ rfl rfl reads_nodes
    reads_links ids_nodup
  obtain ⟨added, perm, new⟩ := rebuilds.nodes
  constructor
  · intro keeps
    obtain ⟨links, read, -, once⟩ := keeps.triples
    rw [reads_links] at read
    cases read
    have noneAdded : added = [] := by
      have lengths := (keeps.nodes.symm.trans perm).length_eq
      rw [length_append, length_map] at lengths
      exact eq_nil_of_length_eq_zero (by omega)
    have known {id : Int} (isEnd : ∃ link ∈ graph.edge.map Edge.link,
        id = link.source ∨ id = link.target) : 0 ≤ id ∧ id < graph.node.length := by
      rw [← mem_ids]
      by_contra unknown
      have isAdded := (new id).mpr ⟨unknown, isEnd⟩
      rw [noneAdded] at isAdded
      cases isAdded
    exact ⟨triples_nodup_iff.mp once,
      fun edge member => known ⟨edge.link, mem_map_of_mem member, .inl rfl⟩,
      fun edge member => known ⟨edge.link, mem_map_of_mem member, .inr rfl⟩⟩
  · intro simple
    have once := triples_nodup_iff.mpr simple.ends
    have noneAdded : added = [] := by
      rw [eq_nil_iff_forall_not_mem]
      intro id isAdded
      obtain ⟨unknown, link, isLink, isEnd⟩ := (new id).mp isAdded
      obtain ⟨edge, isEdge, rfl⟩ := List.mem_map.mp isLink
      rw [mem_ids] at unknown
      obtain rfl | rfl := isEnd
      · exact unknown (simple.source edge isEdge)
      · exact unknown (simple.target edge isEdge)
    refine ⟨rfl, ⟨_, reads_links, length_map .., once⟩, ?_, ?_⟩
    · rw [noneAdded, map_nil, append_nil] at perm
      exact perm
    · apply ((rebuilds.edges_perm once).map _).trans
      rw [map_map]
      refine .of_eq (map_congr_left fun edge _ => ?_)
      obtain ⟨flow, position, source, target, features⟩ := edge
      cases features <;> rfl

theorem rebuild_keeps_one :
    KeepsEdges (sampleGraph [0]) (ProgramGraphToNodeLinkGraph (sampleGraph [0]))
      (rebuild (ProgramGraphToNodeLinkGraph (sampleGraph [0]))) :=
  (nodeLink_keepsEdges_iff rebuild_reads (sampleGraph [0])).mpr ⟨by decide, by decide, by decide⟩

/-- Of two edges from the same variable to the same instruction only one is left. -/
theorem rebuild_loses_operand :
    ¬ KeepsEdges (sampleGraph [0, 1]) (ProgramGraphToNodeLinkGraph (sampleGraph [0, 1]))
        (rebuild (ProgramGraphToNodeLinkGraph (sampleGraph [0, 1]))) ∧
      (rebuild (ProgramGraphToNodeLinkGraph (sampleGraph [0, 1]))).edges.length = 1 := by
  have one : (rebuild (ProgramGraphToNodeLinkGraph (sampleGraph [0, 1]))).edges.length = 1 := by
    decide
  refine ⟨fun keeps => ?_, one⟩
  have lengths := keeps.edges.length_eq
  contradiction

end NeuroMerge.Graph
