import NeuroMerge.Classifier.PathBlocks
import NeuroMerge.Classifier.Query
import NeuroMerge.Foundations.Cutoff
import NeuroMerge.Foundations.JsonProperties

/-!
# Which blocks each path adds

One set counts the blocks of all paths. It starts with the characters of the block of the
merge point, and no path begins with an empty one.
-/

namespace NeuroMerge.Classifier

open List

open RecordedState (pathKey pathJson)
open Cutoff (walk walks Undisturbed)

variable {ι : Type}

/-! ## What a record says -/

def llvm_block_id (inst_id : List Char) : List Char :=
  ((rsplit (basename inst_id)).map Prod.fst).getD []

def pathBlockIds (program : Program ι) (path : List ι) : List (List Char) :=
  path.map fun i => llvm_block_id (program.inst_to_strID i).toList

def nearest (program : Program ι) (limit : Nat) (path : List ι) : Finset (List Char) :=
  ((Cutoff.distinct (pathBlockIds program path).reverse).take limit).toFinset

def pathFields (program : Program ι) (path : List ι) : List (String × Json) :=
  path.zipIdx.map fun (i, n) => (pathKey n, .string (program.inst_to_strID i))

def blockOf (inst_id : PyObject) : List Char :=
  match inst_id with
  | .str inst_id => llvm_block_id inst_id.toList
  | _ => []

def textualOrder (program : Program ι) (path : List ι) : List (List Char) :=
  (PyObject.sorted (pathFields program path)).reverse.map fun field => blockOf field.2.toPy

def recorded (program : Program ι) (paths : List (String × List ι)) : PyObject :=
  .dict (paths.map fun (hash, path) => (hash, (pathJson program path).toPy))

def pathLimit (paths : List (String × List ι)) : ℚ :=
  max_length_of_path ((paths.map fun path => path.2.length).min?.getD 0)

/-! ## The order of the keys -/

section Keys

variable {program : Program ι} {path : List ι}

theorem pathKey_toList (n : Nat) : (pathKey n).toList = List.replicate (8 - (Nat.toDigits 10 n).length) '0' ++ Nat.toDigits 10 n :=
  String.toList_ofList

theorem ofDigitChars_pathKey (n : Nat) : Nat.ofDigitChars 10 (pathKey n).toList 0 = n := by
  rw [pathKey_toList, Nat.ofDigitChars_append, Nat.ofDigitChars_replicate_zero, Nat.mul_zero, Nat.ofDigitChars_ten_toDigits]

theorem pathKey_injective {m n : Nat} (same : pathKey m = pathKey n) : m = n := by
  rw [← ofDigitChars_pathKey m, ← ofDigitChars_pathKey n, same]

theorem nodup_pathFields : ((pathFields program path).map Prod.fst).Nodup := by
  have keys : (pathFields program path).map Prod.fst = (List.range path.length).map pathKey := by
    rw [pathFields, map_map, range_eq_range', ← zipIdx_map_snd 0 path, map_map]
    rfl
  rw [keys]
  exact .map (fun _ _ => pathKey_injective) nodup_range

theorem pathJson_eq_setAll : pathJson program path = Json.null.setAll (pathFields program path) := by
  rw [pathJson, Json.setAll, pathFields, foldl_map]

theorem toPy_pathJson (notEmpty : path ≠ []) :
    ∃ members, (pathJson program path).toPy = .dict members ∧
      members.Perm ((pathFields program path).map fun field => (field.1, field.2.toPy)) := by
  have isRecord := Json.IsRecord.null.setAll (pathFields program path)
  have same := Json.fields_setAll_perm (@nodup_pathFields _ program path)
  rw [← pathJson_eq_setAll] at isRecord same
  cases written : pathJson program path with
  | object members =>
    rw [written] at isRecord same
    cases isRecord with
    | object ascending =>
      rw [Json.toPy, PyObject.dictOf_toPyMembers ascending]
      exact ⟨_, rfl, same.map _⟩
  | _ =>
    rw [written] at same
    have none := nil_perm.mp same
    simp [pathFields, notEmpty] at none

theorem sorted_eq_of_perm {α : Type} {members others : List (String × α)}
    (same : members.Perm others) (unique : (others.map Prod.fst).Nodup) : PyObject.sorted members = PyObject.sorted others := by
  have isSorted := fun members : List (String × α) =>
    pairwise_insertionSort (fun a b : String × α => a.1.toList ≤ b.1.toList) members
  have sorting := fun members : List (String × α) =>
    perm_insertionSort (fun a b : String × α => a.1.toList ≤ b.1.toList) members
  refine List.Perm.eq_of_pairwise (fun a b left right below above => ?_) (isSorted members)
    (isSorted others) ((sorting members).trans (same.trans (sorting others).symm))
  have key : a.1 = b.1 := String.toList_inj.mp (le_antisymm below above)
  exact inj_on_of_nodup_map unique (same.subset ((sorting members).subset left)) ((sorting others).subset right) key

theorem sorted_map {α β : Type} (f : α → β) (members : List (String × α)) :
    PyObject.sorted (members.map fun field => (field.1, f field.2)) =
      (PyObject.sorted members).map fun field => (field.1, f field.2) := by
  exact (map_insertionSort (fun a b : String × α => a.1.toList ≤ b.1.toList)
    (fun a b : String × β => a.1.toList ≤ b.1.toList) _ members fun _ _ _ _ => Iff.rfl).symm

theorem sorted_path (notEmpty : path ≠ []) :
    ∃ members, (pathJson program path).toPy = .dict members ∧ members.length = path.length ∧
      ((PyObject.sorted members).reverse.map Prod.snd).map blockOf = textualOrder program path := by
  obtain ⟨members, written, same⟩ := @toPy_pathJson _ program _ notEmpty
  refine ⟨members, written, ?_, ?_⟩
  · rw [same.length_eq, length_map, pathFields, length_map, length_zipIdx]
  · have unique : (((pathFields program path).map fun field =>
        (field.1, field.2.toPy)).map Prod.fst).Nodup := by
      rw [map_map]
      exact nodup_pathFields
    rw [sorted_eq_of_perm same unique, sorted_map, ← map_reverse, map_map, map_map]
    rfl

theorem blockOf_pathFields : ((pathFields program path).map fun field => blockOf field.2.toPy) = pathBlockIds program path := by
  rw [pathFields, map_map, pathBlockIds]
  calc
    _ = (path.zipIdx.map Prod.fst).map fun i => llvm_block_id (program.inst_to_strID i).toList := by
        rw [map_map]
        rfl
    _ = _ := by rw [zipIdx_map_fst]

theorem toFinset_textualOrder : (textualOrder program path).toFinset = (pathBlockIds program path).toFinset := by
  have same : (textualOrder program path).Perm ((pathFields program path).map fun field => blockOf field.2.toPy) :=
    ((reverse_perm _).trans (perm_insertionSort _ _)).map _
  rw [toFinset_eq_of_perm _ _ same, blockOf_pathFields]

theorem card_nearest (limit : Nat) : (nearest program limit path).card = Cutoff.goal limit (textualOrder program path) := by
  have count : (Cutoff.distinct (pathBlockIds program path).reverse).length = (Cutoff.distinct (textualOrder program path)).length := by
    rw [Cutoff.length_distinct, Cutoff.length_distinct, toFinset_textualOrder, toFinset_reverse]
  rw [nearest, Cutoff.goal, ← count, toFinset_card_of_nodup, length_take, Nat.min_comm]
  exact (Cutoff.nodup_distinct _).sublist (take_sublist _ _)

end Keys

/-! ## The loop over the paths -/

section Loop

variable {int : List Char → Option Int} {limit : ℚ} {loop loop' : PathLoop}

theorem blockOf_parse {inst_id : List Char} {block : List Char} {inst_idx : Int}
    (parsed : parse_inst_id int inst_id = .ok (block, inst_idx)) : block = llvm_block_id inst_id := by
  rw [parse_inst_id] at parsed
  split at parsed
  · cases parsed
  · rename_i parts
    split at parsed
    · cases parsed
    · cases parsed
      rw [llvm_block_id, parts]
      rfl

theorem blockOf_text {inst_id : List Char} {id : PyObject} (isText : id.text = .ok inst_id) : blockOf id = llvm_block_id inst_id := by
  cases id with
  | str s =>
    cases isText
    rfl
  | _ => cases isText

theorem visitPath_spec (nonneg : 0 ≤ limit) {ids : List PyObject} {added : List (List Char)}
    (visited : visitPath int limit loop ids = .ok (loop', added)) :
    added = walk ⌊limit⌋₊ loop.llvm_block_ids_to_keep (ids.map blockOf) ∧
      loop'.llvm_block_ids_to_keep = loop.llvm_block_ids_to_keep ∪ added.toFinset := by
  induction ids generalizing loop added with
  | nil =>
    cases visited
    exact ⟨rfl, by simp⟩
  | cons id rest ih =>
    obtain ⟨inst_id, isText, visited⟩ := bind_eq_ok_iff.mp visited
    obtain ⟨⟨block, inst_idx⟩, parsed, visited⟩ := bind_eq_ok_iff.mp visited
    obtain rfl : block = blockOf id := by
      rw [blockOf_parse parsed, blockOf_text isText]
    rw [map_cons, walk]
    dsimp only at visited
    split at visited
    · rename_i full
      cases visited
      rw [if_pos ((Nat.floor_lt nonneg).mpr full)]
      exact ⟨rfl, by simp⟩
    · rename_i notFull
      obtain ⟨⟨after, others⟩, later, visited⟩ := bind_eq_ok_iff.mp visited
      cases visited
      obtain ⟨rfl, kept⟩ := ih later
      rw [if_neg fun full => notFull ((Nat.floor_lt nonneg).mp full), kept]
      exact ⟨rfl, by rw [toFinset_cons, Finset.union_insert, Finset.insert_union]⟩

theorem visitPaths_spec (nonneg : 0 ≤ limit) {program : Program ι} {paths : List (List ι)} {added : List (List (List Char))}
    (visited : visitPaths int limit loop (paths.map fun path => (pathJson program path).toPy) =
      .ok (loop', added)) :
    added = walks ⌊limit⌋₊ loop.llvm_block_ids_to_keep (paths.map (textualOrder program)) ∧
      loop'.llvm_block_ids_to_keep = loop.llvm_block_ids_to_keep ∪ added.flatten.toFinset := by
  induction paths generalizing loop added with
  | nil =>
    cases visited
    exact ⟨rfl, by simp⟩
  | cons path rest ih =>
    rw [map_cons, visitPaths] at visited
    obtain ⟨items, isDict, visited⟩ := bind_eq_ok_iff.mp visited
    have notEmpty : path ≠ [] := by
      rintro rfl
      cases isDict
    obtain ⟨members, written, -, inOrder⟩ := @sorted_path _ program _ notEmpty
    rw [written] at isDict
    cases isDict
    obtain ⟨⟨between, first⟩, here, visited⟩ := bind_eq_ok_iff.mp visited
    obtain ⟨⟨after, others⟩, later, visited⟩ := bind_eq_ok_iff.mp visited
    cases visited
    obtain ⟨isFirst, keptHere⟩ := visitPath_spec nonneg here
    obtain ⟨areOthers, keptLater⟩ := ih later
    rw [inOrder] at isFirst
    constructor
    · rw [areOthers, keptHere, map_cons, walks, ← isFirst]
    · rw [keptLater, keptHere, flatten_cons, toFinset_append, Finset.union_assoc]

theorem length_of_len {program : Program ι} {path : List ι} {n : Nat}
    (counted : (pathJson program path).toPy.len = .ok n) : n = path.length := by
  by_cases notEmpty : path = []
  · subst notEmpty
    cases counted
  · obtain ⟨members, written, count, -⟩ := @sorted_path _ program _ notEmpty
    rw [written] at counted
    cases counted
    exact count

theorem lengths_of_mapM {program : Program ι} {paths : List (List ι)} {lengths : List Nat}
    (counted : (paths.map fun path => (pathJson program path).toPy).mapM PyObject.len =
      .ok lengths) : lengths = paths.map List.length := by
  induction paths generalizing lengths with
  | nil =>
    cases counted
    rfl
  | cons path rest ih =>
    rw [map_cons, mapM_cons] at counted
    obtain ⟨n, here, counted⟩ := bind_eq_ok_iff.mp counted
    obtain ⟨others, later, counted⟩ := bind_eq_ok_iff.mp counted
    cases counted
    rw [length_of_len here, ih later, map_cons]

end Loop

/-! ## The nodes -/

section Nodes

variable {int : List Char → Option Int} {merge_point_llvm_block_id : List Char}
  {llvm_block_ids_to_keep : Finset (List Char)} {pass pass' : FirstPass}

def nodeBlock (attrs : NodeAttrs) : Option (List Char) :=
  match is_llvm_debug_info_node attrs, attrs.features.bind (·.lookup "inst_id") with
  | .ok false, some (inst_id :: _) => some (llvm_block_id inst_id.toList)
  | _, _ => none

def isPast (llvm_block_ids_to_keep : Finset (List Char)) (attrs : NodeAttrs) : Bool :=
  (nodeBlock attrs).any (· ∈ llvm_block_ids_to_keep)

theorem keepNode_spec {attrs : NodeAttrs} {node : Nat}
    (kept : keepNode int merge_point_llvm_block_id llvm_block_ids_to_keep pass (attrs, node) =
      .ok pass') :
    pass'.past_inst_nodes_to_keep = pass.past_inst_nodes_to_keep ++ if isPast llvm_block_ids_to_keep attrs then [node] else [] := by
  obtain ⟨isDebug, decided, kept⟩ := bind_eq_ok_iff.mp kept
  rw [isPast, nodeBlock, decided]
  cases isDebug with
  | true =>
    cases kept
    simp
  | false =>
    split at kept
    · contradiction
    · split at kept
      · rename_i noId
        cases kept
        simp [noId]
      · cases kept
      · rename_i inst_id rest isId
        obtain ⟨⟨block, inst_idx⟩, parsed, kept⟩ := bind_eq_ok_iff.mp kept
        obtain rfl := blockOf_parse parsed
        dsimp only at kept
        rw [isId]
        split at kept
        · rename_i inside
          split at kept <;> cases kept <;> simp [inside]
        · rename_i outside
          split at kept <;> cases kept <;> simp [outside]

theorem past_inst_nodes_to_keep_eq {entries : List (NodeAttrs × Nat)}
    (kept : entries.foldlM (keepNode int merge_point_llvm_block_id llvm_block_ids_to_keep) pass =
      .ok pass') :
    pass'.past_inst_nodes_to_keep = pass.past_inst_nodes_to_keep ++
      (entries.filter fun entry => isPast llvm_block_ids_to_keep entry.1).map Prod.snd := by
  induction entries generalizing pass with
  | nil =>
    cases kept
    simp
  | cons entry entries ih =>
    obtain ⟨between, here, later⟩ := bind_eq_ok_iff.mp kept
    rw [ih later, keepNode_spec here, filter_cons]
    split <;> simp

end Nodes

/-! ## The nearest blocks -/

section Record

variable {int : List Char → Option Int} {program : Program ι} {paths : List (String × List ι)}
  {merge_record : MergeRecord} {nodes : List NodeAttrs} {blocks : PathBlocks}

def IsBlock (program : Program ι) (paths : List (String × List ι)) (merge_record : MergeRecord)
    (block : List Char) : Prop :=
  block = blockOf merge_record.merge_point_addr ∨
    ∃ path ∈ paths, block ∈ pathBlockIds program path.2

/-- Each path adds its last blocks, as many as the limit says, whatever the other paths are,
and nothing but blocks is in the set that decides about the nodes. -/
structure KeepsNearest (program : Program ι) (paths : List (String × List ι))
    (merge_record : MergeRecord) (nodes : List NodeAttrs) (blocks : PathBlocks) : Prop where
  nearest : List.Forall₂
    (fun path added => added.toFinset = nearest program ⌊pathLimit paths⌋₊ path.2)
    paths blocks.added
  only : ∀ block ∈ blocks.llvm_block_ids_to_keep, IsBlock program paths merge_record block
  nodes : blocks.first_pass.past_inst_nodes_to_keep = (nodes.zipIdx.filter fun entry =>
    isPast blocks.llvm_block_ids_to_keep entry.1).map Prod.snd

/-- The characters that the set starts with are blocks themselves, and together with the
nearest blocks of the paths before they make each path end at the right block. -/
structure KeepsCount (program : Program ι) (paths : List (String × List ι))
    (merge_record : MergeRecord) : Prop where
  start : ∀ block ∈ characters (blockOf merge_record.merge_point_addr),
    IsBlock program paths merge_record block
  count : Undisturbed ⌊pathLimit paths⌋₊ (fun path => textualOrder program path.2)
    (fun path => nearest program ⌊pathLimit paths⌋₊ path.2)
    (characters (blockOf merge_record.merge_point_addr)) paths

theorem limit_pos : 0 < ⌊pathLimit paths⌋₊ := by
  have least : ((15 : Nat) : ℚ) ≤ pathLimit paths := le_max_right _ _
  exact Nat.lt_of_lt_of_le (by decide) (Nat.le_floor least)

/-- A successful call visits the paths, adds nothing else to the characters of the block of the
merge point, and keeps the nodes of what is in the set. -/
theorem pathBlocks_spec (written : merge_record.merged_paths = recorded program paths)
    (ok : pathBlocks int merge_record nodes = .ok blocks) :
    blocks.added = walks ⌊pathLimit paths⌋₊ (characters (blockOf merge_record.merge_point_addr))
        (paths.map fun path => textualOrder program path.2) ∧
      blocks.llvm_block_ids_to_keep = characters (blockOf merge_record.merge_point_addr) ∪
        blocks.added.flatten.toFinset ∧
      blocks.first_pass.past_inst_nodes_to_keep = (nodes.zipIdx.filter fun entry =>
        isPast blocks.llvm_block_ids_to_keep entry.1).map Prod.snd := by
  rw [pathBlocks, written] at ok
  obtain ⟨merged_paths, areValues, ok⟩ := bind_eq_ok_iff.mp ok
  obtain rfl : merged_paths = (paths.map Prod.snd).map fun path => (pathJson program path).toPy := by
    cases areValues
    rw [map_map, map_map]
    rfl
  obtain ⟨lengths, counted, ok⟩ := bind_eq_ok_iff.mp ok
  obtain rfl := lengths_of_mapM counted
  rw [map_map] at ok
  split at ok
  · cases ok
  · rename_i least isLeast
    have isLimit : max_length_of_path least = pathLimit paths := by
      rw [pathLimit, ← Option.getD_some (a := least) (b := 0), ← isLeast]
      rfl
    obtain ⟨merge_point_addr, isText, ok⟩ := bind_eq_ok_iff.mp ok
    obtain ⟨⟨block, inst_idx⟩, parsed, ok⟩ := bind_eq_ok_iff.mp ok
    obtain rfl : block = blockOf merge_record.merge_point_addr := by
      rw [blockOf_parse parsed, blockOf_text isText]
    obtain ⟨⟨loop, added⟩, visited, ok⟩ := bind_eq_ok_iff.mp ok
    obtain ⟨pass, passed, ok⟩ := bind_eq_ok_iff.mp ok
    rw [isLimit] at visited
    have nonneg : 0 ≤ pathLimit paths := le_trans (by norm_num) (le_max_right _ _)
    have spec := visitPaths_spec nonneg visited
    rw [map_map] at spec
    split at ok
    · cases ok
    · cases ok
      exact ⟨spec.1, spec.2, past_inst_nodes_to_keep_eq passed⟩

theorem added_isBlock {added : List (List (List Char))} {set : Finset (List Char)} {limit : Nat}
    (isWalks : added = walks limit set (paths.map fun path => textualOrder program path.2))
    {block : List Char} (member : block ∈ added.flatten) : ∃ path ∈ paths, block ∈ pathBlockIds program path.2 := by
  subst isWalks
  obtain ⟨items, isItems, reached⟩ := Cutoff.mem_walks member
  obtain ⟨path, isPath, rfl⟩ := mem_map.mp isItems
  refine ⟨path, isPath, ?_⟩
  rw [← mem_toFinset, ← toFinset_textualOrder, mem_toFinset]
  exact reached

/-- For the record of any paths and any graph: each path adds its nearest blocks and nothing
else gets into the set exactly where the set, which starts with characters, happens to have
the right size when each path begins. -/
theorem merge_graph_keeps_nearest_iff (int : List Char → Option Int) (program : Program ι)
    (paths : List (String × List ι)) {merge_record : MergeRecord} (nodes : List NodeAttrs)
    {blocks : PathBlocks} (written : merge_record.merged_paths = recorded program paths)
    (ok : pathBlocks int merge_record nodes = .ok blocks) :
    KeepsNearest program paths merge_record nodes blocks ↔ KeepsCount program paths merge_record := by
  obtain ⟨isWalks, kept, isPassed⟩ := pathBlocks_spec written ok
  have walked := @Cutoff.walks_iff _ _ ⌊pathLimit paths⌋₊
    (characters (blockOf merge_record.merge_point_addr)) _ (fun path => textualOrder program path.2)
    (fun path => nearest program ⌊pathLimit paths⌋₊ path.2) paths limit_pos
    fun path _ => card_nearest _
  rw [← isWalks] at walked
  constructor
  · rintro ⟨nearest, only, -⟩
    refine ⟨fun block member => only block ?_, walked.mp nearest⟩
    rw [kept]
    exact Finset.mem_union_left _ member
  · rintro ⟨start, count⟩
    refine ⟨walked.mpr count, fun block member => ?_, isPassed⟩
    rw [kept] at member
    rcases Finset.mem_union.mp member with first | later
    · exact start block first
    · exact .inr (added_isBlock isWalks (List.mem_toFinset.mp later))

end Record

section Example

def namedProgram : Program String where
  inst _ := ""
  instructions _ := []
  allocSite _ := .other
  inst_to_strID := id

def digitsOnly (text : List Char) : Option Int :=
  if text.all Char.isDigit ∧ text ≠ [] then some (Nat.ofDigitChars 10 text 0) else none

def recordOf (merge_point_addr : String) (path : List String) : MergeRecord where
  ir_fname := .str "m.bc"
  merge_id := .str "0"
  merge_point_addr := .str merge_point_addr
  merged_paths := recorded namedProgram [("7", path)]
  merged_vars := none
  merged_time := 1
  unmerged_time := 2
  prev_merge_point1 := .none
  prev_merge_point2 := .none

def returnNode (inst_id : String) : NodeAttrs where
  block := 0
  features := some [("full_text", ["ret void"]), ("inst_id", [inst_id])]

def longPath : List String := (List.range 15).map fun n => s!"m.c-main-{n + 2}-0"

def longRecord : MergeRecord := recordOf "m.c-main-1-0" longPath

theorem longRecord_ok :
    ∃ blocks, pathBlocks digitsOnly longRecord [returnNode "m.c-main-1-0"] = .ok blocks ∧ blocks.added.map (fun added => added.toFinset.card) = [8] := by
  have run : (pathBlocks digitsOnly longRecord [returnNode "m.c-main-1-0"]).map
      (fun blocks => blocks.added.map fun added => added.toFinset.card) = .ok [8] := by
    decide +kernel
  cases result : pathBlocks digitsOnly longRecord [returnNode "m.c-main-1-0"] with
  | error => rw [result] at run; cases run
  | ok blocks =>
    rw [result] at run
    exact ⟨blocks, rfl, Except.ok.inj run⟩

theorem nearest_longPath : (nearest namedProgram ⌊pathLimit [("7", longPath)]⌋₊ longPath).card = 15 := by decide +kernel

def shortPath : List String := ["b-0", "c-0", "b-0", "d-0"]

theorem shortRecord_keepsCount :
    KeepsCount namedProgram [("7", shortPath)] (recordOf "a-0" shortPath) where
  start block member := by
    have single : characters (blockOf (.str "a-0")) = {blockOf (.str "a-0")} := by decide +kernel
    exact .inl (Finset.mem_singleton.mp (single ▸ member))
  count := ⟨by decide +kernel, ⟨.inr (by decide +kernel), .inl (by decide +kernel)⟩, trivial⟩

/-- The merge point is in a block whose name is a single character. -/
theorem merge_graph_keeps_nearest_iff_sample :
    ∃ blocks, pathBlocks digitsOnly (recordOf "a-0" shortPath) [returnNode "a-0"] = .ok blocks ∧
      KeepsCount namedProgram [("7", shortPath)] (recordOf "a-0" shortPath) ∧
      KeepsNearest namedProgram [("7", shortPath)] (recordOf "a-0" shortPath) [returnNode "a-0"]
        blocks := by
  have runs : (pathBlocks digitsOnly (recordOf "a-0" shortPath) [returnNode "a-0"]).isOk = true := by
    decide +kernel
  cases result : pathBlocks digitsOnly (recordOf "a-0" shortPath) [returnNode "a-0"] with
  | error => rw [result] at runs; cases runs
  | ok blocks =>
    exact ⟨blocks, rfl, shortRecord_keepsCount, (merge_graph_keeps_nearest_iff digitsOnly
      namedProgram _ _ rfl result).mpr shortRecord_keepsCount⟩

theorem merge_graph_misses_blocks :
    ¬ ∀ (int : List Char → Option Int) (program : Program String)
      (paths : List (String × List String)) (merge_record : MergeRecord) (nodes : List NodeAttrs)
      (blocks : PathBlocks), merge_record.merged_paths = recorded program paths →
        pathBlocks int merge_record nodes = .ok blocks →
          KeepsNearest program paths merge_record nodes blocks := by
  intro claim
  obtain ⟨blocks, ok, count⟩ := longRecord_ok
  have keeps := (claim digitsOnly namedProgram [("7", longPath)] _ _ _ rfl ok).nearest
  cases added : blocks.added with
  | nil => simp [added] at count
  | cons first rest =>
    rw [added, map_cons] at count
    rw [added] at keeps
    have eight := (List.cons.inj count).1
    have nearest := (forall₂_cons.mp keeps).1
    rw [nearest, nearest_longPath] at eight
    exact absurd eight (by decide)

end Example

end NeuroMerge.Classifier
