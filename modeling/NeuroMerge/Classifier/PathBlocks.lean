import Mathlib.Data.Finset.Card
import Mathlib.Data.List.Sort
import NeuroMerge.Classifier.Split

/-!
# Blocks of the merged paths

The first part of `gen_merge_graph`: which blocks of the paths of a merge record are kept,
and the instruction nodes of the program graph that they have.
-/

namespace NeuroMerge

namespace PyObject

def len : PyObject → Except PyError Nat
  | str s => pure s.length
  | list items => pure items.length
  | dict members => pure members.length
  | _ => throw .typeError

def items : PyObject → Except PyError (List (String × PyObject))
  | dict members => pure members
  | _ => throw .typeError

def values (d : PyObject) : Except PyError (List PyObject) := do
  let members ← d.items
  pure (members.map Prod.snd)

def text : PyObject → Except PyError (List Char)
  | str s => pure s.toList
  | _ => throw .typeError

/-- `sorted(d.items())`. The keys of a dictionary differ. -/
def sorted {α : Type} (members : List (String × α)) : List (String × α) :=
  members.insertionSort fun a b => a.1.toList ≤ b.1.toList

end PyObject

namespace Classifier

def rsplit (text : List Char) : Option (List Char × List Char) :=
  match text.reverse.span (· ≠ '-') with
  | (last, _ :: first) => some (first.reverse, last.reverse)
  | (_, []) => none

def maxLengthOfPathRatio : ℚ := Binary64.round (5 / 1000000)

def minLengthOfPath : Nat := 15

def max_length_of_path (min_length_of_merged_path : Nat) : ℚ :=
  max (Binary64.round (Binary64.round min_length_of_merged_path * maxLengthOfPathRatio))
    minLengthOfPath

structure NodeAttrs where
  block : Nat
  features : Option (List (String × List String))

def is_llvm_debug_info_node (node : NodeAttrs) : Except PyError Bool :=
  match node.features with
  | none => pure false
  | some features =>
    match features.lookup "full_text" with
    | none => throw .keyError
    | some [] => throw .indexError
    | some (full_text :: _) => pure ("call void @llvm".toList.isPrefixOf full_text.toList)

/-- The sets that the loop over the paths adds to. -/
structure PathLoop where
  relevant_inst_ids : Finset (List Char)
  llvm_block_ids_to_keep : Finset (List Char)

/-- What the first pass over the nodes has collected. -/
structure FirstPass where
  past_inst_nodes_to_keep : List Nat
  block_ids_to_keep : Finset Nat
  /-- `merge_point` and `merge_point_block_id` -/
  merge_point : Option (Nat × Nat)
  curr_merge_point_node_inst_id : Int

structure PathBlocks extends PathLoop where
  /-- The blocks that each path has added. -/
  added : List (List (List Char))
  first_pass : FirstPass

section Generate

-- `int(text)`, none if it raises an error
variable (int : List Char → Option Int)

def parse_inst_id (inst_id : List Char) : Except PyError (List Char × Int) :=
  match rsplit (basename inst_id) with
  | none => throw .valueError
  | some (llvm_block_id, inst_idx) =>
    match int inst_idx with
    | none => throw .valueError
    | some inst_idx => pure (llvm_block_id, inst_idx)

/-- From closest to furthest with respect to the merge point. -/
def visitPath (max_length_of_path : ℚ) (loop : PathLoop) :
    List PyObject → Except PyError (PathLoop × List (List Char))
  | [] => pure (loop, [])
  | inst_id :: rest => do
    let inst_id ← inst_id.text
    let (llvm_block_id, _) ← parse_inst_id int inst_id
    let loop : PathLoop :=
      { relevant_inst_ids := insert inst_id loop.relevant_inst_ids
        llvm_block_ids_to_keep := insert llvm_block_id loop.llvm_block_ids_to_keep }
    if max_length_of_path < loop.llvm_block_ids_to_keep.card then
      pure (loop, [llvm_block_id])
    else
      let (loop, added) ← visitPath max_length_of_path loop rest
      pure (loop, llvm_block_id :: added)

def visitPaths (max_length_of_path : ℚ) (loop : PathLoop) :
    List PyObject → Except PyError (PathLoop × List (List (List Char)))
  | [] => pure (loop, [])
  | merged_path :: rest => do
    let items ← merged_path.items
    let (loop, added) ← visitPath int max_length_of_path loop
      ((PyObject.sorted items).reverse.map Prod.snd)
    let (loop, others) ← visitPaths max_length_of_path loop rest
    pure (loop, added :: others)

def keepNode (merge_point_llvm_block_id : List Char) (llvm_block_ids_to_keep : Finset (List Char))
    (pass : FirstPass) (entry : NodeAttrs × Nat) : Except PyError FirstPass := do
  let (attrs, node) := entry
  if ← is_llvm_debug_info_node attrs then
    pure pass
  else
    match attrs.features.bind (·.lookup "inst_id") with
    | none => pure pass
    | some [] => throw .indexError
    | some (inst_id :: _) => do
      let (llvm_block_id, inst_idx) ← parse_inst_id int inst_id.toList
      let pass :=
        if llvm_block_id = merge_point_llvm_block_id ∧
            inst_idx < pass.curr_merge_point_node_inst_id then
          { pass with
            curr_merge_point_node_inst_id := inst_idx
            merge_point := some (node, attrs.block) }
        else pass
      if llvm_block_id ∈ llvm_block_ids_to_keep then
        pure
          { pass with
            past_inst_nodes_to_keep := pass.past_inst_nodes_to_keep ++ [node]
            block_ids_to_keep := insert attrs.block pass.block_ids_to_keep }
      else
        pure pass

def characters (text : List Char) : Finset (List Char) := (text.map fun c => [c]).toFinset

/-- `gen_merge_graph` until the merge point is found. -/
def pathBlocks (merge_record : MergeRecord) (nodes : List NodeAttrs) :
    Except PyError PathBlocks := do
  let merged_paths ← merge_record.merged_paths.values
  let lengths ← merged_paths.mapM PyObject.len
  match lengths.min? with
  | none => throw .valueError
  | some min_length_of_merged_path =>
    let limit := max_length_of_path min_length_of_merged_path
    let merge_point_addr ← merge_record.merge_point_addr.text
    let (merge_point_llvm_block_id, _) ← parse_inst_id int merge_point_addr
    let (loop, added) ← visitPaths int limit
      ⟨characters merge_point_addr, characters merge_point_llvm_block_id⟩ merged_paths
    let pass ← nodes.zipIdx.foldlM
      (keepNode int merge_point_llvm_block_id loop.llvm_block_ids_to_keep) ⟨[], ∅, none, 999999999⟩
    if pass.merge_point.isNone then throw .assertionError
    pure { loop with added := added, first_pass := pass }

end Generate

end Classifier

end NeuroMerge
