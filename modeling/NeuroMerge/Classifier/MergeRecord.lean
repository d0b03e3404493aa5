import NeuroMerge.Foundations.Json

/-!
# Merge records

What the scripts read about a possible merge. The names of the fields are those of
`MERGE_JSON_FIELDS`.
-/

namespace NeuroMerge.Classifier

inductive MergeJsonField where
  | IR_FILENAME
  | MERGE_ID
  | MERGE_POINT_ADDR
  | MERGED_TIME
  | UNMERGED_TIME
  | MERGED_PATHS
  | MERGED_VARS
  | GLOBAL_MEM_ADDRS
  | GLOBAL_VARS
  | LOCAL_VARS
  | PREV_MERGE_POINT1
  | PREV_MERGE_POINT2

def MergeJsonField.key : MergeJsonField → String
  | IR_FILENAME => "IR_filename"
  | MERGE_ID => "Merge_ID"
  | MERGE_POINT_ADDR => "Merge_point_addr"
  | MERGED_TIME => "Merged_exploration_time"
  | UNMERGED_TIME => "Unmerged_exploration_time "
  | MERGED_PATHS => "Merged_paths"
  | MERGED_VARS => "Merged_variables"
  | GLOBAL_MEM_ADDRS => "Global_memories"
  | GLOBAL_VARS => "Global_variables"
  | LOCAL_VARS => "Local_variables"
  | PREV_MERGE_POINT1 => "Prev_merge_point_00"
  | PREV_MERGE_POINT2 => "Prev_merge_point_01"

structure MergedVars where
  globalMemAddrs : PyObject
  globalVars : PyObject
  localVars : PyObject

/-- `MergeRecord`, without the two optional fields that no record sets. -/
structure MergeRecord where
  ir_fname : PyObject
  merge_id : PyObject
  merge_point_addr : PyObject
  merged_paths : PyObject
  merged_vars : Option MergedVars
  merged_time : ℚ
  unmerged_time : ℚ
  prev_merge_point1 : PyObject
  prev_merge_point2 : PyObject

namespace MergeRecord

def mergedVars : PyObject → Except PyError (Option MergedVars)
  | .none => pure none
  | merged_vars => do
    let globalMemAddrs ← merged_vars.get MergeJsonField.GLOBAL_MEM_ADDRS.key
    let globalVars ← merged_vars.get MergeJsonField.GLOBAL_VARS.key
    let localVars ← merged_vars.get MergeJsonField.LOCAL_VARS.key
    pure (some ⟨globalMemAddrs, globalVars, localVars⟩)

def init (ir_fname merge_id merge_point_addr merged_paths merged_vars merged_time unmerged_time
    prev_merge_point1 prev_merge_point2 : PyObject) : Except PyError MergeRecord := do
  let merged_time ← merged_time.toFloat
  let unmerged_time ← unmerged_time.toFloat
  let merged_vars ← mergedVars merged_vars
  pure ⟨ir_fname, merge_id, merge_point_addr, merged_paths, merged_vars, merged_time, unmerged_time,
    prev_merge_point1, prev_merge_point2⟩

end MergeRecord

def explorationTimes (merge_json : PyObject) (use_dummy_fields : Bool) :
    Except PyError (PyObject × PyObject) :=
  if use_dummy_fields = false then do
    let merged_time ← merge_json.get MergeJsonField.MERGED_TIME.key
    let unmerged_time ← merge_json.get MergeJsonField.UNMERGED_TIME.key
    pure (merged_time, unmerged_time)
  else pure (.str "0.040674", .str "0.040674")

/-- What `parse_merge_json_from_str` and `parse_merge_json` do with the document. -/
def parseMergeJson (merge_json : PyObject) (use_dummy_fields : Bool) :
    Except PyError MergeRecord := do
  let ir_fname ← merge_json.getItem MergeJsonField.IR_FILENAME.key
  let merge_id ← merge_json.getItem MergeJsonField.MERGE_ID.key
  let merge_point_addr ← merge_json.get MergeJsonField.MERGE_POINT_ADDR.key
  let merged_paths ← merge_json.get MergeJsonField.MERGED_PATHS.key
  let merged_vars ← merge_json.get MergeJsonField.MERGED_VARS.key
  let (merged_time, unmerged_time) ← explorationTimes merge_json use_dummy_fields
  let prev_merge_point1 ← merge_json.get MergeJsonField.PREV_MERGE_POINT1.key
  let prev_merge_point2 ← merge_json.get MergeJsonField.PREV_MERGE_POINT2.key
  MergeRecord.init ir_fname merge_id merge_point_addr merged_paths merged_vars merged_time
    unmerged_time prev_merge_point1 prev_merge_point2

def parse_merge_json_from_str (json_str : List Char) (use_dummy_fields : Bool) :
    Except PyError MergeRecord := do
  let merge_json ← PyObject.loads json_str
  parseMergeJson merge_json use_dummy_fields

end NeuroMerge.Classifier
