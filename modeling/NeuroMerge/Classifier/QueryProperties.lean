import NeuroMerge.Classifier.Query
import NeuroMerge.Foundations.JsonProperties

/-!
# What the server makes of a query

The record that is sent names the second exploration time differently from the
scripts that read it, so no query is understood.
-/

namespace NeuroMerge.Classifier

open Json (IsRecord)
open RecordedState (preMerge localVariables pathKey pathJson pushVariable pushObject mutated)

variable {ι : Type}

def gather (program : Program ι) (a : RecordedState ι) (partners : List (RecordedState ι)) : Json :=
  partners.foldl (preMerge program a) .null

def query (program : Program ι) (a : RecordedState ι) (partners : List (RecordedState ι)) :
    List Char :=
  (complete program a (gather program a partners)).dump

def inOrder (members : List (String × PyObject)) : List PyObject :=
  (members.mergeSort fun first second => first.1 ≤ second.1).map Prod.snd

/-- The record says about the states what was written, and has lists where the graph
is made from lists. -/
structure Understood (program : Program ι) (a : RecordedState ι)
    (partners : List (RecordedState ι)) (record : MergeRecord) : Prop where
  mergePoint : record.merge_point_addr = .str (program.inst_to_strID (program.inst a.pc))
  localVars : ∀ merged, record.merged_vars = some merged →
    merged.localVars = .list ((partners.flatMap (localVariables program a)).map .str)
  noVars : record.merged_vars = none → partners.flatMap (localVariables program a) = []
  paths : ∃ paths, record.merged_paths = .dict paths ∧ ∀ b ∈ partners,
    ∃ members, paths.lookup (String.ofList (Nat.toDigits 10 b.hash)) = some (.dict members) ∧
      inOrder members = b.path.map fun i => .str (program.inst_to_strID i)

section Document

variable {program : Program ι} {a b : RecordedState ι} {partners : List (RecordedState ι)} {json : Json}

theorem pushVariable_isRecord {kind id : String} (isRecord : IsRecord json) : IsRecord (pushVariable kind json id) := isRecord.modify

theorem pushObject_isRecord {mo : Memory.MemoryObject} (isRecord : IsRecord json) : IsRecord (pushObject program json mo) := by
  rw [pushObject]
  split
  · exact pushVariable_isRecord isRecord
  · exact pushVariable_isRecord isRecord
  · exact isRecord

def mergeFields : List String := ["Merged_variables", "Merged_paths"]

structure OnlyMerges (json : Json) : Prop where
  isRecord : IsRecord json
  fields : ∀ key, key ∉ mergeFields → json.get? key = none

theorem OnlyMerges.modify (only : OnlyMerges json) {key : String} (field : key ∈ mergeFields)
    {change : Json → Json} : OnlyMerges (json.modify key change) := by
  refine ⟨only.isRecord.modify, ?_⟩
  intro other notField
  have different : other ≠ key := fun same => notField (same ▸ field)
  rw [Json.get?_modify only.isRecord, if_neg different]
  exact only.fields other notField

theorem OnlyMerges.pushObject (only : OnlyMerges json) {mo : Memory.MemoryObject} :
    OnlyMerges (RecordedState.pushObject program json mo) := by
  rw [RecordedState.pushObject]
  split
  · exact only.modify (by decide)
  · exact only.modify (by decide)
  · exact only

theorem OnlyMerges.foldl {α : Type} {step : Json → α → Json}
    (next : ∀ json item, OnlyMerges json → OnlyMerges (step json item)) (items : List α)
    (only : OnlyMerges json) : OnlyMerges (items.foldl step json) := by
  induction items generalizing json with
  | nil => exact only
  | cons item items ih => exact ih (next json item only)

theorem OnlyMerges.preMerge (only : OnlyMerges json) : OnlyMerges (RecordedState.preMerge program a json b) := by
  rw [RecordedState.preMerge]
  apply OnlyMerges.modify _ (by decide)
  apply OnlyMerges.foldl (fun _ _ only => only.pushObject)
  apply OnlyMerges.foldl (fun _ _ only => only.modify (by decide))
  exact only

theorem gather_onlyMerges : OnlyMerges (gather program a partners) := by
  apply OnlyMerges.foldl (fun _ _ only => only.preMerge)
  exact ⟨.null, fun _ _ => rfl⟩

def found (json : Json) (key : String) : PyObject := ((json.get? key).map Json.toPy).getD .none

theorem complete_read (only : OnlyMerges json) : ∃ document,
    PyObject.loads (complete program a json).dump = .ok document ∧
    (∀ key, document.get key = .ok (found (complete program a json) key)) ∧
    document.getItem "IR_filename" = .ok (.str a.inputfile) ∧ document.getItem "Merge_ID" = .ok (.str "dsfasd") := by
  have isRecord : IsRecord (complete program a json) := only.isRecord.setAll _
  have file : (complete program a json).get? "IR_filename" = some (.string a.inputfile) := by
    rw [complete, Json.get?_setAll only.isRecord]
    rfl
  have id : (complete program a json).get? "Merge_ID" = some (.string "dsfasd") := by
    rw [complete, Json.get?_setAll only.isRecord]
    rfl
  refine ⟨_, PyObject.loads_dump _, ?_⟩
  cases completed : complete program a json with
  | object members =>
    rw [completed] at isRecord file id
    cases isRecord with
    | object ascending =>
      exact ⟨PyObject.get_toPy ascending, PyObject.getItem_toPy ascending file, PyObject.getItem_toPy ascending id⟩
  | _ => simp [completed, Json.get?] at file

theorem found_complete (only : OnlyMerges json) (key : String) : found (complete program a json) key =
    ((((recordFields program a).reverse.lookup key).or (json.get? key)).map Json.toPy).getD .none := by
  rw [found, complete, Json.get?_setAll only.isRecord]

theorem toFloat_time : (PyObject.str "0.040674").toFloat = .ok (Binary64.round (40674 / 1000000)) := by
  decide +kernel

theorem query_refused : parse_merge_json_from_str (query program a partners) false = .error .typeError := by
  have only : OnlyMerges (gather program a partners) := gather_onlyMerges
  obtain ⟨document, read, get, file, id⟩ : ∃ document,
      PyObject.loads (complete program a (gather program a partners)).dump = .ok document ∧ _ :=
    complete_read only
  have time : found (complete program a (gather program a partners)) "Merged_exploration_time" = .str "0.040674" := by
    rw [found_complete only]
    rfl
  have missing : found (complete program a (gather program a partners)) "Unmerged_exploration_time " = .none := by
    rw [found_complete only, only.fields _ (by decide)]
    rfl
  rw [parse_merge_json_from_str, query, read]
  simp only [parseMergeJson, explorationTimes, MergeJsonField.key, file, id, get, time, missing,
    if_true, bind, Except.bind, pure, Except.pure, MergeRecord.init, toFloat_time]
  rfl

end Document

theorem no_query_understood (program : Program ι) (a : RecordedState ι)
    (partners : List (RecordedState ι)) :
    ¬ ∃ record, parse_merge_json_from_str (query program a partners) false = .ok record ∧
      Understood program a partners record := by
  intro understood
  obtain ⟨record, parsed, -⟩ := understood
  rw [query_refused] at parsed
  cases parsed

section Example

def sampleProgram : Program Nat :=
  ⟨id, fun _ => [⟨0, 0⟩], fun _ => .other, fun i => "main.c-main-0-" ++ toString i⟩

def sampleState (value hash : Nat) : RecordedState Nat where
  pc := 1
  prevPC := 0
  stack := [⟨0, ⟨1, 1⟩, fun _ => some (.constant (.alloc value 32))⟩]
  depth := 1
  forkDisabled := false
  addressSpace := .empty
  constraints := []
  symbolics := []
  path := [0]
  hash := hash
  inputfile := "main.bc"
  steppedInstructions := 1
  instsSinceCovNew := 0
  coveredNew := true

theorem sample_query_refused :
    (sampleState 1 10).canMerge (sampleState 2 20) = true ∧
    (query sampleProgram (sampleState 1 10) [sampleState 2 20]).take 43 =
      "\x7b\"IR_filename\":\"main.bc\",\"Merge_ID\":\"dsfasd".toList.take 43 ∧
    ¬ ∃ record, parse_merge_json_from_str
        (query sampleProgram (sampleState 1 10) [sampleState 2 20]) false = .ok record ∧
      Understood sampleProgram (sampleState 1 10) [sampleState 2 20] record := by
  refine ⟨by decide, by decide +kernel, ?_⟩
  intro understood
  obtain ⟨record, parsed, -⟩ := understood
  rw [query_refused] at parsed
  cases parsed

end Example

end NeuroMerge.Classifier
