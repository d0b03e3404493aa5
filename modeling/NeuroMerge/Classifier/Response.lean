import NeuroMerge.Classifier.QueryProperties
import NeuroMerge.Foundations.FloatRepr

/-!
# What the client makes of an answer

The server answers with the probabilities of the two classes. The client looks for a
zero in the text, which is there whatever the probabilities are.
-/

namespace NeuroMerge.Classifier

variable {ι : Type}

structure ClassProbabilities where
  shouldNotMerge : ℚ
  shouldMerge : ℚ
  floats : Binary64.round shouldNotMerge = shouldNotMerge ∧ Binary64.round shouldMerge = shouldMerge
  nonneg : 0 ≤ shouldNotMerge ∧ 0 ≤ shouldMerge
  atMost : shouldNotMerge ≤ 1 ∧ shouldMerge ≤ 1
  half : 1 / 2 ≤ shouldNotMerge ∨ 1 / 2 ≤ shouldMerge

/-- `json.dumps(val, indent=2)` of a dictionary of floating numbers. -/
def dumps (members : List (String × ℚ)) : List Char :=
  let line (member : String × ℚ) : List Char :=
    "\n  \"".toList ++ member.1.toList ++ "\": ".toList ++ Binary64.repr member.2
  '\x7b' :: (List.intercalate [','] (members.map line) ++ ['\n', '\x7d'])

def postprocess (pred : ClassProbabilities) : List Char :=
  dumps [("SHOULD_NOT_MERGE", pred.shouldNotMerge), ("SHOULD_MERGE", pred.shouldMerge)]

theorem zero_mem_postprocess (pred : ClassProbabilities) : '0' ∈ postprocess pred := by
  have either : '0' ∈ Binary64.repr pred.shouldNotMerge ∨ '0' ∈ Binary64.repr pred.shouldMerge := by
    cases pred.half with
    | inl half => exact .inl (Binary64.zero_mem_repr half pred.atMost.1)
    | inr half => exact .inr (Binary64.zero_mem_repr half pred.atMost.2)
  simp only [postprocess, dumps, List.map_cons, List.map_nil, List.intercalate, List.intersperse,
    List.flatten_cons, List.flatten_nil, List.mem_cons, List.mem_append]
  tauto

theorem merge_or_not_query (program : Program ι) (coin : Nat) (server : List Char → List Char) (es : RecordedState ι) (json : Json) :
    merge_or_not program .query coin server es json = decide ('0' ∈ server (complete program es json).dump) := by
  rw [merge_or_not]
  split
  · rename_i missing
    exact (decide_eq_false missing).symm
  · rename_i found
    exact (decide_eq_true (not_not.mp found)).symm

/-- On probabilities the client is right if they call for a merge, and on anything else
if there is no zero in it. -/
theorem decision_right_iff (program : Program ι) (coin : Nat) (server : List Char → List Char)
    (es : RecordedState ι) (json : Json) :
    (∀ pred, server (complete program es json).dump = postprocess pred →
      ((merge_or_not program .query coin server es json = true ↔
          pred.shouldNotMerge < pred.shouldMerge) ↔
        pred.shouldNotMerge < pred.shouldMerge)) ∧
    ((∀ pred, server (complete program es json).dump ≠ postprocess pred) →
      (merge_or_not program .query coin server es json = false ↔
        '0' ∉ server (complete program es json).dump)) := by
  rw [merge_or_not_query, decide_eq_true_iff, decide_eq_false_iff_not]
  constructor
  · intro pred answers
    have found : '0' ∈ server (complete program es json).dump := by
      rw [answers]
      exact zero_mem_postprocess pred
    simp only [found, true_iff]
  · exact fun _ => Iff.rfl

section Example

def unlikelyMerge : ClassProbabilities :=
  ⟨3 / 4, 1 / 4, by decide +kernel, by norm_num, by norm_num, by norm_num⟩

def serverError : List Char :=
  "\x7b\n  \"code\": 503,\n  \"type\": \"InternalServerException\"\n\x7d".toList

theorem unlikely_merge_decided :
    postprocess unlikelyMerge =
      "\x7b\n  \"SHOULD_NOT_MERGE\": 0.75,\n  \"SHOULD_MERGE\": 0.25\n\x7d".toList ∧
    merge_or_not sampleProgram .query 0 (fun _ => postprocess unlikelyMerge)
      (sampleState 1 10) .null = true ∧
    ¬ unlikelyMerge.shouldNotMerge < unlikelyMerge.shouldMerge ∧
    merge_or_not sampleProgram .query 0 (fun _ => serverError) (sampleState 1 10) .null = true := by
  refine ⟨by decide +kernel, ?_, by decide +kernel, by decide +kernel⟩
  rw [merge_or_not_query]
  exact decide_eq_true (zero_mem_postprocess _)

def likelyMerge : ClassProbabilities :=
  ⟨1 / 4, 3 / 4, by decide +kernel, by norm_num, by norm_num, by norm_num⟩

theorem decision_right_iff_error :
    merge_or_not sampleProgram .query 0 (fun _ => postprocess likelyMerge) (sampleState 1 10) .null =
        true ∧
      merge_or_not sampleProgram .query 0 (fun _ => ['y', 'e', 's']) (sampleState 1 10) .null =
        false := by
  have likelier : likelyMerge.shouldNotMerge < likelyMerge.shouldMerge := by decide +kernel
  constructor
  · exact (((decision_right_iff sampleProgram 0 (fun _ => postprocess likelyMerge) (sampleState 1 10)
      .null).1 likelyMerge rfl).mpr likelier).mpr likelier
  · refine ((decision_right_iff sampleProgram 0 (fun _ => ['y', 'e', 's']) (sampleState 1 10)
      .null).2 ?_).mpr (by decide)
    intro pred answers
    have found := zero_mem_postprocess pred
    rw [← answers] at found
    exact absurd found (by decide)

end Example

end NeuroMerge.Classifier
