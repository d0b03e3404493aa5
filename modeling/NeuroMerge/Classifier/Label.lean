import NeuroMerge.Classifier.MergeRecord

/-!
# Labels

The class of a merge record is computed in three places: for the name of the file of its
graph, for splitting the graphs, and for training.
-/

namespace NeuroMerge

namespace PyObject

def number? : PyObject → Option ℚ
  | bool b => some (if b then 1 else 0)
  | int n => some n
  | float x => some x
  | _ => .none

/-- `a <= b` of numbers and of strings. -/
def le (a b : PyObject) : Except PyError Bool :=
  match a.number?, b.number? with
  | some x, some y => pure (x ≤ y)
  | _, _ =>
    match a, b with
    | str s, str t => pure (s.toList ≤ t.toList)
    | _, _ => throw .typeError

end PyObject

namespace Classifier

inductive MergeDecision where
  | SHOULD_NOT_MERGE
  | SHOULD_MERGE
  deriving DecidableEq

inductive MergeGraphVarInclusion where
  | ONLY_MERGED
  | ALL
  deriving DecidableEq

def MergeGraphVarInclusion.name : MergeGraphVarInclusion → String
  | ONLY_MERGED => "only-merged"
  | ALL => "all"

/-- What `gen_merge_graphs` puts into the names of the files, if it generates any. -/
def gen_merge_graphs_label (merge : MergeRecord) : Except PyError (Option String) :=
  match merge.merged_vars with
  | none => pure none
  | some merged_vars => do
    match merged_vars.localVars with
    | .none => throw .assertionError
    | _ => pure ()
    let least := min merge.merged_time merge.unmerged_time
    if least = 0 then throw .zeroDivisionError
    let difference := |Binary64.round (merge.merged_time - merge.unmerged_time)|
    if Binary64.round (difference / least) < Binary64.round (5 / 100) then
      pure none
    else if merge.merged_time ≤ merge.unmerged_time then
      pure (some "1")
    else
      pure (some "0")

def merge_graph_fname (merge_id : List Char) (var_inclusion : MergeGraphVarInclusion)
    (label : String) : List Char :=
  ("MergeGraph-".toList ++ merge_id ++ '-' :: var_inclusion.name.toList) ++
    '-' :: (label.toList ++ ['.', 'p', 'b'])

/-- The label in the name of a file, as `process` reads it. -/
def fname_label (fname : List Char) : List Char :=
  let base := (fname.splitOn '/').getLastD []
  let ending := (base.splitOn '-').getLastD []
  (ending.splitOn '.').headD []

def get_merge_label (merge_record : PyObject) : Except PyError MergeDecision := do
  let merged_time ← merge_record.getItem MergeJsonField.MERGED_TIME.key
  let unmerged_time ← merge_record.getItem MergeJsonField.UNMERGED_TIME.key
  if ← merged_time.le unmerged_time then
    pure .SHOULD_MERGE
  else
    pure .SHOULD_NOT_MERGE

/-- `get_graph_label`, for the record that it loads. `a >= b` is `b <= a` for numbers and for
strings. -/
def get_graph_label (data : PyObject) : Except PyError Nat := do
  let merged_time ← data.getItem "Merged_exploration_time"
  let unmerged_time ← data.getItem "Unmerged_exploration_time "
  if ← unmerged_time.le merged_time then
    pure 0
  else
    pure 1

end Classifier

end NeuroMerge

/-!
## When the labels agree

The file name has the class of the times as numbers. The other two labels compare the times
as they are in the record, and they differ from each other where the times are equal.
-/

namespace NeuroMerge.Classifier

/-- A time and the number that it denotes. A string may be any decimal number that is no greater
than a double can be. -/
inductive IsTime : PyObject → ℚ → Prop where
  | int (n : Int) : IsTime (.int n) n
  | float {x : ℚ} (double : Binary64.round x = x) (finite : |x| ≤ Binary64.greatest) : IsTime (.float x) x
  | str {s : String} {x : ℚ} (reads : PyObject.decimal s.toList = some x)
      (finite : |x| ≤ Binary64.greatest) : IsTime (.str s) x

/-- The times are different numbers, or different strings in the order of the numbers that
they denote. -/
inductive OrderedAlike : PyObject → PyObject → ℚ → ℚ → Prop where
  | numbers {m u : PyObject} {x y : ℚ} (merged : m.number? = some x) (unmerged : u.number? = some y)
      (differ : x ≠ y) : OrderedAlike m u x y
  | strings {s t : String} {x y : ℚ} (differ : s ≠ t) (order : s.toList ≤ t.toList ↔ x ≤ y) :
      OrderedAlike (.str s) (.str t) x y

namespace IsTime

variable {m u : PyObject} {x y : ℚ}

theorem toFloat (time : IsTime m x) : m.toFloat = .ok (Binary64.round x) := by
  cases time with
  | int n => rfl
  | float double => rw [double]; rfl
  | str reads => rw [PyObject.toFloat, reads]; rfl

theorem number_or_string (time : IsTime m x) : m.number? = some x ∨ ∃ s, m = .str s := by
  cases time with
  | int n => exact .inl rfl
  | float double => exact .inl rfl
  | str reads => exact .inr ⟨_, rfl⟩

end IsTime

namespace PyObject

open NeuroMerge.PyObject

theorem le_of_numbers {a b : PyObject} {x y : ℚ} (first : a.number? = some x)
    (second : b.number? = some y) : a.le b = .ok (decide (x ≤ y)) := by
  simp only [PyObject.le, first, second]
  rfl

theorem le_of_strings (s t : String) : (PyObject.str s).le (.str t) = .ok (decide (s.toList ≤ t.toList)) := rfl

theorem le_of_number_of_string {a : PyObject} {x : ℚ} (number : a.number? = some x) (s : String) :
    a.le (.str s) = .error .typeError ∧ (PyObject.str s).le a = .error .typeError := by
  cases a with
  | bool => exact ⟨rfl, rfl⟩
  | int => exact ⟨rfl, rfl⟩
  | float => exact ⟨rfl, rfl⟩
  | _ => cases number

end PyObject

variable {merge : MergeRecord} {label : String}

section File

/-- A label is given only where the times differ as floating numbers. -/
theorem gen_merge_graphs_label_some (given : gen_merge_graphs_label merge = .ok (some label)) :
    merge.merged_time ≠ merge.unmerged_time ∧ label = if merge.merged_time ≤ merge.unmerged_time then "1" else "0" := by
  rw [gen_merge_graphs_label] at given
  have small : ¬ Binary64.round (|Binary64.round (merge.merged_time - merge.unmerged_time)| /
      min merge.merged_time merge.unmerged_time) < Binary64.round (5 / 100) ∧
        label = if merge.merged_time ≤ merge.unmerged_time then "1" else "0" := by
    split at given
    · cases given
    · simp only [bind, Except.bind] at given
      split at given
      · cases given
      · split_ifs at given with zero less le
        · cases given
        · cases given
          exact ⟨less, (if_pos le).symm⟩
        · cases given
          exact ⟨less, (if_neg le).symm⟩
  refine ⟨?_, small.2⟩
  intro same
  have zero : Binary64.round 0 = 0 := by decide +kernel
  apply small.1
  rw [same, sub_self, zero, abs_zero, zero_div, zero]
  decide +kernel

theorem getLastD_splitOn_append (separator : Char) (text ending : List Char) (absent : separator ∉ ending) :
    ∃ before, ((text ++ ending).splitOn separator).getLastD [] = before ++ ending := by
  induction text with
  | nil => exact ⟨[], by rw [List.nil_append, List.splitOn_eq_singleton absent]; rfl⟩
  | cons c text ih =>
    obtain ⟨before, last⟩ := ih
    rw [List.cons_append, List.splitOn_cons_eq_if_modifyHead]
    cases parts : (text ++ ending).splitOn separator with
    | nil => exact absurd parts (List.splitOn_ne_nil _ _)
    | cons part parts' =>
      rw [parts] at last
      split
      · exact ⟨before, last⟩
      · cases parts' with
        | nil => exact ⟨c :: before, by simpa using last⟩
        | cons => exact ⟨before, by simpa using last⟩

theorem getLastD_splitOn_cons (separator : Char) (text ending : List Char) (absent : separator ∉ ending) :
    ((text ++ separator :: ending).splitOn separator).getLastD [] = ending := by
  rw [List.splitOn_append_cons_self, List.splitOn_eq_singleton absent, List.getLastD_concat]

theorem fname_label_append (start : List Char) {label : List Char} (plain : ∀ c ∈ ['/', '-', '.'], c ∉ label) :
    fname_label (start ++ '-' :: (label ++ ['.', 'p', 'b'])) = label := by
  have absent : '-' ∉ label ++ ['.', 'p', 'b'] := by
    simpa using plain '-' (by simp)
  have ending : '/' ∉ '-' :: (label ++ ['.', 'p', 'b']) := by
    simpa using plain '/' (by simp)
  obtain ⟨before, last⟩ := getLastD_splitOn_append '/' start _ ending
  rw [fname_label, last]
  rw [getLastD_splitOn_cons '-' before _ absent, List.splitOn_append_cons_self, List.splitOn_eq_singleton (plain '.' (by simp))]
  rfl

theorem fname_label_merge_graph_fname (merge_id : List Char)
    (var_inclusion : MergeGraphVarInclusion) (plain : ∀ c ∈ ['/', '-', '.'], c ∉ label.toList) :
    fname_label (merge_graph_fname merge_id var_inclusion label) = label.toList :=
  fname_label_append _ plain

end File

/-- The labels are those of the class that the times as numbers have. -/
structure LabelsAgree (data : PyObject) (x y : ℚ) : Prop where
  file : ∀ merge label, parseMergeJson data false = .ok merge →
    gen_merge_graphs_label merge = .ok (some label) →
      ∀ merge_id var_inclusion, fname_label (merge_graph_fname merge_id var_inclusion label) =
        (if x ≤ y then "1" else "0").toList
  merge : get_merge_label data = .ok (if x ≤ y then .SHOULD_MERGE else .SHOULD_NOT_MERGE)
  graph : get_graph_label data = .ok (if x ≤ y then 1 else 0)

section Agreement

variable {data m u : PyObject} {x y : ℚ}

theorem get_of_getItem {key : String} {value : PyObject} (item : data.getItem key = .ok value) : data.get key = .ok value := by
  cases data with
  | dict members =>
    rw [PyObject.getItem] at item
    cases found : members.lookup key with
    | none =>
      rw [found] at item
      cases item
    | some =>
      rw [found] at item
      cases item
      rw [PyObject.get, found]
      rfl
  | _ => cases item

section

variable (merged : data.getItem MergeJsonField.MERGED_TIME.key = .ok m)
  (unmerged : data.getItem MergeJsonField.UNMERGED_TIME.key = .ok u)
include merged unmerged

theorem times_of_parseMergeJson (mergedTime : IsTime m x) (unmergedTime : IsTime u y) (parsed : parseMergeJson data false = .ok merge) :
    merge.merged_time = Binary64.round x ∧ merge.unmerged_time = Binary64.round y := by
  simp only [parseMergeJson, explorationTimes, if_true, bind, Except.bind, pure, Except.pure,
    get_of_getItem merged, get_of_getItem unmerged] at parsed
  repeat' split at parsed
  all_goals try cases parsed
  simp only [MergeRecord.init, mergedTime.toFloat, unmergedTime.toFloat, bind, Except.bind] at parsed
  split at parsed
  · cases parsed
  · cases parsed
    exact ⟨rfl, rfl⟩

/-- The label of the file is right whenever there is one: rounding keeps the order of the
times, and times that it makes equal get none. -/
theorem file_label_right (mergedTime : IsTime m x) (unmergedTime : IsTime u y) (parsed : parseMergeJson data false = .ok merge)
    (given : gen_merge_graphs_label merge = .ok (some label)) (merge_id : List Char) (var_inclusion : MergeGraphVarInclusion) :
    fname_label (merge_graph_fname merge_id var_inclusion label) = (if x ≤ y then "1" else "0").toList := by
  obtain ⟨differ, rfl⟩ := gen_merge_graphs_label_some given
  obtain ⟨first, second⟩ := times_of_parseMergeJson merged unmerged mergedTime unmergedTime parsed
  rw [first, second] at differ ⊢
  have order : Binary64.round x ≤ Binary64.round y ↔ x ≤ y := by
    constructor
    · intro rounded
      by_contra greater
      exact differ (le_antisymm rounded (Binary64.round_mono (le_of_not_ge greater)))
    · exact Binary64.round_mono
  simp only [order]
  apply fname_label_merge_graph_fname
  split
  · simp
  · simp

theorem get_merge_label_eq : get_merge_label data = (m.le u).map fun le => if le then .SHOULD_MERGE else .SHOULD_NOT_MERGE := by
  simp only [get_merge_label, merged, unmerged, bind, Except.bind]
  cases m.le u with
  | error => rfl
  | ok le => cases le <;> rfl

theorem get_graph_label_eq : get_graph_label data = (u.le m).map fun ge => if ge then 0 else 1 := by
  change data.getItem "Merged_exploration_time" = .ok m at merged
  change data.getItem "Unmerged_exploration_time " = .ok u at unmerged
  simp only [get_graph_label, merged, unmerged, bind, Except.bind]
  cases u.le m with
  | error => rfl
  | ok ge => cases ge <;> rfl

theorem labelsAgree_iff_le (mergedTime : IsTime m x) (unmergedTime : IsTime u y) :
    LabelsAgree data x y ↔ m.le u = .ok (decide (x ≤ y)) ∧ u.le m = .ok (decide ¬ x ≤ y) := by
  constructor
  · intro agree
    have merge := agree.merge
    have graph := agree.graph
    rw [get_merge_label_eq merged unmerged] at merge
    rw [get_graph_label_eq merged unmerged] at graph
    constructor
    · cases compared : m.le u with
      | error =>
        rw [compared] at merge
        cases merge
      | ok le =>
        by_cases order : x ≤ y <;> cases le <;> simp_all [Except.map]
    · cases compared : u.le m with
      | error =>
        rw [compared] at graph
        cases graph
      | ok ge =>
        by_cases order : x ≤ y <;> cases ge <;> simp_all [Except.map]
  · intro ⟨le, ge⟩
    refine ⟨fun _ _ => file_label_right merged unmerged mergedTime unmergedTime, ?_, ?_⟩
    · rw [get_merge_label_eq merged unmerged, le]
      by_cases order : x ≤ y <;> simp [order, Except.map]
    · rw [get_graph_label_eq merged unmerged, ge]
      by_cases order : x ≤ y <;> simp [order, Except.map]

end

/-- The labels agree if and only if the raw times are ordered as the numbers are. -/
theorem labelsAgree_iff (merged : data.getItem MergeJsonField.MERGED_TIME.key = .ok m)
    (unmerged : data.getItem MergeJsonField.UNMERGED_TIME.key = .ok u)
    (mergedTime : IsTime m x) (unmergedTime : IsTime u y) :
    LabelsAgree data x y ↔ OrderedAlike m u x y := by
  rw [labelsAgree_iff_le merged unmerged mergedTime unmergedTime]
  cases mergedTime.number_or_string with
  | inl first =>
    cases unmergedTime.number_or_string with
    | inl second =>
      rw [PyObject.le_of_numbers first second, PyObject.le_of_numbers second first]
      have orders : (decide (y ≤ x) = decide ¬ x ≤ y) ↔ x ≠ y := by
        rw [decide_eq_decide, not_le]
        exact ⟨fun same eq => (same.mp eq.ge).ne' eq, fun differ =>
          ⟨fun le => lt_of_le_of_ne le differ.symm, le_of_lt⟩⟩
      constructor
      · intro ⟨_, ge⟩
        exact .numbers first second (orders.mp (Except.ok.inj ge))
      · intro ordered
        cases ordered with
        | numbers _ _ differ => exact ⟨rfl, congrArg _ (orders.mpr differ)⟩
        | strings => cases first
    | inr second =>
      obtain ⟨t, rfl⟩ := second
      rw [(PyObject.le_of_number_of_string first t).1]
      constructor
      · intro ⟨le, _⟩
        cases le
      · intro ordered
        cases ordered with
        | numbers _ unmerged => cases unmerged
        | strings => cases first
  | inr first =>
    obtain ⟨s, rfl⟩ := first
    cases unmergedTime.number_or_string with
    | inl second =>
      rw [(PyObject.le_of_number_of_string second s).2]
      constructor
      · intro ⟨le, _⟩
        cases le
      · intro ordered
        cases ordered with
        | numbers merged => cases merged
        | strings => cases second
    | inr second =>
      obtain ⟨t, rfl⟩ := second
      rw [PyObject.le_of_strings, PyObject.le_of_strings]
      simp only [Except.ok.injEq, decide_eq_decide]
      constructor
      · intro ⟨le, ge⟩
        refine .strings ?_ le
        intro same
        subst same
        exact ge.mp (le_refl _) (le.mp (le_refl _))
      · intro ordered
        cases ordered with
        | numbers merged => cases merged
        | strings differ order =>
          refine ⟨order, ?_⟩
          rw [← order]
          constructor
          · intro ge le
            exact differ (String.toList_inj.mp (le_antisymm le ge))
          · intro greater
            exact le_of_not_ge greater

end Agreement

section Example

def timedRecord (merged_time unmerged_time : String) : PyObject :=
  .dict [("IR_filename", .str "echo.bc"), ("Merge_ID", .str "1"),
    ("Merged_exploration_time", .str merged_time),
    ("Merged_variables", .dict [("Local_variables", .list [.str "echo.c-main-0-1"])]),
    ("Unmerged_exploration_time ", .str unmerged_time)]

theorem ten_seconds_disagree :
    IsTime (.str "10.000000") 10 ∧ IsTime (.str "9.000000") 9 ∧
    ((parseMergeJson (timedRecord "10.000000" "9.000000") false).bind gen_merge_graphs_label) =
      .ok (some "0") ∧
    get_merge_label (timedRecord "10.000000" "9.000000") = .ok .SHOULD_MERGE ∧
    get_graph_label (timedRecord "10.000000" "9.000000") = .ok 1 ∧
    ¬ LabelsAgree (timedRecord "10.000000" "9.000000") 10 9 := by
  have label : get_merge_label (timedRecord "10.000000" "9.000000") = .ok .SHOULD_MERGE := by
    decide +kernel
  refine ⟨.str (by decide +kernel) (by decide +kernel), .str (by decide +kernel) (by decide +kernel), by decide +kernel, label,
    by decide +kernel, ?_⟩
  intro agree
  have right := agree.merge
  exact absurd right (by decide +kernel)

theorem short_times_agree :
    LabelsAgree (timedRecord "0.040674" "0.054674") (40674 / 1000000) (54674 / 1000000) := by
  have merged : (timedRecord "0.040674" "0.054674").getItem MergeJsonField.MERGED_TIME.key =
      .ok (.str "0.040674") := rfl
  have unmerged : (timedRecord "0.040674" "0.054674").getItem MergeJsonField.UNMERGED_TIME.key =
      .ok (.str "0.054674") := rfl
  exact (labelsAgree_iff merged unmerged (.str (by decide +kernel) (by decide +kernel))
    (.str (by decide +kernel) (by decide +kernel))).mpr (.strings (by decide) (by decide +kernel))

end Example

end NeuroMerge.Classifier
