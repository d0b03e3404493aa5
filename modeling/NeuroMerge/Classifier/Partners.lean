import NeuroMerge.Classifier.QueryProperties

/-!
# The partners of a state

The path of every state that a state is compared with is filed under the `hash` of that
state. No constructor and no other function sets this field, so it is whatever the
memory of the state has held before.
-/

namespace NeuroMerge.Classifier

open List

open Execution (KFunction KInstIterator)
open Json (IsRecord)
open RecordedState (preMerge pathJson)

variable {ι : Type}

/-! ## Where states come from -/

namespace RecordedState

/-- `ExecutionState(KFunction *)`. `word` is what the memory of `hash` holds. -/
def ofFunction (kf : KFunction) (instructions : KInstIterator) (word : Nat) : RecordedState ι where
  pc := instructions
  prevPC := instructions
  stack := [⟨0, kf, fun _ => none⟩]
  depth := 0
  forkDisabled := false
  addressSpace := .empty
  constraints := []
  symbolics := []
  path := []
  hash := word
  inputfile := ""
  steppedInstructions := 0
  instsSinceCovNew := 0
  coveredNew := false

/-- `branch`. The copy constructor leaves out `inputfile` and `hash`. -/
def branch (state : RecordedState ι) (word : Nat) : RecordedState ι × RecordedState ι :=
  let (trueState, falseState) := state.toExecutionState.branch
  ({ state with toExecutionState := trueState },
    { state with
      toExecutionState := falseState
      hash := word
      inputfile := ""
      coveredNew := false })

end RecordedState

/-- A step of a run, with the states in the order in which they were allocated. `held` is
what the memory of the field `hash` holds when a state is allocated there. -/
inductive Step (held : Nat → Nat) : List (RecordedState ι) → List (RecordedState ι) → Prop where
  | construct (states : List (RecordedState ι)) (kf : KFunction) (instructions : KInstIterator) :
      Step held states (states ++ [.ofFunction kf instructions (held states.length)])
  | branch {states : List (RecordedState ι)} {i : Nat} {state : RecordedState ι}
      (found : states[i]? = some state) :
      Step held states (states.set i (state.branch (held states.length)).1 ++
        [(state.branch (held states.length)).2])
  -- instructions that are executed and merges write the other fields only
  | update {states : List (RecordedState ι)} {i : Nat} {state state' : RecordedState ι}
      (found : states[i]? = some state) (unset : state'.hash = state.hash) :
      Step held states (states.set i state')

def Reachable (held : Nat → Nat) : List (RecordedState ι) → Prop :=
  Relation.ReflTransGen (Step held) []

section Hashes

variable {held : Nat → Nat} {states states' : List (RecordedState ι)}

def Unset (held : Nat → Nat) (states : List (RecordedState ι)) : Prop :=
  ∀ i state, states[i]? = some state → state.hash = held i

theorem Unset.append (unset : Unset held states) {state : RecordedState ι}
    (new : state.hash = held states.length) : Unset held (states ++ [state]) := by
  intro i found isFound
  rw [getElem?_append] at isFound
  split at isFound
  · exact unset i found isFound
  · rename_i behind
    obtain ⟨first, rfl⟩ : i - states.length = 0 ∧ state = found := by
      simpa [getElem?_singleton, and_comm] using isFound
    rw [new]
    congr 1
    omega

theorem Unset.set (unset : Unset held states) {i : Nat} {state state' : RecordedState ι}
    (found : states[i]? = some state) (same : state'.hash = state.hash) : Unset held (states.set i state') := by
  intro j other isFound
  rw [getElem?_set] at isFound
  split at isFound
  · rename_i here
    subst here
    split at isFound
    · cases isFound
      rw [same]
      exact unset i state found
    · cases isFound
  · exact unset j other isFound

theorem Step.unset (step : Step held states states') (unset : Unset held states) : Unset held states' := by
  cases step with
  | construct kf instructions => exact unset.append rfl
  | @branch i state found =>
    have parent : Unset held (states.set i (state.branch (held states.length)).1) := unset.set found rfl
    exact parent.append (by rw [length_set]; rfl)
  | update found same => exact unset.set found same

theorem Reachable.unset (reachable : Reachable held states) : Unset held states := by
  induction reachable with
  | refl => exact fun i state found => by cases found
  | tail _ step ih => exact step.unset ih

end Hashes

/-! ## What is filed -/

def mergedPaths (json : Json) : Json := (json.get? "Merged_paths").getD .null

def pathField (program : Program ι) (b : RecordedState ι) : String × Json :=
  (String.ofList (Nat.toDigits 10 b.hash), pathJson program b.path)

structure RecordsEvery (program : Program ι) (partners : List (RecordedState ι)) (json : Json) :
    Prop where
  own : ∀ b ∈ partners, (mergedPaths json).get? (pathField program b).1 =
    some (pathField program b).2
  count : (mergedPaths json).fields.length = partners.length

section Filing

variable {program : Program ι} {a b : RecordedState ι} {json : Json}

theorem mergedPaths_pushVariable (isRecord : IsRecord json) (kind id : String) :
    mergedPaths (RecordedState.pushVariable kind json id) = mergedPaths json := by
  rw [mergedPaths, RecordedState.pushVariable, Json.get?_modify isRecord, if_neg (by decide)]
  rfl

theorem mergedPaths_pushObject (isRecord : IsRecord json) (mo : Memory.MemoryObject) :
    mergedPaths (RecordedState.pushObject program json mo) = mergedPaths json := by
  rw [RecordedState.pushObject]
  split
  · exact mergedPaths_pushVariable isRecord _ _
  · exact mergedPaths_pushVariable isRecord _ _
  · rfl

theorem mergedPaths_foldl {α : Type} {push : Json → α → Json} (keeps : ∀ json item, IsRecord json → IsRecord (push json item))
    (same : ∀ json item, IsRecord json → mergedPaths (push json item) = mergedPaths json) (items : List α) (isRecord : IsRecord json) :
    IsRecord (items.foldl push json) ∧ mergedPaths (items.foldl push json) = mergedPaths json := by
  induction items generalizing json with
  | nil => exact ⟨isRecord, rfl⟩
  | cons item items ih =>
    obtain ⟨after, unchanged⟩ := ih (keeps json item isRecord)
    exact ⟨after, unchanged.trans (same json item isRecord)⟩

theorem mergedPaths_preMerge (isRecord : IsRecord json) :
    IsRecord (preMerge program a json b) ∧ mergedPaths (preMerge program a json b) =
      (mergedPaths json).set (pathField program b).1 (pathField program b).2 := by
  obtain ⟨isLocals, locals⟩ := mergedPaths_foldl (fun _ _ isRecord => pushVariable_isRecord isRecord)
    (fun _ id isRecord => mergedPaths_pushVariable isRecord "Local_variables" id)
    (RecordedState.localVariables program a b) isRecord
  obtain ⟨objects, memories⟩ := mergedPaths_foldl (fun _ _ isRecord => pushObject_isRecord isRecord)
    (fun _ mo isRecord => mergedPaths_pushObject isRecord mo) (RecordedState.mutated a b) isLocals
  constructor
  · rw [preMerge]
    exact objects.modify
  · rw [← locals, ← memories]
    have filed := @Json.get?_modify _ "Merged_paths" "Merged_paths" objects fun paths =>
      paths.set (pathField program b).1 (pathField program b).2
    exact congrArg (fun filed => filed.getD Json.null) filed

theorem mergedPaths_gather (program : Program ι) (a : RecordedState ι) (partners : List (RecordedState ι)) :
    mergedPaths (gather program a partners) = Json.null.setAll (partners.map (pathField program)) := by
  have loop : ∀ (partners : List (RecordedState ι)) (json : Json), IsRecord json →
      mergedPaths (partners.foldl (preMerge program a) json) = (mergedPaths json).setAll (partners.map (pathField program)) := by
    intro partners
    induction partners with
    | nil => exact fun _ _ => rfl
    | cons b partners ih =>
      intro json isRecord
      obtain ⟨after, filed⟩ : IsRecord (preMerge program a json b) ∧ _ := mergedPaths_preMerge isRecord
      rw [foldl_cons, ih _ after, filed]
      rfl
  exact loop partners .null .null

theorem hashKey_injective {m n : Nat} (same : String.ofList (Nat.toDigits 10 m) = String.ofList (Nat.toDigits 10 n)) : m = n := by
  have digits := congrArg String.toList same
  rw [String.toList_ofList, String.toList_ofList] at digits
  calc m = Nat.ofDigitChars 10 (Nat.toDigits 10 m) 0 := Nat.ofDigitChars_ten_toDigits.symm
    _ = Nat.ofDigitChars 10 (Nat.toDigits 10 n) 0 := by rw [digits]
    _ = n := Nat.ofDigitChars_ten_toDigits

theorem recordsEvery_iff (program : Program ι) (a : RecordedState ι) (partners : List (RecordedState ι)) :
    RecordsEvery program partners (gather program a partners) ↔ (partners.map (·.hash)).Nodup := by
  have sameKeys : ((partners.map (pathField program)).map Prod.fst).Nodup ↔ (partners.map (·.hash)).Nodup := by
    have keys : (partners.map (pathField program)).map Prod.fst =
        (partners.map (·.hash)).map fun hash => String.ofList (Nat.toDigits 10 hash) := by
      rw [map_map, map_map]
      rfl
    rw [keys]
    exact nodup_map_iff fun _ _ same => hashKey_injective same
  rw [← sameKeys]
  have counted := Json.length_fields_setAll_iff (partners.map (pathField program))
  rw [length_map, ← mergedPaths_gather program a] at counted
  constructor
  · exact fun records => counted.mp records.count
  · intro unique
    refine ⟨fun b member => ?_, counted.mpr unique⟩
    rw [mergedPaths_gather]
    exact Json.get?_setAll_of_nodup unique (mem_map_of_mem member)

end Filing

/-- Whatever states a run has made, the comparisons of one with some others leave an entry
for each if and only if the memory of these happened to hold different words. -/
theorem partners_recorded_iff (program : Program ι) (held : Nat → Nat)
    {states : List (RecordedState ι)} (reachable : Reachable held states) (a : RecordedState ι)
    {places : List Nat} {partners : List (RecordedState ι)}
    (found : List.Forall₂ (fun i b => states[i]? = some b) places partners) :
    RecordsEvery program partners (gather program a partners) ↔ (places.map held).Nodup := by
  have words : partners.map (·.hash) = places.map held := by
    induction found with
    | nil => rfl
    | cons here _ ih => rw [map_cons, map_cons, ih, reachable.unset _ _ here]
  rw [recordsEvery_iff, words]

section Example

def branchedTwice (held : Nat → Nat) : List (RecordedState Nat) :=
  let start : RecordedState Nat := .ofFunction ⟨1, 1⟩ 0 (held 0)
  let (first, second) := start.branch (held 1)
  let (first, third) := first.branch (held 2)
  [first, second, third]

theorem branchedTwice_reachable (held : Nat → Nat) : Reachable held (branchedTwice held) := by
  have start : Step held ([] : List (RecordedState Nat)) [.ofFunction ⟨1, 1⟩ 0 (held 0)] := .construct [] ⟨1, 1⟩ 0
  exact ((Relation.ReflTransGen.single start).tail (.branch (i := 0) rfl)).tail (.branch (i := 0) rfl)

def branchedPartners (held : Nat → Nat) : RecordedState Nat × List (RecordedState Nat) :=
  match branchedTwice held with
  | first :: partners => (first, partners)
  | [] => (.ofFunction ⟨1, 1⟩ 0 0, [])

theorem partners_recorded_iff_sample :
    ([1, 2].map id).Nodup ∧ RecordsEvery sampleProgram (branchedPartners id).2
      (gather sampleProgram (branchedPartners id).1 (branchedPartners id).2) := by
  have different : ([1, 2].map id).Nodup := by decide
  exact ⟨different, (partners_recorded_iff sampleProgram id (branchedTwice_reachable id)
    (branchedPartners id).1 (.cons rfl (.cons rfl .nil))).mpr different⟩

/-- Where the memory is all zero, the second path replaces the first one. -/
theorem partner_overwritten :
    ¬ ∀ (held : Nat → Nat) (states : List (RecordedState Nat)), Reachable held states →
      ∀ (a : RecordedState Nat) (places : List Nat) (partners : List (RecordedState Nat)),
        places.Nodup → List.Forall₂ (fun i b => states[i]? = some b) places partners →
          RecordsEvery sampleProgram partners (gather sampleProgram a partners) := by
  intro claim
  have records := claim (fun _ => 0) _ (branchedTwice_reachable fun _ => 0)
    (branchedPartners fun _ => 0).1 [1, 2] (branchedPartners fun _ => 0).2 (by decide)
    (.cons rfl (.cons rfl .nil))
  have different := (recordsEvery_iff _ _ _).mp records
  revert different
  decide

end Example

end NeuroMerge.Classifier
