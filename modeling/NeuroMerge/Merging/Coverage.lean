import NeuroMerge.Merging.Partition

/-!
# Coverage along a run

What `StatsTracker` records in the states while the executor forks and merges them. A merge
leaves the coverage of both states alone, and the absorbed one ends without a test case.
-/

namespace NeuroMerge.Merging

open Config (start)

variable {σ τ : Type} {env : Env σ τ}

/-! ## Coverage of a state -/

/-- The fields of `ExecutionState` about coverage: whether a new instruction was covered in
this state, and which lines in which files are covered by this state. -/
structure Coverage where
  coveredNew : Bool
  coveredLines : Finset (String × Nat)
  deriving DecidableEq

namespace Coverage

structure Within (one other : Coverage) : Prop where
  coveredNew : one.coveredNew = true → other.coveredNew = true
  coveredLines : one.coveredLines ⊆ other.coveredLines

def empty : Coverage := ⟨false, ∅⟩

def union (one other : Coverage) : Coverage :=
  ⟨one.coveredNew || other.coveredNew, one.coveredLines ∪ other.coveredLines⟩

theorem Within.refl (one : Coverage) : one.Within one := ⟨id, subset_rfl⟩

theorem Within.trans {first second third : Coverage} (left : first.Within second) (right : second.Within third) : first.Within third :=
  ⟨right.coveredNew ∘ left.coveredNew, left.coveredLines.trans right.coveredLines⟩

theorem within_union_left (one other : Coverage) : one.Within (one.union other) :=
  ⟨fun new => by simp [union, new], Finset.subset_union_left⟩

theorem within_union_right (one other : Coverage) : other.Within (one.union other) :=
  ⟨fun new => by simp [union, new], Finset.subset_union_right⟩

theorem union_eq_left {one other : Coverage} (within : other.Within one) : one.union other = one := by
  cases one with
  | mk coveredNew coveredLines =>
    rw [union, Finset.union_eq_left.mpr within.coveredLines]
    cases new : other.coveredNew with
    | false => rw [Bool.or_false]
    | true =>
      rw [Bool.or_true]
      exact congrArg (Coverage.mk · coveredLines) (within.coveredNew new).symm

end Coverage

/-- The condition of `terminateStateEarly` and `terminateStateOnExit` for a test case. -/
def producesTest (onlyOutputStatesCoveringNew alwaysOutputSeeds seeded : Bool)
    (coverage : Coverage) : Bool :=
  !onlyOutputStatesCoveringNew || coverage.coveredNew || (alwaysOutputSeeds && seeded)

/-! ## The tracker -/

structure InstructionInfo where
  id : Nat
  file : String
  line : Nat

/-- What happens in a run, with what the tracker is told. -/
inductive CoverageStep where
  | event (event : Event)
  /-- `coverable` is whether the function is tracked and the instruction can be covered. -/
  | stepInstruction (state : StateId) (info : InstructionInfo) (coverable : Bool)
  | markBranchVisited (id : Nat) (visitedTrue visitedFalse : Option StateId)
  /-- The swap of `Executor::fork` when no seed is left for the current state. -/
  | swapInfo (trueState falseState : StateId)

/-- The statistics that are not zero, and the coverage of the states. -/
structure Tracker where
  coveredInstructions : Finset Nat
  trueBranches : Finset Nat
  falseBranches : Finset Nat
  coverage : StateId → Coverage

variable {one other : Tracker}

namespace Tracker

variable (absorb : Coverage → Coverage → Coverage) (tracker : Tracker)

def set (state : StateId) (coverage : Coverage) : Tracker :=
  { tracker with coverage := Function.update tracker.coverage state coverage }

def stepInstruction (state : StateId) (info : InstructionInfo) (coverable : Bool) : Tracker :=
  if coverable ∧ info.id ∉ tracker.coveredInstructions then
    { tracker.set state ⟨true, insert (info.file, info.line) (tracker.coverage state).coveredLines⟩
      with coveredInstructions := insert info.id tracker.coveredInstructions }
  else tracker

def setCoveredNew : Option StateId → Tracker
  | some state => tracker.set state { tracker.coverage state with coveredNew := true }
  | none => tracker

def markTrueBranch (id : Nat) (visited : Option StateId) : Tracker :=
  if visited.isSome ∧ id ∉ tracker.trueBranches then
    { tracker.setCoveredNew visited with trueBranches := insert id tracker.trueBranches }
  else tracker

def markFalseBranch (id : Nat) (visited : Option StateId) : Tracker :=
  if visited.isSome ∧ id ∉ tracker.falseBranches then
    { tracker.setCoveredNew visited with falseBranches := insert id tracker.falseBranches }
  else tracker

def markBranchVisited (id : Nat) (visitedTrue visitedFalse : Option StateId) : Tracker :=
  (tracker.markTrueBranch id visitedTrue).markFalseBranch id visitedFalse

/-- What is left in the state that another one is merged into is up to `absorb`. The copy that
`ExecutionState::branch` makes has no coverage. -/
def step : CoverageStep → Tracker
  | .event (.forked _ child) => tracker.set child .empty
  | .event (.absorbed target source) =>
    tracker.set target (absorb (tracker.coverage target) (tracker.coverage source))
  | .event _ => tracker
  | .stepInstruction state info coverable => tracker.stepInstruction state info coverable
  | .markBranchVisited id visitedTrue visitedFalse =>
    tracker.markBranchVisited id visitedTrue visitedFalse
  | .swapInfo trueState falseState =>
    (tracker.set trueState (tracker.coverage falseState)).set falseState
      (tracker.coverage trueState)

/-- `ExecutionState::merge` does not change the coverage. -/
def actual (steps : List CoverageStep) : Tracker :=
  steps.foldl (step fun target _ => target) tracker

def covered (steps : List CoverageStep) : Tracker := steps.foldl (step Coverage.union) tracker

/-! ## Nothing more and nothing less -/

variable {tracker}

theorem set_coverage_self (state : StateId) (coverage : Coverage) :
    (tracker.set state coverage).coverage state = coverage := Function.update_self ..

theorem actual_snoc (steps : List CoverageStep) (last : CoverageStep) :
    tracker.actual (steps ++ [last]) = step (fun target _ => target) (tracker.actual steps) last := by
  rw [actual, List.foldl_concat]
  rfl

theorem covered_snoc (steps : List CoverageStep) (last : CoverageStep) :
    tracker.covered (steps ++ [last]) = step Coverage.union (tracker.covered steps) last := by
  rw [covered, List.foldl_concat]
  rfl

/-- The tracker knows the same statistics, and of each state at most as much. -/
structure Behind (one other : Tracker) : Prop where
  coveredInstructions : one.coveredInstructions = other.coveredInstructions
  trueBranches : one.trueBranches = other.trueBranches
  falseBranches : one.falseBranches = other.falseBranches
  coverage : ∀ state, (one.coverage state).Within (other.coverage state)

section

variable (behind : Behind one other)
include behind

theorem Behind.set {state : StateId} {coverage coverage' : Coverage} (within : coverage.Within coverage') :
    Behind (one.set state coverage) (other.set state coverage') := by
  refine ⟨behind.coveredInstructions, behind.trueBranches, behind.falseBranches, fun at' => ?_⟩
  by_cases same : at' = state
  · subst same
    simpa [Tracker.set] using within
  · simpa [Tracker.set, same] using behind.coverage at'

theorem Behind.setCoveredNew (visited : Option StateId) : Behind (one.setCoveredNew visited) (other.setCoveredNew visited) := by
  cases visited with
  | none => exact behind
  | some state => exact behind.set ⟨fun _ => rfl, (behind.coverage state).coveredLines⟩

theorem Behind.stepInstruction (state : StateId) (info : InstructionInfo) (coverable : Bool) :
    Behind (one.stepInstruction state info coverable) (other.stepInstruction state info coverable) := by
  rw [Tracker.stepInstruction, Tracker.stepInstruction, behind.coveredInstructions]
  split
  · have lines : Coverage.Within ⟨true, insert (info.file, info.line) (one.coverage state).coveredLines⟩
        ⟨true, insert (info.file, info.line) (other.coverage state).coveredLines⟩ :=
      ⟨id, Finset.insert_subset_insert _ (behind.coverage state).coveredLines⟩
    have after : Behind (one.set state _) (other.set state _) := behind.set lines
    exact ⟨rfl, after.trueBranches, after.falseBranches, after.coverage⟩
  · exact behind

theorem Behind.markTrueBranch (id : Nat) (visited : Option StateId) :
    Behind (one.markTrueBranch id visited) (other.markTrueBranch id visited) := by
  rw [Tracker.markTrueBranch, Tracker.markTrueBranch, behind.trueBranches]
  split
  · have marked := behind.setCoveredNew visited
    exact ⟨marked.coveredInstructions, rfl, marked.falseBranches, marked.coverage⟩
  · exact behind

theorem Behind.markFalseBranch (id : Nat) (visited : Option StateId) :
    Behind (one.markFalseBranch id visited) (other.markFalseBranch id visited) := by
  rw [Tracker.markFalseBranch, Tracker.markFalseBranch, behind.falseBranches]
  split
  · have marked := behind.setCoveredNew visited
    exact ⟨marked.coveredInstructions, marked.trueBranches, rfl, marked.coverage⟩
  · exact behind

theorem Behind.step {absorb absorb' : Coverage → Coverage → Coverage}
    (absorbs : ∀ target source, (absorb (one.coverage target) (one.coverage source)).Within
      (absorb' (other.coverage target) (other.coverage source))) (next : CoverageStep) :
    Behind (one.step absorb next) (other.step absorb' next) := by
  cases next with
  | event event =>
    cases event with
    | forked parent child => exact behind.set (.refl _)
    | absorbed target source => exact behind.set (absorbs target source)
    | _ => exact behind
  | stepInstruction state info coverable => exact behind.stepInstruction state info coverable
  | markBranchVisited id visitedTrue visitedFalse =>
    exact (behind.markTrueBranch id visitedTrue).markFalseBranch id visitedFalse
  | swapInfo trueState falseState =>
    exact (behind.set (behind.coverage falseState)).set (behind.coverage trueState)

end

theorem actual_behind (steps : List CoverageStep) : Behind (tracker.actual steps) (tracker.covered steps) := by
  induction steps using List.reverseRecOn with
  | nil => exact ⟨rfl, rfl, rfl, fun _ => .refl _⟩
  | append_singleton steps last ih =>
    rw [actual_snoc, covered_snoc]
    refine ih.step (fun target source => ?_) last
    exact (ih.coverage target).trans (Coverage.within_union_left _ _)

end Tracker

/-! ## Runs -/

/-- A run with what the tracker is told on its way. -/
structure CoverageRun (env : Env σ τ) where
  initial : List (ExecutionState σ)
  memory : τ
  choices : List (Choice σ τ)
  final : Config σ τ
  ran : (start initial memory).run env choices = .ok final
  /-- What the states that are there at the start have covered. -/
  tracker : Tracker
  steps : List CoverageStep
  logged : steps.filterMap (fun | .event event => some event | _ => none) = final.log

/-- Every state has what was covered by it and by the states that were merged into it, and
produces a test case if there is something new. -/
structure Carries (covered actual : Tracker) : Prop where
  coverage : ∀ state, (covered.coverage state).Within (actual.coverage state)
  test : ∀ alwaysOutputSeeds seeded state, (covered.coverage state).coveredNew = true →
    producesTest true alwaysOutputSeeds seeded (actual.coverage state) = true

theorem carries_iff {covered actual : Tracker} : Carries covered actual ↔
    ∀ state, (covered.coverage state).Within (actual.coverage state) := by
  constructor
  · exact Carries.coverage
  · intro within
    refine ⟨within, fun alwaysOutputSeeds seeded state new => ?_⟩
    simp [producesTest, (within state).coveredNew new]

def Agrees (tracker : Tracker) (before : List CoverageStep) (target source : StateId) : Prop :=
  ((tracker.actual before).coverage source).Within ((tracker.actual before).coverage target)

theorem covered_eq_actual {tracker : Tracker} {steps : List CoverageStep}
    (agrees : ∀ before target source,
      before ++ [.event (.absorbed target source)] <+: steps → Agrees tracker before target source) :
    tracker.covered steps = tracker.actual steps := by
  induction steps using List.reverseRecOn with
  | nil => rfl
  | append_singleton steps last ih =>
    have before := ih fun before target source isFront =>
      agrees before target source (isFront.trans (List.prefix_append _ _))
    rw [Tracker.covered_snoc, Tracker.actual_snoc, before]
    cases last with
    | event event =>
      cases event with
      | absorbed target source =>
        have within := agrees steps target source (List.prefix_refl _)
        rw [Tracker.step, Tracker.step, Coverage.union_eq_left within]
      | _ => rfl
    | _ => rfl

/-- Along a run coverage is carried on in all states exactly if no state is ever merged into
one that does not have its coverage anyway. -/
theorem coverage_carried_iff (run : CoverageRun env) :
    (∀ steps, steps <+: run.steps →
        Carries (run.tracker.covered steps) (run.tracker.actual steps)) ↔
      ∀ before target source, before ++ [.event (.absorbed target source)] <+: run.steps →
        Agrees run.tracker before target source := by
  constructor
  · intro carries before target source isFront
    have after := (carries _ isFront).coverage target
    rw [Tracker.covered_snoc, Tracker.actual_snoc, Tracker.step, Tracker.step,
      Tracker.set_coverage_self, Tracker.set_coverage_self] at after
    exact (((Tracker.actual_behind before).coverage source).trans
      (Coverage.within_union_right _ _)).trans after
  · intro agrees steps isFront
    rw [covered_eq_actual fun before target source within =>
      agrees before target source (within.trans isFront)]
    exact carries_iff.mpr fun state => .refl _

section Example

def beforeBlock : List (ExecutionState Unit) :=
  [{ pc := 20, prevPC := 20, steppedInstructions := 0, openMergeStack := [], contents := () }]

def rejoining : List (Choice Unit Unit) :=
  [⟨0, [.openMerge 0], false, []⟩,
    ⟨0, [.branch 0, .assign 0 38 () (), .assign 1 38 () ()], false, []⟩,
    ⟨1, [.closeMerge 1 38], false, []⟩, ⟨0, [.closeMerge 0 38], false, []⟩]

def untilMerge : List CoverageStep :=
  [.event (.executed 0), .event .updated, .event (.executed 0), .event (.forked 0 1),
    .event .updated, .stepInstruction 1 ⟨7, "main.c", 3⟩ true, .event (.executed 1),
    .event (.closed 1 0 38), .event .updated, .event (.executed 0), .event (.closed 0 0 38),
    .event (.continued 1), .event (.continued 0), .event (.absorbed 0 1)]

def rejoiningSteps : List CoverageStep := untilMerge ++ [.event (.deleted 1), .event .updated]

def uncovered : Tracker := ⟨∅, ∅, ∅, fun _ => .empty⟩

theorem rejoining_runs : ∃ run : CoverageRun nestedBranches, run.tracker = uncovered ∧ run.steps = rejoiningSteps := by
  obtain ⟨final, ran, logged⟩ := exists_of_checkRun nestedBranches (start beforeBlock ()) rejoining
    (fun c => decide (rejoiningSteps.filterMap (fun | .event event => some event | _ => none) = c.log)) (by decide)
  exact ⟨⟨beforeBlock, (), rejoining, final, ran, uncovered, rejoiningSteps, of_decide_eq_true logged⟩, rfl, rfl⟩

/-- State 1 has covered a line, state 0 has covered nothing, and state 1 is merged into it. -/
theorem merge_loses_coverage :
    ¬ ∀ run : CoverageRun nestedBranches, ∀ steps, steps <+: run.steps →
      Carries (run.tracker.covered steps) (run.tracker.actual steps) := by
  intro carries
  obtain ⟨run, isUncovered, isRejoining⟩ := rejoining_runs
  have isFront : untilMerge <+: run.steps := by
    rw [isRejoining]
    exact List.prefix_append _ _
  have after := carries run untilMerge isFront
  rw [isUncovered] at after
  have survives : ((uncovered.actual untilMerge).coverage 0).coveredNew = true :=
    (after.coverage 0).coveredNew (by decide)
  exact absurd survives (by decide)

end Example

end NeuroMerge.Merging
