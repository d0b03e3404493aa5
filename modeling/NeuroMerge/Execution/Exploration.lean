import NeuroMerge.Execution.MergeProperties
import NeuroMerge.Execution.UnlimitedFork
import NeuroMerge.Foundations.Conservation

/-!
# Explored inputs

What runs of forks and merges make of the inputs that a state stands for: none is ever in two
states, and none is lost unless a fork with two sides is not afforded.
-/

namespace NeuroMerge.Execution

open List Symbolic Conservation
open ConstraintManager (Constraint Decides Hold Lasting Regular)
open Executor (Forked NotReplaying Unlimited createIsZero_denotes fork_forked)
open ExecutionState (conjunction_conjoins either_denotes merge mem_commonConstraints merge_run)
open Memory (Context Heap)

variable {ρ : Assignment} {o : Options} {options : ForkOptions} {solver : Solver} {fuel : Nat}
  {executor : Executor} {start s part : ExecutionState} {states : List ExecutionState}
  {e : Expr} {holds : Assignment → Bool} {afforded : Prop} {result : Executor × Option ExecutionState × Option ExecutionState}

instance (constraints : List Expr) : Decidable (Hold ρ constraints) :=
  inferInstanceAs (Decidable (∀ c ∈ constraints, c.eval ρ 1 = 1#1))

/-- An input counts for the states that it leads to. -/
def visits (ρ : Assignment) (s : ExecutionState) : Nat := if Hold ρ s.constraints then 1 else 0

theorem visits_le : visits ρ s ≤ 1 := by
  unfold visits
  split <;> simp

def sides (result : Executor × Option ExecutionState × Option ExecutionState) :
    List ExecutionState := result.2.1.toList ++ result.2.2.toList

/-! ## Forks within limits -/

/-- If both sides of a condition are possible, there can be a state for each. -/
def BothFit (options : ForkOptions) (executor : Executor) (s : ExecutionState) (holds : Assignment → Bool) : Prop :=
  (∃ ρ, Hold ρ s.constraints ∧ holds ρ = true) → (∃ ρ, Hold ρ s.constraints ∧ holds ρ = false) → Affords options executor s 1

/-- Forks on conditions with a meaning, states that end early (as those do that a fork leaves no
state of), and anything that leaves a path condition alone; and what is to keep all inputs. -/
inductive Explores (o : Options) (options : ForkOptions) (solver : Solver) :
    List ExecutionState → List ExecutionState → Prop → Prop where
  | execute {s s' : ExecutionState} (same : s'.constraints = s.constraints) : Explores o options solver [s] [s'] True
  | terminate {s : ExecutionState} : Explores o options solver [s] [] False
  | fork {executor : Executor} {s : ExecutionState} {fuel : Nat} {e : Expr} {isInternal : Bool}
      {holds : Assignment → Bool} {result : Executor × Option ExecutionState × Option ExecutionState}
      (settles : Settles o s.constraints e holds) (goesOn : sides result ≠ [])
      (returned : executor.fork o options solver fuel s e isInternal = .ok result) :
      Explores o options solver [s] (sides result) (BothFit options executor s holds)

abbrev Divided (o : Options) (old new : List ExecutionState) (afforded : Prop) : Prop :=
  Conserved visits (fun s => Sane o s.constraints) old new afforded

/-- Whether a fork is internal matters for a recorded path only. -/
theorem fork_internal {isInternal : Bool} (noPath : options.replayPath = none) :
    executor.fork o options solver fuel s e isInternal = executor.fork o options solver fuel s e true := by
  simp only [Executor.fork, Executor.restrict, noPath]

theorem Takes.divided {condition : Assignment → Prop} (takes : Takes o s condition part)
    (always_iff : (∀ ρ, Hold ρ s.constraints → condition ρ) ↔ afforded) : Divided o [s] [part] afforded := by
  have counts (ρ : Assignment) : visits ρ part ≤ visits ρ s ∧ (visits ρ part = visits ρ s ↔ (Hold ρ s.constraints → condition ρ)) := by
    by_cases hold : Hold ρ s.constraints <;> by_cases met : condition ρ <;>
      simp [visits, takes.hold_iff ρ, hold, met]
  refine ⟨by simpa using takes.sane, fun ρ => by simpa using (counts ρ).1, ?_⟩
  rw [← always_iff]
  exact forall_congr' fun ρ => by simpa using (counts ρ).2

theorem fork_divided (sound : solver.Sound) (sane : Sane o s.constraints)
    (settles : Settles o s.constraints e holds) (goesOn : sides result ≠ [])
    (returned : executor.fork o options solver fuel s e true = .ok result) :
    Divided o [s] (sides result) (BothFit options executor s holds) := by
  have outcome : ForkOutcome o options executor s (fun ρ => BitVec.ofBool (holds ρ)) result :=
    (fork_outcome sound sane settles).elim returned
  have isTrue (ρ : Assignment) := BitVector.ofBool_eq_one (holds ρ)
  have isFalse (ρ : Assignment) := BitVector.ofBool_eq_zero_iff (holds ρ)
  cases outcome with
  | whole always takes =>
    refine takes.divided (iff_of_true always ?_)
    rintro - ⟨ρ, hold, met⟩
    rw [(isTrue ρ).mp (always ρ hold)] at met
    cases met
  | @both trueState falseState _ _ affords takesTrue takesFalse =>
    have counts (ρ : Assignment) : visits ρ trueState + visits ρ falseState = visits ρ s := by
      have holdTrue : Hold ρ trueState.constraints ↔ Hold ρ s.constraints ∧ holds ρ = true := by
        rw [takesTrue.hold_iff ρ, isTrue]
        rfl
      have holdFalse : Hold ρ falseState.constraints ↔ Hold ρ s.constraints ∧ holds ρ = false := by
        rw [takesFalse.hold_iff ρ, isFalse]
        rfl
      by_cases hold : Hold ρ s.constraints <;> cases met : holds ρ <;>
        simp [visits, holdTrue, holdFalse, hold, met]
    exact .of_eq (by simpa [sides] using ⟨takesTrue.sane, takesFalse.sane⟩) (fun ρ => by simp [sides, counts ρ]) fun _ _ => affords
  | onlyTrue limited takes =>
    obtain ⟨⟨ρ₀, hold₀, bit₀⟩, notAffords⟩ := limited
    obtain ⟨ρ₁, hold₁⟩ := takes.sane.possible
    obtain ⟨hold₁, bit₁⟩ := (takes.hold_iff ρ₁).mp hold₁
    refine takes.divided (iff_of_false (fun always => ?_) fun affordable => notAffords ?_)
    · have both := (always ρ₀ hold₀).symm.trans bit₀
      contradiction
    · exact affordable ⟨ρ₁, hold₁, (isTrue ρ₁).mp bit₁⟩ ⟨ρ₀, hold₀, (isFalse ρ₀).mp bit₀⟩
  | onlyFalse limited takes =>
    obtain ⟨ρ₀, hold₀⟩ := takes.sane.possible
    obtain ⟨hold₀, bit₀⟩ := (takes.hold_iff ρ₀).mp hold₀
    refine takes.divided ⟨?_, fun affordable ρ hold => ?_⟩
    · rintro never ⟨ρ, hold, met⟩
      rw [(isFalse ρ).mp (never ρ hold)] at met
      cases met
    · rw [isFalse, ← Bool.not_eq_true]
      intro met
      exact (limited ⟨ρ, hold, (isTrue ρ).mpr met⟩).2 (affordable ⟨ρ, hold, met⟩ ⟨ρ₀, hold₀, (isFalse ρ₀).mp bit₀⟩)
  | neither _ _ => exact absurd rfl goesOn

/-- The states of a run have no input in common and none that the start has not; and they have
all of them if and only if none has ended early and every fork with two sides was affordable. -/
theorem explored_divided (sound : solver.Sound) (noPath : options.replayPath = none)
    (sane : Sane o start.constraints) (run : Run (Explores o options solver) start states afforded) :
    Divided o [start] states afforded := by
  refine run.conserved sane (fun _ => visits_le) fun step good _ => ?_
  cases step with
  | @execute s s' same =>
    exact .of_eq (by simpa [same] using good) (fun ρ => by simp [visits, same]) trivial
  | @terminate s =>
    obtain ⟨ρ, hold⟩ := (good s mem_cons_self).possible
    refine ⟨by simp, by simp, iff_of_false (fun all => ?_) id⟩
    simpa [visits, hold] using all ρ
  | fork settles goesOn returned =>
    rw [fork_internal noPath] at returned
    exact fork_divided sound (good _ mem_cons_self) settles goesOn returned

/-! ## Forks and merges -/

/-- A fork that nothing limits, a merge of two states, and anything that leaves a path
condition alone. -/
inductive Interleaves (o : Options) (solver : Solver) : List ExecutionState → List ExecutionState → Prop → Prop where
  | execute {s s' : ExecutionState} (same : s'.constraints = s.constraints) : Interleaves o solver [s] [s'] True
  | fork {options : ForkOptions} {executor : Executor} {s : ExecutionState} {fuel : Nat} {e : Expr}
      {isInternal : Bool} {result : Executor × Option ExecutionState × Option ExecutionState}
      (unlimited : Unlimited options s) (notReplaying : NotReplaying options isInternal)
      (boolean : e.width = 1) (sensible : Sensible o s.constraints e)
      (returned : executor.fork o options solver fuel s e isInternal = .ok result) :
      Interleaves o solver [s] (sides result) True
  | merge {context : Context} {fuel id id' : Nat} {le : Expr → Expr → Bool} {heap heap' : Heap} {a b merged : ExecutionState}
      (returned : merge o context fuel le heap id a b = .ok (some (heap', id', merged))) :
      Interleaves o solver [a, b] [merged] True

section

variable {constraints : List Expr} {a b merged : ExecutionState} (disabled : ¬ o.constArrayOpt = true)
include disabled

theorem path_iff : PathCondition o constraints ↔ ∀ c ∈ constraints, Constraint (.bounded o ρ) c := by
  constructor
  · exact fun path c member => ⟨(path c member).2 ρ fun enabled => absurd enabled disabled, (path c member).1⟩
  · exact fun typed c member => ⟨(typed c member).2, fun _ _ => (typed c member).1.mono (Guards.stricter_bounded disabled)⟩

theorem lasting_typed : Lasting o (Constraint (.bounded o ρ)) :=
  .typed Guards.allows_bounded (Guards.free_bounded disabled)

theorem addConstraint_path (path : PathCondition o s.constraints) (boolean : e.width = 1)
    (sensible : Sensible o s.constraints e) (returned : Executor.addConstraint o fuel s e = .ok part) :
    PathCondition o part.constraints := by
  rw [Executor.addConstraint.eq_def] at returned
  split at returned
  · obtain ⟨_, -, returned⟩ := bind_eq_ok_iff.mp returned
    cases returned
    exact path
  · obtain ⟨result, added, returned⟩ := bind_eq_ok_iff.mp returned
    cases returned
    rw [path_iff (ρ := fun _ _ => 0) disabled] at path ⊢
    exact ((lasting_typed disabled).addConstraint path ⟨sensible _ fun enabled => absurd enabled disabled, boolean⟩).elim added

theorem forked_path {executor' : Executor} {first second : Option ExecutionState}
    (forked : Forked o fuel executor s e executor' first second) (path : PathCondition o s.constraints)
    (boolean : e.width = 1) (sensible : Sensible o s.constraints e) :
    ∀ new ∈ sides (executor', first, second), PathCondition o new.constraints := by
  intro new member
  cases forked with
  | isTrue => rwa [mem_singleton.mp member]
  | isFalse => rwa [mem_singleton.mp member]
  | both _ negated takesTrue takesFalse =>
    rcases mem_pair.mp member with rfl | rfl
    · exact addConstraint_path (s := s.branch.1) disabled path boolean sensible takesTrue
    · have negates (ρ : Assignment) := createIsZero_denotes boolean negated (sensible ρ fun enabled => absurd enabled disabled)
      exact addConstraint_path (s := s.branch.2) disabled path (negates fun _ _ => 0).width (fun ρ _ => (negates ρ).wellFormed) takesFalse

theorem forked_visits {executor' : Executor} {first second : Option ExecutionState}
    (forked : Forked o fuel executor s e executor' first second) (path : PathCondition o s.constraints)
    (boolean : e.width = 1) (sensible : Sensible o s.constraints e) (ρ : Assignment) :
    total visits ρ (sides (executor', first, second)) = visits ρ s := by
  have regular : Regular o ρ (e :: s.constraints) := fun enabled => absurd enabled disabled
  obtain ⟨sideTrue, sideFalse⟩ := forked.sides path boolean sensible
  have counts (side : Option ExecutionState) : total visits ρ side.toList = if ∃ s ∈ side, Hold ρ s.constraints then 1 else 0 := by
    cases side <;> simp [visits]
  rw [sides, total_append, counts, counts]
  simp only [sideTrue ρ regular, sideFalse ρ regular, visits]
  generalize e.eval ρ 1 = bit
  by_cases hold : Hold ρ s.constraints
  · simp only [hold, true_and]
    revert bit
    decide
  · simp [hold]

theorem merge_hold_iff {context : Context} {id id' : Nat} {le : Expr → Expr → Bool} {heap heap' : Heap}
    (pathA : PathCondition o a.constraints) (pathB : PathCondition o b.constraints)
    (returned : merge o context fuel le heap id a b = .ok (some (heap', id', merged))) :
    PathCondition o merged.constraints ∧ ∀ ρ, Hold ρ merged.constraints ↔ Hold ρ a.constraints ∨ Hold ρ b.constraints := by
  obtain ⟨run⟩ := merge_run returned
  have step (ρ : Assignment) : (∀ c ∈ run.result, Constraint (.bounded o ρ) c) ∧
      (Hold ρ run.result ↔ Hold ρ a.constraints ∨ Hold ρ b.constraints) := by
    have typedA := (path_iff (ρ := ρ) disabled).mp pathA
    have typedB := (path_iff (ρ := ρ) disabled).mp pathB
    have common (c) (member : c ∈ ExecutionState.commonConstraints le a b) : Constraint (.bounded o ρ) c :=
      typedA c (mem_commonConstraints.mp member).1
    have inSuffix {s : ExecutionState} {c : Expr} (member : c ∈ ExecutionState.suffix le a b s) :
        c ∈ s.constraints := ExecutionState.mem_exprSet.mp (mem_filter.mp member).1
    have conjoinsA := (conjunction_conjoins (ρ := ρ) fun c member => typedA c (inSuffix member)).elim run.conjoinsA
    have conjoinsB := (conjunction_conjoins (ρ := ρ) fun c member => typedB c (inSuffix member)).elim run.conjoinsB
    obtain ⟨typed, holds⟩ := (either_denotes conjoinsA conjoinsB).elim run.disjoins
    have lasting := lasting_typed (ρ := ρ) disabled
    obtain ⟨decides, kept⟩ := (Decides.nil.addConstraints lasting Guards.allows_bounded
      Guards.extensional_bounded common common (by simp)).elim run.keeps
    obtain ⟨decided, result⟩ := (decides.addConstraint lasting Guards.allows_bounded
      Guards.extensional_bounded kept typed typed).elim run.adds
    refine ⟨result, ?_⟩
    rw [decided.hold_iff, true_and, holds, ExecutionState.hold_iff (s := a) fun c member => (mem_commonConstraints.mp member).1,
      ExecutionState.hold_iff (s := b) fun c member => (mem_commonConstraints.mp member).2]
    exact and_or_left
  rw [run.isMerged]
  exact ⟨(path_iff disabled).mpr (step fun _ _ => 0).1, fun ρ => (step ρ).2⟩

/-- However forks and merges follow each other, an input of the start is always in exactly
one state, and another one in none. -/
theorem interleaved_visits (sound : solver.Sound) (path : PathCondition o start.constraints)
    (run : Run (Interleaves o solver) start states afforded) (ρ : Assignment) : total visits ρ states = visits ρ start := by
  have kept : afforded := run.holds fun step => by
    cases step <;> trivial
  have conserved : Conserved visits (fun s => PathCondition o s.constraints) [start] states afforded := by
    refine run.conserved path (fun _ => visits_le) fun step good once => ?_
    cases step with
    | @execute s s' same =>
      exact .of_eq (by simpa [same] using good) (fun ρ => by simp [visits, same]) trivial
    | @fork _ _ s _ _ _ result unlimited notReplaying boolean sensible returned =>
      have pathS : PathCondition o s.constraints := good s mem_cons_self
      have forked := fork_forked sound unlimited notReplaying pathS boolean sensible returned
      exact .of_eq (forked_path disabled forked pathS boolean sensible)
        (fun ρ => by simpa using forked_visits disabled forked pathS boolean sensible ρ) trivial
    | @merge _ _ _ _ _ _ _ a b merged returned =>
      obtain ⟨pathMerged, holds⟩ := merge_hold_iff disabled (good a (by simp)) (good b (by simp)) returned
      refine .of_eq (by simpa using pathMerged) (fun ρ => ?_) trivial
      have most := once ρ
      simp only [total_cons, total_nil, visits, holds ρ] at most ⊢
      by_cases holdA : Hold ρ a.constraints <;> by_cases holdB : Hold ρ b.constraints <;>
        simp [holdA, holdB] at most ⊢
  simpa using conserved.all_iff.mpr kept ρ

end

section Example

open ConstraintManager (sampleCondition sampleCondition_wellFormed)
open Executor (idealSolver idealSolver_sound sampleExecutor sampleOptions sampleState sampleState_evaluates)

def sampleSide (cowKey : BitVec 32) (condition : Expr) : ExecutionState := ⟨0, 0, [], 1, false, ⟨cowKey, []⟩, [condition], []⟩

def sampleSides : List ExecutionState := [sampleSide 2 sampleCondition, sampleSide 2 (.cmp .eq (.constant (.alloc 0 1)) sampleCondition)]

theorem sampleState_forks : ∃ result, sampleExecutor.fork ⟨false, true⟩ sampleOptions idealSolver 30 sampleState sampleCondition true =
    .ok result ∧ sides result = sampleSides := by
  refine ⟨⟨{ sampleExecutor with forks := 1 }, some (sampleSide 2 _), some (sampleSide 2 _)⟩, ?_, rfl⟩
  rw [Executor.fork, show Executor.concretize ⟨false, true⟩ sampleOptions idealSolver 30 sampleState sampleCondition =
    pure (sampleState, sampleCondition) from rfl, pure_bind]
  dsimp only
  rw [show sampleOptions.simplifyExprs = false from rfl, sampleState_evaluates, pure_bind]
  rfl

theorem sampleSides_merge : ∃ heap id merged, merge ⟨false, true⟩ ⟨true, 64⟩ 30 (fun _ _ => true) [] 0
    (sampleSide 2 sampleCondition) (sampleSide 2 (.cmp .eq (.constant (.alloc 0 1)) sampleCondition)) = .ok (some (heap, id, merged)) := by
  unfold ExecutionState.merge
  simp only [sampleSide, ExecutionState.exprSet_singleton]
  exact ⟨_, _, _, rfl⟩

theorem visits_sampleState : visits ρ sampleState = 1 := by
  simp [visits, Hold, sampleState]

/-- Both sides of a fork are live. -/
theorem explored_divided_sample : ∃ afforded, Run (Explores ⟨false, true⟩ sampleOptions idealSolver) sampleState sampleSides afforded ∧
    ∀ ρ, total visits ρ sampleSides = 1 := by
  obtain ⟨result, returned, both⟩ := sampleState_forks
  have bits : ∀ bit : BitVec 1, bit = BitVec.ofBool (bit = 1#1) := by decide
  have settles : Settles ⟨false, true⟩ sampleState.constraints sampleCondition fun ρ => sampleCondition.eval ρ 1 = 1#1 :=
    fun ρ _ => ⟨sampleCondition_wellFormed, rfl, bits _⟩
  have run : Run (Explores ⟨false, true⟩ sampleOptions idealSolver) sampleState (sides result ++ []) _ :=
    .step .start (.fork settles (by rw [both]; exact cons_ne_nil _ _) returned)
  rw [append_nil, both] at run
  have affords : Affords sampleOptions sampleExecutor sampleState 1 := ⟨rfl, rfl, rfl, rfl, rfl, by simp [sampleOptions], .inl rfl⟩
  have all := (explored_divided idealSolver_sound rfl Sane.nil run).all_iff.mpr ⟨trivial, fun _ _ => affords⟩
  exact ⟨_, run, fun ρ => (all ρ).trans (by simp [visits_sampleState])⟩

/-- A fork, and the merge of its sides. -/
theorem interleaved_visits_sample : ∃ merged,
    Run (Interleaves ⟨false, true⟩ idealSolver) sampleState [merged] ((True ∧ True) ∧ True) ∧ ∀ ρ, total visits ρ [merged] = 1 := by
  obtain ⟨result, returned, both⟩ := sampleState_forks
  obtain ⟨heap, id, merged, combined⟩ := sampleSides_merge
  have forked : Run (Interleaves ⟨false, true⟩ idealSolver) sampleState (sides result ++ []) _ :=
    .step .start (.fork ⟨rfl, rfl, rfl, rfl, rfl, rfl⟩ ⟨.inl rfl, rfl⟩ rfl (fun _ _ => sampleCondition_wellFormed) returned)
  rw [both] at forked
  have run : Run (Interleaves ⟨false, true⟩ idealSolver) sampleState [merged] _ := .step forked (.merge combined)
  refine ⟨merged, run, fun ρ => ?_⟩
  rw [interleaved_visits (by decide) idealSolver_sound Sane.nil.path run ρ, visits_sampleState]

end Example

end NeuroMerge.Execution
