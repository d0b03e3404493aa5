import NeuroMerge.Execution.UnlimitedFork

/-!
# Forks under any limits

Whatever limits there are, the states that a fork leaves are as they were, but for the path
condition, which is at least that of the side that they are on.
-/

namespace NeuroMerge.Execution

open Symbolic
open Symbolic.ConstraintManager (Hold)

variable {ρ : Assignment} {o : Options} {options : ForkOptions} {solver : Solver} {fuel w : Nat}
  {e : Expr} {executor : Executor} {state side part last : ExecutionState}
  {condition further : Assignment → Prop} {holds : Assignment → Bool} {value : Assignment → BitVec w}

/-- A state that goes on with some of those assignments of another one that meet the
condition. -/
structure Portion (o : Options) (state : ExecutionState) (condition : Assignment → Prop)
    (part : ExecutionState) : Prop where
  sane : Sane o part.constraints
  within : ∀ ρ, Hold ρ part.constraints → Hold ρ state.constraints ∧ condition ρ
  objects : part.addressSpace.objects = state.addressSpace.objects
  stack : part.stack = state.stack
  prevPC : part.prevPC = state.prevPC

namespace Portion

theorem self (sane : Sane o state.constraints)
    (always : ∀ ρ, Hold ρ state.constraints → condition ρ) : Portion o state condition state where
  sane := sane
  within ρ hold := ⟨hold, always ρ hold⟩
  objects := rfl
  stack := rfl
  prevPC := rfl

theorem trans (first : Portion o state condition part) (second : Portion o part further last) :
    Portion o state (fun ρ => condition ρ ∧ further ρ) last where
  sane := second.sane
  within ρ hold :=
    have ⟨holdPart, furtherHolds⟩ := second.within ρ hold
    have ⟨holdState, conditionHolds⟩ := first.within ρ holdPart
    ⟨holdState, conditionHolds, furtherHolds⟩
  objects := second.objects.trans first.objects
  stack := second.stack.trans first.stack
  prevPC := second.prevPC.trans first.prevPC

section

variable (on : Portion o state condition part)
include on

theorem weaken (implies : ∀ ρ, Hold ρ state.constraints → condition ρ → further ρ) : Portion o state further part :=
  { on with
    within := fun ρ hold =>
      have ⟨holdState, conditionHolds⟩ := on.within ρ hold
      ⟨holdState, implies ρ holdState conditionHolds⟩ }

theorem hold (hold : Hold ρ part.constraints) : Hold ρ state.constraints :=
  (on.within ρ hold).1

theorem meets (hold : Hold ρ part.constraints) : condition ρ :=
  (on.within ρ hold).2

theorem means (means : Means o state.constraints e value) : Means o part.constraints e value :=
  fun ρ hold => means ρ (on.hold hold)

end

end Portion

theorem Takes.toPortion (takes : Takes o side condition part)
    (same : ∀ ρ, condition ρ → further ρ) (constraints : side.constraints = state.constraints)
    (objects : side.addressSpace.objects = state.addressSpace.objects)
    (stack : side.stack = state.stack) (prevPC : side.prevPC = state.prevPC) : Portion o state further part := by
  obtain ⟨sane, hold_iff, rest⟩ := takes
  refine ⟨sane, fun ρ hold => ?_, ?_, ?_, ?_⟩
  · rw [← constraints]
    exact ((hold_iff ρ).mp hold).imp_right (same ρ)
  · rw [rest, ← objects]
  · rw [rest, ← stack]
  · rw [rest, ← prevPC]

/-- The fork raises nothing else: while a test is replayed there is nothing to fork on. -/
def Replays (options : ForkOptions) (fault : Fault) : Prop :=
  fault = .outOfFuel ∨ options.replayKTest = true

structure ForkPortions (o : Options) (executor : Executor) (state : ExecutionState)
    (holds : Assignment → Bool)
    (result : Executor × Option ExecutionState × Option ExecutionState) : Prop where
  heap : result.1.heap = executor.heap
  whenTrue : ∀ part ∈ result.2.1, Portion o state (fun ρ => holds ρ = true) part
  whenFalse : ∀ part ∈ result.2.2, Portion o state (fun ρ => holds ρ = false) part

theorem fork_portions (sound : solver.Sound) (sane : Sane o state.constraints) (settles : Settles o state.constraints e holds) :
    Satisfies (Replays options) (ForkPortions o executor state holds) (Executor.fork o options solver fuel executor state e true) := by
  apply ((fork_outcome sound sane settles).weaken fun fault => Or.imp_right And.left).mono
  intro result outcome
  have isTrue (ρ : Assignment) := (BitVector.ofBool_eq_one (holds ρ)).mp
  have isFalse (ρ : Assignment) := (BitVector.ofBool_eq_zero_iff (holds ρ)).mp
  cases outcome with
  | whole _ takes | onlyTrue _ takes =>
    refine ⟨rfl, ?_, nofun⟩
    rintro _ ⟨⟩
    exact takes.toPortion isTrue rfl rfl rfl rfl
  | both _ _ _ takesTrue takesFalse =>
    refine ⟨rfl, ?_, ?_⟩
    · rintro _ ⟨⟩
      exact takesTrue.toPortion isTrue rfl rfl rfl rfl
    · rintro _ ⟨⟩
      exact takesFalse.toPortion isFalse rfl rfl rfl rfl
  | onlyFalse _ takes =>
    refine ⟨rfl, nofun, ?_⟩
    rintro _ ⟨⟩
    exact takes.toPortion isFalse rfl rfl rfl rfl
  | neither _ heap => exact ⟨heap, nofun, nofun⟩

end NeuroMerge.Execution
