import NeuroMerge.Execution.Queries

/-!
# Forks that nothing limits

Every fork leaves its state in parts: one in which the condition is true and one in which
it is false, if there is any assignment for them. Nothing but the path condition differs
between the parts.
-/

namespace NeuroMerge.Execution

open Symbolic
open Symbolic.ConstraintManager (Hold)
open Executor (Unlimited NotReplaying)

variable {ρ : Assignment} {o : Options} {options : ForkOptions} {solver : Solver} {fuel w : Nat}
  {e : Expr} {executor : Executor} {state part last : ExecutionState}
  {condition further : Assignment → Prop} {holds : Assignment → Bool} {value : Assignment → BitVec w}

structure Part (o : Options) (state : ExecutionState) (condition : Assignment → Prop)
    (part : ExecutionState) : Prop where
  sane : Sane o part.constraints
  hold_iff : ∀ ρ, Hold ρ part.constraints ↔ Hold ρ state.constraints ∧ condition ρ
  objects : part.addressSpace.objects = state.addressSpace.objects
  stack : part.stack = state.stack
  forkDisabled : part.forkDisabled = state.forkDisabled

namespace Part

theorem self (sane : Sane o state.constraints) (always : ∀ ρ, Hold ρ state.constraints → condition ρ) : Part o state condition state where
  sane := sane
  hold_iff ρ := ⟨fun hold => ⟨hold, always ρ hold⟩, And.left⟩
  objects := rfl
  stack := rfl
  forkDisabled := rfl

theorem trans (first : Part o state condition part) (second : Part o part further last) :
    Part o state (fun ρ => condition ρ ∧ further ρ) last where
  sane := second.sane
  hold_iff ρ := by rw [second.hold_iff, first.hold_iff, and_assoc]
  objects := second.objects.trans first.objects
  stack := second.stack.trans first.stack
  forkDisabled := second.forkDisabled.trans first.forkDisabled

section

variable (divides : Part o state condition part)
include divides

theorem congr (same : ∀ ρ, Hold ρ state.constraints → (condition ρ ↔ further ρ)) : Part o state further part :=
  { divides with
    hold_iff := fun ρ => (divides.hold_iff ρ).trans (and_congr_right (same ρ)) }

theorem hold (hold : Hold ρ part.constraints) : Hold ρ state.constraints :=
  ((divides.hold_iff ρ).mp hold).1

theorem meets (hold : Hold ρ part.constraints) : condition ρ :=
  ((divides.hold_iff ρ).mp hold).2

theorem means (means : Means o state.constraints e value) : Means o part.constraints e value :=
  fun ρ hold => means ρ (divides.hold hold)

theorem unlimited (unlimited : Unlimited options state) : Unlimited options part :=
  { unlimited with forkDisabled := divides.forkDisabled.trans unlimited.forkDisabled }

end

end Part

def Divides (o : Options) (state : ExecutionState) (condition : Assignment → Prop) :
    Option ExecutionState → Prop
  | some part => Part o state condition part
  | none => ∀ ρ, Hold ρ state.constraints → ¬ condition ρ

structure ForkParts (o : Options) (executor : Executor) (state : ExecutionState)
    (holds : Assignment → Bool)
    (result : Executor × Option ExecutionState × Option ExecutionState) : Prop where
  executor : ∃ forks, result.1 = { executor with forks := forks }
  whenTrue : Divides o state (fun ρ => holds ρ = true) result.2.1
  whenFalse : Divides o state (fun ρ => holds ρ = false) result.2.2

theorem not_limited {bit : Assignment → BitVec 1} (unlimited : Unlimited options state)
    (notReplaying : options.replayKTest = false) : ¬ Limited options executor state bit := by
  rintro ⟨-, notAffords⟩
  exact notAffords ⟨unlimited.staticLimit, unlimited.atMemoryLimit, unlimited.inhibitForking,
    unlimited.forkDisabled, notReplaying, by simp [unlimited.maxForks], .inl unlimited.maxDepth⟩

theorem Takes.toPart {side : ExecutionState} (takes : Takes o side condition part) (same : ∀ ρ, condition ρ ↔ further ρ)
    (constraints : side.constraints = state.constraints) (objects : side.addressSpace.objects = state.addressSpace.objects)
    (stack : side.stack = state.stack) (forkDisabled : side.forkDisabled = state.forkDisabled) : Part o state further part := by
  obtain ⟨sane, hold_iff, rest⟩ := takes
  refine ⟨sane, fun ρ => ?_, ?_, ?_, ?_⟩
  · rw [hold_iff ρ, constraints, same]
  · rw [rest, ← objects]
  · rw [rest, ← stack]
  · rw [rest, ← forkDisabled]

theorem fork_parts (sound : solver.Sound) (unlimited : Unlimited options state)
    (notReplaying : options.replayKTest = false) (sane : Sane o state.constraints) (settles : Settles o state.constraints e holds) :
    Satisfies (· = .outOfFuel) (ForkParts o executor state holds) (Executor.fork o options solver fuel executor state e true) := by
  have free : ¬ Limited options executor state fun ρ => BitVec.ofBool (holds ρ) := not_limited unlimited notReplaying
  apply ((fork_outcome sound sane settles).weaken fun fault replays =>
    replays.resolve_right fun replayed => free replayed.2).mono
  intro result outcome
  have isTrue (ρ : Assignment) := BitVector.ofBool_eq_one (holds ρ)
  have isFalse (ρ : Assignment) := BitVector.ofBool_eq_zero_iff (holds ρ)
  cases outcome with
  | whole always takes =>
    refine ⟨⟨executor.forks, rfl⟩, takes.toPart isTrue rfl rfl rfl rfl, fun ρ hold => ?_⟩
    simp [(isTrue ρ).mp (always ρ hold)]
  | both _ _ _ takesTrue takesFalse =>
    exact ⟨⟨executor.forks + 1, rfl⟩, takesTrue.toPart isTrue rfl rfl rfl rfl, takesFalse.toPart isFalse rfl rfl rfl rfl⟩
  | onlyTrue limited _ => exact absurd limited free
  | onlyFalse limited takes =>
    refine ⟨⟨executor.forks, rfl⟩, fun ρ hold holdsTrue => ?_, takes.toPart isFalse rfl rfl rfl rfl⟩
    exact free (limited ⟨ρ, hold, (isTrue ρ).mpr holdsTrue⟩)
  | neither limited _ => exact absurd limited free

end NeuroMerge.Execution
