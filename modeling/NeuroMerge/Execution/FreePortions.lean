import NeuroMerge.Execution.ForkPortions
import NeuroMerge.Execution.FreeProperties

/-!
# Freeing under any limits

The states in which a pointer is the base of an object, and those that freeing leaves,
whatever limits there are on forks.
-/

namespace NeuroMerge.Execution

open Symbolic
open Symbolic.ConstraintManager (Hold)
open Memory (MemoryObject)

variable {ρ : Assignment} {o : Options} {options : ForkOptions} {solver : Solver}
  {optimizeExpr : Expr → Bool → Expr} {fuel w : Nat} {executor : Executor}
  {state part : ExecutionState} {p address : Expr} {value : Assignment → BitVec w}
  {rl : ResolutionList} {results : ExactResolutionList} {op : ObjectPair} {name : String}
  {isLocal isGlobal : MemoryObject → Bool} {target : Option Nat}

def AtBases (o : Options) (state : ExecutionState) (value : Assignment → BitVec w)
    (results : ExactResolutionList) : Prop :=
  ∀ found ∈ results, found.1 ∈ state.addressSpace.objects ∧
    Portion o state (fun ρ => value ρ = ObjectPair.base w found.1) found.2

theorem resolveExactLoop_portions (sound : solver.Sound) :
    ∀ (rl : ResolutionList) (executor : Executor) (state : ExecutionState)
      (results : ExactResolutionList),
      (∀ op ∈ rl, op ∈ state.addressSpace.objects) → Sane o state.constraints →
      Means o state.constraints p value →
      Satisfies (Replays options)
        (fun result => result.1.heap = executor.heap ∧
          ∃ found, result.2.1 = results ++ found ∧ AtBases o state value found)
        (Executor.resolveExactLoop o options solver w fuel p rl executor state results) := by
  intro rl
  induction rl with
  | nil =>
    intro executor state results _ _ _
    exact ⟨rfl, [], (List.append_nil results).symm, nofun⟩
  | cons op rl ih =>
    intro executor state results listed sane means
    apply Satisfies.bind_left (eq_spec sane means (ObjectPair.base w op))
    intro inBounds settles
    apply Satisfies.bind (fork_portions sound sane settles)
    intro forked sides
    obtain ⟨forked, first, second⟩ := forked
    have atFirst : AtBases o state value (first.map fun part => (op, part)).toList := by
      intro found member
      obtain ⟨part, isFirst, rfl⟩ := Option.map_eq_some_iff.mp (Option.mem_toList.mp member)
      exact ⟨listed op (by simp), (sides.whenTrue part isFirst).weaken fun ρ _ isTrue =>
        of_decide_eq_true isTrue⟩
    cases second with
    | none => exact ⟨sides.heap, _, rfl, atFirst⟩
    | some unbound =>
      have apart := sides.whenFalse unbound rfl
      have rest := ih forked unbound (results ++ (first.map fun part => (op, part)).toList)
        (fun other member => by rw [apart.objects]; exact listed other (by simp [member]))
        apart.sane (apart.means means)
      apply rest.mono
      intro result facts
      obtain ⟨heap, found, all, atRest⟩ := facts
      refine ⟨heap.trans sides.heap, _, by rw [all, List.append_assoc], ?_⟩
      intro result member
      rw [List.mem_append] at member
      cases member with
      | inl member => exact atFirst result member
      | inr member =>
        obtain ⟨isObject, on⟩ := atRest result member
        rw [apart.objects] at isObject
        exact ⟨isObject, (apart.trans on).weaken fun _ _ => And.right⟩

theorem resolveExact_portions (sound : solver.Sound) (optimizes : ∀ valueOnly, Optimizes o fun e => optimizeExpr e valueOnly)
    (sane : Sane o state.constraints) (means : Means o state.constraints p value)
    (narrow : w ≤ 64) (separate : state.addressSpace.Separate w) :
    Satisfies (Replays options) (fun result => result.1.heap = executor.heap ∧ AtBases o state value result.2)
      (Executor.resolveExact o options solver optimizeExpr w fuel executor state p name) := by
  have optimized : Means o state.constraints (optimizeExpr p true) value := fun ρ hold => optimizes true ρ p w _ (means ρ hold)
  apply Satisfies.bind_left (resolve_spec sound.correct sane optimized narrow separate)
  intro resolved facts
  obtain ⟨incomplete, rl⟩ := resolved
  have listed : Listed state.constraints value state.addressSpace rl := by
    cases incomplete with
    | false => exact facts.2
    | true =>
      have reason : 2 ≤ 0 ∨ ¬ solver.Sound ∨ ∃ op ∈ state.addressSpace.objects, false = true := facts.2
      simp [sound] at reason
  apply Satisfies.bind (resolveExactLoop_portions sound rl executor state []
    (fun op member => ((listed.mem_iff op).mp member).1) sane optimized)
  intro ended facts
  obtain ⟨ended, results, unbound⟩ := ended
  obtain ⟨heap, found, rfl, atBases⟩ := facts
  cases unbound with
  | none => exact ⟨heap, atBases⟩
  | some unbound => exact ⟨heap, atBases⟩

/-- A state that goes on after an object was freed, or after nothing was done as the pointer
is null. -/
structure Freed (w : Nat) (state : ExecutionState) (value : Assignment → BitVec w)
    (target : Option Nat) (last : ExecutionState) : Prop where
  stack : last.stack = (Executor.bindNull w target state).stack
  objects :
    (last.addressSpace.objects = state.addressSpace.objects ∧
      ∀ ρ, Hold ρ last.constraints → value ρ = 0#w) ∨
    ∃ op ∈ state.addressSpace.objects,
      (∀ ρ, Hold ρ last.constraints → (value ρ).toNat = op.1.address) ∧
      ∀ other, other ∈ last.addressSpace.objects ↔ other ∈ state.addressSpace.objects ∧ other ≠ op

theorem bindNull_stack (same : part.stack = state.stack) :
    (Executor.bindNull w target part).stack = (Executor.bindNull w target state).stack := by
  cases target with
  | none => exact same
  | some dest => simp only [Executor.bindNull, ExecutionState.bindLocal, same]

theorem freeObjects_portions (isLocal isGlobal : MemoryObject → Bool) (target : Option Nat) (separate : state.addressSpace.Separate w) :
    ∀ (results : ExactResolutionList) (executor : Executor), AtBases o state value results →
      (Executor.freeObjects w isLocal isGlobal target executor results).1.heap = executor.heap ∧
      ∀ last ∈ (Executor.freeObjects w isLocal isGlobal target executor results).2,
        (∀ ρ, Hold ρ last.constraints → Hold ρ state.constraints) ∧ Freed w state value target last := by
  intro results
  induction results with
  | nil => exact fun executor _ => ⟨rfl, nofun⟩
  | cons found results ih =>
    intro executor atBases
    obtain ⟨op, part⟩ := found
    obtain ⟨isObject, on⟩ := atBases (op, part) (by simp)
    have objects : part.addressSpace.objects = state.addressSpace.objects := on.objects
    rw [Executor.freeObjects]
    have rest (executor : Executor) := ih executor fun found member => atBases found (List.mem_cons_of_mem _ member)
    rw [Executor.freeObject]
    by_cases onStack : isLocal op.1 = true
    · rw [if_pos onStack]
      exact rest _
    · rw [if_neg onStack]
      by_cases isStatic : isGlobal op.1 = true
      · rw [if_pos isStatic]
        exact rest _
      · rw [if_neg isStatic]
        refine ⟨(rest executor).1, fun last member => ?_⟩
        rw [List.mem_append] at member
        cases member with
        | inr member => exact (rest executor).2 last member
        | inl member =>
          obtain rfl := Option.some.inj (Option.mem_toList.mp member)
          rw [bindNull_constraints]
          refine ⟨fun ρ hold => on.hold hold, bindNull_stack on.stack, .inr ⟨op, isObject, ?_, ?_⟩⟩
          · intro ρ hold
            rw [bindNull_constraints] at hold
            exact (toNat_eq_address separate isObject).mpr (on.meets hold)
          · intro other
            rw [bindNull_addressSpace, ← mem_unbindObject separate isObject]
            simp only [Memory.AddressSpace.unbindObject, objects]

theorem executeFree_portions (sound : solver.Sound) (optimizes : ∀ valueOnly, Optimizes o fun e => optimizeExpr e valueOnly)
    (sane : Sane o state.constraints) (means : Means o state.constraints address value)
    (narrow : w ≤ 64) (separate : state.addressSpace.Separate w) :
    Satisfies (Replays options)
      (fun result => result.1.heap = executor.heap ∧ ∀ last ∈ result.2,
        (∀ ρ, Hold ρ last.constraints → Hold ρ state.constraints) ∧ Freed w state value target last)
      (Executor.executeFree o options solver optimizeExpr w fuel isLocal isGlobal target executor state address) := by
  have optimized : Means o state.constraints (optimizeExpr address true) value :=
    fun ρ hold => optimizes true ρ address w _ (means ρ hold)
  have isZero : Satisfies (· = .outOfFuel) (fun isZero => Settles o state.constraints isZero fun ρ => decide (value ρ = 0#w))
      (createIsZero o fuel (optimizeExpr address true)) := by
    rw [createIsZero, optimized.width sane]
    exact eq_spec sane optimized 0#w
  apply Satisfies.bind_left isZero
  intro isZero settles
  apply Satisfies.bind (fork_portions sound sane settles)
  intro forked sides
  obtain ⟨forked, first, second⟩ := forked
  have nulls : ∀ last ∈ (first.map (Executor.bindNull w target)).toList, (∀ ρ, Hold ρ last.constraints → Hold ρ state.constraints) ∧
        Freed w state value target last := by
    intro last member
    obtain ⟨part, isFirst, rfl⟩ := Option.map_eq_some_iff.mp (Option.mem_toList.mp member)
    have on := sides.whenTrue part isFirst
    rw [bindNull_constraints]
    refine ⟨fun ρ hold => on.hold hold, bindNull_stack on.stack, .inl ⟨?_, ?_⟩⟩
    · rw [bindNull_addressSpace, on.objects]
    · intro ρ hold
      rw [bindNull_constraints] at hold
      exact of_decide_eq_true (on.meets hold)
  cases second with
  | none => exact ⟨sides.heap, nulls⟩
  | some rest =>
    have on := sides.whenFalse rest rfl
    have restSeparate := separate_congr on.objects separate
    apply Satisfies.bind (resolveExact_portions sound optimizes on.sane (on.means optimized) narrow restSeparate)
    intro resolved facts
    obtain ⟨resolvedExecutor, results⟩ := resolved
    obtain ⟨heap, atBases⟩ := facts
    have atState : AtBases o state value results := by
      intro found member
      obtain ⟨isObject, onFound⟩ := atBases found member
      rw [on.objects] at isObject
      exact ⟨isObject, (on.trans onFound).weaken fun _ _ => And.right⟩
    obtain ⟨heapFreed, freed⟩ := freeObjects_portions isLocal isGlobal target separate results resolvedExecutor atState
    refine ⟨heapFreed.trans (heap.trans sides.heap), fun last member => ?_⟩
    rw [List.mem_append] at member
    exact member.elim (nulls last) (freed last)

end NeuroMerge.Execution
