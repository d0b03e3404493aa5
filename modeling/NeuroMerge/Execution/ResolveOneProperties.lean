import NeuroMerge.Execution.ResolveProperties

/-!
# Resolution to one object

`resolveOne` stops at the first object that the pointer may point into. If it finds
none, there is none.
-/

namespace NeuroMerge.Execution

open Symbolic
open Symbolic.ConstraintManager (Hold)
open Memory (MemoryObject AddressSpace)

variable {o : Options} {simplifyExprs : Bool} {solver : Solver} {w fuel : Nat}
  {constraints : List Expr} {p : Expr} {value : Assignment → BitVec w} {op : ObjectPair}
  {ops : List ObjectPair} {space : AddressSpace}

/-- A possible target among the objects, or that there is none; nothing is returned only
if the solver fails. -/
def ResolvesOne (constraints : List Expr) (value : Assignment → BitVec w) (solver : Solver)
    (ops : List ObjectPair) : Option (Option ObjectPair) → Prop
  | none => ¬ solver.Sound
  | some none => ∀ op ∈ ops, ¬ MayPointInto constraints value op
  | some (some op) => op ∈ ops ∧ MayPointInto constraints value op

theorem ResolvesOne.cons {result : Option (Option ObjectPair)} (never : ¬ MayPointInto constraints value op)
    (resolves : ResolvesOne constraints value solver ops result) : ResolvesOne constraints value solver (op :: ops) result := by
  match result, resolves with
  | none, unsound => exact unsound
  | some none, nowhere =>
    intro other member
    cases member with
    | head => exact never
    | tail _ later => exact nowhere other later
  | some (some found), ⟨member, may⟩ => exact ⟨List.mem_cons_of_mem op member, may⟩

section

variable (correct : solver.Correct) (sane : Sane o constraints)
  (means : Means o constraints p value) (addressable : ∀ op ∈ ops, op.1.Addressable w)
include correct sane means addressable

theorem resolveOneBackwards_spec
    (descending : ops.Pairwise fun second first => first.1.Precedes second.1) :
    Satisfies (· = .outOfFuel) (ResolvesOne constraints value solver ops)
      (resolveOneBackwards o simplifyExprs solver w fuel constraints p ops) := by
  induction ops with
  | nil =>
    exact nofun
  | cons op remaining ih =>
    obtain ⟨preceding, descending⟩ := List.pairwise_cons.mp descending
    apply Satisfies.bind (getBoundsCheckPointer_spec sane means (addressable op (by simp)))
    intro inBounds settles
    apply Satisfies.bind (mayBeTrue_spec correct sane settles)
    intro mayBeTrue tells
    simp only [decide_eq_true_eq] at tells
    match mayBeTrue, tells with
    | none, unsound => exact unsound
    | some true, possible => exact ⟨by simp, possible.mp rfl⟩
    | some false, impossible =>
      have never : ¬ MayPointInto constraints value op := fun may => nomatch impossible.mpr may
      apply Satisfies.bind (above_spec sane means (addressable op (by simp)))
      intro above settles
      apply Satisfies.bind (mustBeTrue_spec correct sane settles)
      intro mustBeTrue tells
      simp only [decide_eq_true_eq] at tells
      match mustBeTrue, tells with
      | none, unsound => exact unsound
      | some true, isAbove =>
        change ResolvesOne constraints value solver (op :: remaining) (some none)
        apply ResolvesOne.cons never
        rintro other member ⟨ρ, hold, contains⟩
        have before := preceding other member _ contains
        have after := isAbove.mp rfl ρ hold
        omega
      | some false, _ =>
        exact (ih (fun other member => addressable other (by simp [member])) descending).mono fun _ => ResolvesOne.cons never

theorem resolveOneForwards_spec (ascending : ImmutableMap.Sorted MemoryObject.address ops) :
    Satisfies (· = .outOfFuel) (ResolvesOne constraints value solver ops)
      (resolveOneForwards o simplifyExprs solver w fuel constraints p ops) := by
  induction ops with
  | nil =>
    exact nofun
  | cons op remaining ih =>
    obtain ⟨following, ascending⟩ := List.pairwise_cons.mp ascending
    apply Satisfies.bind (below_spec sane means (addressable op (by simp)))
    intro below settles
    apply Satisfies.bind (mustBeTrue_spec correct sane settles)
    intro mustBeTrue tells
    simp only [decide_eq_true_eq] at tells
    match mustBeTrue, tells with
    | none, unsound => exact unsound
    | some true, isBelow =>
      rintro other member ⟨ρ, hold, contains⟩
      have before := isBelow.mp rfl ρ hold
      have base := contains.1
      cases member with
      | head => omega
      | tail _ later =>
        have after := following other later
        omega
    | some false, _ =>
      apply Satisfies.bind (getBoundsCheckPointer_spec sane means (addressable op (by simp)))
      intro inBounds settles
      apply Satisfies.bind (mayBeTrue_spec correct sane settles)
      intro mayBeTrue tells
      simp only [decide_eq_true_eq] at tells
      match mayBeTrue, tells with
      | none, unsound => exact unsound
      | some true, possible => exact ⟨by simp, possible.mp rfl⟩
      | some false, impossible =>
        have never : ¬ MayPointInto constraints value op := fun may => nomatch impossible.mpr may
        exact (ih (fun other member => addressable other (by simp [member])) ascending).mono fun _ => ResolvesOne.cons never

end

theorem ResolvesOne.mono {wider : List ObjectPair} {result : Option (Option ObjectPair)}
    (resolves : ResolvesOne constraints value solver ops result) (within : ∀ op ∈ ops, op ∈ wider)
    (others : ∀ op ∈ wider, op ∈ ops ∨ ¬ MayPointInto constraints value op) : ResolvesOne constraints value solver wider result := by
  match result, resolves with
  | none, unsound => exact unsound
  | some none, nowhere =>
    intro op member
    exact (others op member).elim (nowhere op) id
  | some (some found), ⟨member, may⟩ => exact ⟨within found member, may⟩

theorem resolveOne_spec (correct : solver.Correct) (sane : Sane o constraints)
    (means : Means o constraints p value) (narrow : w ≤ 64) (separate : space.Separate w) :
    Satisfies (· = .outOfFuel) (ResolvesOne constraints value solver space.objects)
      (resolveOne o simplifyExprs solver w fuel constraints p space) := by
  rw [resolveOne]
  split
  · rename_i addr isConstant
    rw [Expr.constant?_eq_some] at isConstant
    subst isConstant
    have width : addr.width = w := means.width sane
    obtain ⟨res, returned, right⟩ := resolveOneConstant_spec separate (width ▸ narrow)
    rw [returned]
    cases res with
    | none =>
      intro op member may
      cases (right op).mpr ⟨member, (mayPointInto_constant sane means).mp may⟩
    | some op =>
      obtain ⟨member, contains⟩ := (right op).mp rfl
      exact ⟨member, (mayPointInto_constant sane means).mpr contains⟩
  · apply Satisfies.bind (getValue_answers correct sane means)
    intro answer right
    cases answer with
    | none => exact right
    | some cex =>
      obtain ⟨ρ, hold, rfl⟩ := right
      simp only [require, if_pos narrow, pure_bind]
      cases cheap : (ImmutableMap.lookupPrevious MemoryObject.address space.objects (value ρ).toNat).filter
            fun res => decide ((value ρ).toNat - res.1.address < res.1.size) with
      | some res =>
        -- the value that the solver gave is in the object
        obtain ⟨found, inside⟩ := Option.filter_eq_some_iff.mp cheap
        rw [decide_eq_true_eq] at inside
        obtain ⟨member, notAfter⟩ := ImmutableMap.lookupPrevious_mem found
        exact ⟨member, ρ, hold, notAfter, by omega⟩
      | none =>
        have split : (ImmutableMap.upperBound MemoryObject.address space.objects
            (value ρ).toNat).1 ++ (ImmutableMap.upperBound MemoryObject.address space.objects
            (value ρ).toNat).2 = space.objects := ImmutableMap.upperBound_append
        generalize ImmutableMap.upperBound MemoryObject.address space.objects (value ρ).toNat = halves at split ⊢
        obtain ⟨before, after⟩ := halves
        have ordered := separate.precedes
        have sorted := separate.sorted
        rw [ImmutableMap.Sorted, ← split, List.pairwise_append] at sorted
        rw [← split, List.pairwise_append] at ordered
        have inBefore (op) (member : op ∈ before.reverse) : op ∈ space.objects := by
          rw [← split]
          exact List.mem_append_left after (List.mem_reverse.mp member)
        have inAfter (op) (member : op ∈ after) : op ∈ space.objects := by
          rw [← split]
          exact List.mem_append_right before member
        apply Satisfies.bind (resolveOneBackwards_spec correct sane means (fun op member => separate.addressable op (inBefore op member))
          (List.pairwise_reverse.mpr ordered.1))
        intro result resolves
        rcases result with _ | _ | op
        · exact resolves
        · apply (resolveOneForwards_spec correct sane means
            (fun op member => separate.addressable op (inAfter op member)) sorted.2.1).mono
          intro result later
          apply later.mono inAfter
          intro op member
          rw [← split, List.mem_append] at member
          exact member.symm.imp_right fun earlier => resolves op (List.mem_reverse.mpr earlier)
        · exact ⟨inBefore op resolves.1, resolves.2⟩

theorem resolveOneBackwards_halts (ops : List ObjectPair) :
    Ends fun fuel => resolveOneBackwards o simplifyExprs solver w fuel constraints p ops := by
  induction ops with
  | nil => exact .pure _
  | cons op remaining ih =>
    apply Halts.bind (getBoundsCheckPointer_ends op.1 p)
    intro inBounds _
    apply Halts.bind (mayBeTrue_halts constraints inBounds)
    intro mayBeTrue _
    match mayBeTrue with
    | none | some true => exact .pure _
    | some false =>
      apply Halts.bind (UleExpr.create_ends (op.1.getBaseExpr w) p)
      intro above _
      apply Halts.bind (mustBeTrue_halts constraints above)
      intro mustBeTrue _
      match mustBeTrue with
      | none | some true => exact .pure _
      | some false => exact ih

theorem resolveOneForwards_halts (ops : List ObjectPair) :
    Ends fun fuel => resolveOneForwards o simplifyExprs solver w fuel constraints p ops := by
  induction ops with
  | nil => exact .pure _
  | cons op remaining ih =>
    apply Halts.bind (UltExpr.create_ends p (op.1.getBaseExpr w))
    intro below _
    apply Halts.bind (mustBeTrue_halts constraints below)
    intro mustBeTrue _
    match mustBeTrue with
    | none | some true => exact .pure _
    | some false =>
      apply Halts.bind (getBoundsCheckPointer_ends op.1 p)
      intro inBounds _
      apply Halts.bind (mayBeTrue_halts constraints inBounds)
      intro mayBeTrue _
      match mayBeTrue with
      | none | some true => exact .pure _
      | some false => exact ih

theorem resolveOne_halts : Ends fun fuel => resolveOne o simplifyExprs solver w fuel constraints p space := by
  cases isConstant : p.constant? with
  | some addr =>
    simp only [resolveOne, isConstant]
    exact (resolveOneConstant_halts space addr).map
  | none =>
    simp only [resolveOne, isConstant]
    apply Halts.bind (getValue_halts constraints p)
    intro answer _
    cases answer with
    | none => exact .pure _
    | some cex =>
      apply Ends.require
      cases (ImmutableMap.lookupPrevious MemoryObject.address space.objects cex.value.toNat).filter
            fun res => decide (cex.value.toNat - res.1.address < res.1.size) with
      | some res => exact .pure _
      | none =>
        apply Halts.bind (resolveOneBackwards_halts _)
        intro result _
        rcases result with _ | _ | _
        · exact .pure _
        · exact resolveOneForwards_halts _
        · exact .pure _

/-- With success there is a possible target, and without there is none. A sound solver
does not fail. -/
theorem resolveOne_finds (o : Options) (simplifyExprs : Bool) (constraints : List Expr) (p : Expr)
    (space : AddressSpace) (correct : solver.Correct) (sane : Sane o constraints)
    (means : Means o constraints p value) (narrow : w ≤ 64) (separate : space.Separate w) :
    ∃ result,
      Returns (fun fuel => resolveOne o simplifyExprs solver w fuel constraints p space) result ∧
        (∀ op, result = some (some op) → op ∈ space.objects ∧ MayPointInto constraints value op) ∧
        (result = some none → ∀ op ∈ space.objects, ¬ MayPointInto constraints value op) ∧
        (solver.Sound → result ≠ none) := by
  have halts : Ends fun fuel =>
      resolveOne o simplifyExprs solver w fuel constraints p space := resolveOne_halts
  obtain ⟨result, resolves, returns⟩ := halts.returns fun fuel =>
    resolveOne_spec correct sane means narrow separate
  refine ⟨result, returns, ?_, ?_, ?_⟩
  · rintro op rfl
    exact resolves
  · rintro rfl
    exact resolves
  · rintro sound rfl
    exact resolves sound

section Example

open Executor (idealSolver idealSolver_sound)

theorem resolveOne_finds_sample :
    ∃ op, Returns (fun fuel => resolveOne ⟨false, true⟩ false idealSolver 64 fuel [] samplePointer
      sampleSpace) (some (some op)) ∧ op ∈ sampleSpace.objects := by
  obtain ⟨result, returns, found, nothing, answers⟩ := resolveOne_finds ⟨false, true⟩ false []
    samplePointer sampleSpace idealSolver_sound.correct Sane.nil samplePointer_means (by decide)
    sampleSpace_separate
  match result with
  | none => exact absurd rfl (answers idealSolver_sound)
  | some none =>
    have first : (⟨1, 4096, 8, false⟩, 0) ∈ sampleSpace.objects := by simp [sampleSpace]
    exact absurd (samplePointer_mayPointInto first) (nothing rfl _ first)
  | some (some op) => exact ⟨op, returns, (found op rfl).1⟩

end Example

end NeuroMerge.Execution
