import NeuroMerge.Execution.ForkOutcome

/-!
# Answers to queries

What `TimingSolver` says about an expression whose value is known, if the solver is
right whenever it answers at all.
-/

namespace NeuroMerge.Execution

open Symbolic TimingSolver
open Symbolic.ConstraintManager (Hold)

variable {ρ : Assignment} {o : Options} {simplifyExprs : Bool} {solver : Solver} {fuel : Nat}
  {constraints : List Expr} {e : Expr}

/-- The answer is whether the proposition is true; only a solver that is not sound gives
none. -/
def Tells (solver : Solver) (truth : Prop) : Option Bool → Prop
  | none => ¬ solver.Sound
  | some answer => answer = true ↔ truth

/-- The boolean expression is true where the property holds, among the assignments that
satisfy the constraints. -/
abbrev Settles (o : Options) (constraints : List Expr) (e : Expr) (holds : Assignment → Bool) :
    Prop :=
  Means o constraints e fun ρ => BitVec.ofBool (holds ρ)

variable {holds : Assignment → Bool}

section

variable (correct : solver.Correct) (sane : Sane o constraints)
include correct sane

theorem mustBeTrue_spec (settles : Settles o constraints e holds) :
    Satisfies (· = .outOfFuel) (Tells solver (∀ ρ, Hold ρ constraints → holds ρ = true))
      (mustBeTrue o simplifyExprs solver fuel constraints e) := by
  have truth {e' : Expr} (value : ∀ ρ, Hold ρ constraints → e'.eval ρ 1 = BitVec.ofBool (holds ρ)) :
      (∀ ρ, Hold ρ constraints → e'.eval ρ 1 = 1#1) ↔ ∀ ρ, Hold ρ constraints → holds ρ = true := by
    refine forall_congr' fun ρ => imp_congr_right fun hold => ?_
    rw [value ρ hold, BitVector.ofBool_eq_one]
  rw [mustBeTrue]
  split
  · rename_i ce isConstant
    have boolean : e.width = 1 := settles.width sane
    rw [← truth fun ρ hold => (settles ρ hold).value]
    constructor
    · intro isTrue ρ _
      exact (isTrue_iff_of_constant isConstant boolean).mp isTrue
    · intro always
      obtain ⟨ρ, hold⟩ := sane.possible
      exact (isTrue_iff_of_constant isConstant boolean).mpr (always ρ hold)
  · apply Satisfies.bind (query_spec sane settles)
    intro e' denotes
    rw [← truth fun ρ hold => (denotes ρ hold).value]
    cases answered : solver.mustBeTrue constraints e' with
    | none =>
      intro sound
      obtain ⟨answer, answers, -⟩ := sound.mustBeTrue constraints e'
      rw [answered] at answers
      cases answers
    | some answer => exact correct.mustBeTrue answered

theorem mayBeTrue_spec (settles : Settles o constraints e holds) :
    Satisfies (· = .outOfFuel) (Tells solver (∃ ρ, Hold ρ constraints ∧ holds ρ = true))
      (mayBeTrue o simplifyExprs solver fuel constraints e) := by
  rw [mayBeTrue, mustBeFalse, bind_assoc]
  apply Satisfies.bind (createIsZero_spec sane settles)
  intro isZero means
  have negated : Settles o constraints isZero fun ρ => !holds ρ := by
    intro ρ hold
    exact (means ρ hold).of_eq BitVec.not_ofBool
  apply Satisfies.bind (mustBeTrue_spec correct sane negated)
  intro answer tells
  cases answer with
  | none => exact tells
  | some answer =>
    have never : answer = true ↔ ∀ ρ, Hold ρ constraints → (!holds ρ) = true := tells
    change (!answer) = true ↔ _
    rw [Bool.not_eq_true', Bool.eq_false_iff, ne_eq, never]
    simp only [Bool.not_eq_true', not_forall, exists_prop, Bool.not_eq_false]

/-!
## Building conditions
-/

end

section Conditions

variable {w : Nat} {value : Assignment → BitVec w}

theorem Settles.congr {holds same : Assignment → Bool} (settles : Settles o constraints e holds)
    (agree : ∀ ρ, Hold ρ constraints → holds ρ = same ρ) : Settles o constraints e same :=
  fun ρ hold => (settles ρ hold).of_eq (congrArg BitVec.ofBool (agree ρ hold))

theorem Settles.constant (bit : Bool) : Settles o constraints (.constant (.alloc bit.toNat 1)) fun _ => bit := by
  intro ρ _
  apply (Denotes.alloc bit.toNat).of_eq
  cases bit <;> rfl

theorem eq_spec (sane : Sane o constraints) (means : Means o constraints e value) (v : BitVec w) :
    Satisfies (· = .outOfFuel) (fun equality => Settles o constraints equality fun ρ => decide (value ρ = v))
      (EqExpr.create o fuel e (.constant ⟨w, v⟩)) := by
  apply Means.of_builds sane
  intro ρ hold
  exact EqExpr.create_builds Guards.allows_safe (means ρ hold) (Denotes.constant ⟨w, v⟩)

theorem isZero_spec (sane : Sane o constraints) (settles : Settles o constraints e holds) :
    Satisfies (· = .outOfFuel) (fun isZero => Settles o constraints isZero fun ρ => !holds ρ) (createIsZero o fuel e) :=
  (createIsZero_spec sane settles).mono fun _ means ρ hold =>
    (means ρ hold).of_eq BitVec.not_ofBool

section

variable {first : Assignment → Bool} {l r : Expr} {second : Assignment → Bool}
  (sane : Sane o constraints) (left : Settles o constraints l first) (right : Settles o constraints r second)
include sane left right

theorem and_spec :
    Satisfies (· = .outOfFuel) (fun both => Settles o constraints both fun ρ => first ρ && second ρ) (AndExpr.create l r) := by
  apply Means.of_builds sane
  intro ρ hold
  exact (AndExpr.create_builds (left ρ hold) (right ρ hold)).of_eq BitVec.ofBool_and_ofBool

theorem or_spec :
    Satisfies (· = .outOfFuel) (fun either => Settles o constraints either fun ρ => first ρ || second ρ) (OrExpr.create l r) := by
  apply Means.of_builds sane
  intro ρ hold
  exact (OrExpr.create_builds (left ρ hold) (right ρ hold)).of_eq BitVec.ofBool_or_ofBool

end

end Conditions

theorem mustBeTrue_halts (constraints : List Expr) (e : Expr) :
    Halts .outOfFuel fun fuel => mustBeTrue o simplifyExprs solver fuel constraints e := by
  cases isConstant : e.constant? with
  | some ce =>
    simp only [mustBeTrue, isConstant]
    exact .pure _
  | none =>
    simp only [mustBeTrue, query, isConstant]
    apply Halts.bind
    · exact .ite (fun _ => ConstraintManager.simplifyExpr_ends constraints e) fun _ => .pure e
    · exact fun _ _ => .pure _

theorem mayBeTrue_halts (constraints : List Expr) (e : Expr) :
    Halts .outOfFuel fun fuel => mayBeTrue o simplifyExprs solver fuel constraints e := by
  simp only [mayBeTrue, mustBeFalse, bind_assoc]
  apply Halts.bind (createIsZero_ends e)
  intro isZero _
  apply (mustBeTrue_halts constraints isZero).bind
  exact fun _ _ => .pure _

end NeuroMerge.Execution
