import NeuroMerge.Execution.Queries
import NeuroMerge.Foundations.BinarySearch

/-!
# The range of an expression

`Solver::getRange`: the least and the greatest value that an expression can have under a
path condition, found by queries about it.
-/

namespace NeuroMerge.Execution

open BitVec Symbolic
open Symbolic.ConstraintManager (Hold)

def maxValueOfNBits (bits : Nat) : Nat := 2 ^ bits - 1

namespace Solver

variable (o : Options) (solver : Solver) (fuel : Nat) (constraints : List Expr) (e : Expr)

def answered (answer : Except Fault (Option Bool)) : Except Fault Bool := do
  match ← answer with
  | none => throw (.assertion .solverFailure)
  | some res => pure res

def fitsBits (bits : Nat) : Except Fault Bool := do
  let high ← LShrExpr.create o fuel e (.constant (.alloc bits e.width))
  let isZero ← EqExpr.create o fuel high (.constant (.alloc 0 e.width))
  answered (TimingSolver.mustBeTrue o false solver fuel constraints isZero)

def mayBeZero : Except Fault Bool := do
  let isZero ← EqExpr.create o fuel e (.constant (.alloc 0 e.width))
  answered (TimingSolver.mayBeTrue o false solver fuel constraints isZero)

def mayBeAtMost (bound : Nat) : Except Fault Bool := do
  let below ← UleExpr.create o fuel e (.constant (.alloc bound e.width))
  answered (TimingSolver.mayBeTrue o false solver fuel constraints below)

def mustBeAtMost (bound : Nat) : Except Fault Bool := do
  let below ← UleExpr.create o fuel e (.constant (.alloc bound e.width))
  answered (TimingSolver.mustBeTrue o false solver fuel constraints below)

/-- Zero is the common case. -/
def searchMin (bits : Nat) : Except Fault Nat := do
  let zero ← mayBeZero o solver fuel constraints e
  if zero then pure 0
  else binarySearch (mayBeAtMost o solver fuel constraints e) 0 (maxValueOfNBits bits)

def searchRange : Except Fault (Nat × Nat) := do
  let bits ← binarySearch (fitsBits o solver fuel constraints e) 0 e.width
  require (bits ≤ 64) .invalidSize
  let min ← searchMin o solver fuel constraints e bits
  let max ← binarySearch (mustBeAtMost o solver fuel constraints e) min (maxValueOfNBits bits)
  pure (min, max)

def booleanRange : Except Fault (Nat × Nat) := do
  match ← TimingSolver.evaluate o false solver fuel constraints e with
  | none => throw (.assertion .solverFailure)
  | some .isTrue => pure (1, 1)
  | some .isFalse => pure (0, 0)
  | some .unknown => pure (0, 1)

def findRange : Except Fault (Nat × Nat) :=
  if e.width = 1 then booleanRange o solver fuel constraints e
  else
    match e.constant? with
    | some ce => do
      require (ce.width ≤ 64) .indexTooLarge
      pure (ce.value.toNat, ce.value.toNat)
    | none => searchRange o solver fuel constraints e

def getRange : Except Fault (Expr × Expr) := do
  let (min, max) ← findRange o solver fuel constraints e
  pure (.constant (.alloc min e.width), .constant (.alloc max e.width))

end Solver

/-!
## The bounds are the least and the greatest value
-/

variable {o : Options} {solver : Solver} {fuel w n : Nat} {constraints : List Expr} {e : Expr} {value : Assignment → BitVec w}

structure Ranges (constraints : List Expr) (value : Assignment → BitVec w) (min max : Nat) :
    Prop where
  least : ∃ ρ, Hold ρ constraints ∧ (value ρ).toNat = min
  greatest : ∃ ρ, Hold ρ constraints ∧ (value ρ).toNat = max
  between : ∀ ρ, Hold ρ constraints → min ≤ (value ρ).toNat ∧ (value ρ).toNat ≤ max

theorem Ranges.const (sane : Sane o constraints)
    (same : ∀ ρ, Hold ρ constraints → (value ρ).toNat = n) : Ranges constraints value n n := by
  obtain ⟨ρ₀, hold₀⟩ := sane.possible
  exact ⟨⟨ρ₀, hold₀, same ρ₀ hold₀⟩, ⟨ρ₀, hold₀, same ρ₀ hold₀⟩, fun ρ hold => ⟨(same ρ hold).ge, (same ρ hold).le⟩⟩

theorem answered_spec {truth : Prop} {answer : Except Fault (Option Bool)} (sound : solver.Sound)
    (tells : Satisfies (· = .outOfFuel) (Tells solver truth) answer) :
    Satisfies (· = .outOfFuel) (fun res => res = true ↔ truth) (Solver.answered answer) := by
  apply Satisfies.bind tells
  intro res right
  cases res with
  | none => exact absurd sound right
  | some res => exact right

theorem le_spec (sane : Sane o constraints) (means : Means o constraints e value) (small : n < 2 ^ w) :
    Satisfies (· = .outOfFuel) (fun below => Settles o constraints below fun ρ => decide ((value ρ).toNat ≤ n))
      (UleExpr.create o fuel e (.constant (.alloc n w))) := by
  apply Means.of_builds sane
  intro ρ hold
  apply (UleExpr.create_builds Guards.allows_safe (means ρ hold) (Denotes.alloc n)).of_eq
  rw [BitVec.ule, toNat_ofNat, Nat.mod_eq_of_lt small]

section

variable (sound : solver.Sound) (sane : Sane o constraints) (means : Means o constraints e value)
include sound sane means

theorem fitsBits_spec (within : n < w) :
    Satisfies (· = .outOfFuel) (fun res => res = true ↔ ∀ ρ, Hold ρ constraints → (value ρ).toNat < 2 ^ n)
      (Solver.fitsBits o solver fuel constraints e n) := by
  have position : (BitVec.ofNat w n).toNat = n := by
    exact Nat.mod_eq_of_lt (Nat.lt_trans within Nat.lt_two_pow_self)
  have shifted : Satisfies (· = .outOfFuel) (fun high => Means o constraints high fun ρ => value ρ >>> n)
      (LShrExpr.create o fuel e (.constant (.alloc n w))) := by
    apply Means.of_builds sane
    intro ρ hold
    apply (LShrExpr.create_builds Guards.allows_safe (means ρ hold) (Denotes.alloc n)).of_eq
    rw [ushiftRight_eq', position]
  have isZero_iff (ρ : Assignment) : value ρ >>> n = 0#w ↔ (value ρ).toNat < 2 ^ n := by
    rw [← toNat_inj, toNat_ushiftRight, Nat.shiftRight_eq_div_pow]
    exact Nat.div_eq_zero_iff_lt (Nat.two_pow_pos n)
  rw [Solver.fitsBits, means.width sane]
  apply Satisfies.bind shifted
  intro high denotes
  apply Satisfies.bind (eq_spec sane denotes 0#w)
  intro isZero settles
  simpa only [decide_eq_true_eq, isZero_iff] using answered_spec sound (mustBeTrue_spec sound.correct sane settles)

theorem mayBeZero_spec :
    Satisfies (· = .outOfFuel) (fun res => res = true ↔ ∃ ρ, Hold ρ constraints ∧ value ρ = 0#w)
      (Solver.mayBeZero o solver fuel constraints e) := by
  rw [Solver.mayBeZero, means.width sane]
  apply Satisfies.bind (eq_spec sane means 0#w)
  intro isZero settles
  simpa only [decide_eq_true_eq] using answered_spec sound (mayBeTrue_spec sound.correct sane settles)

theorem mayBeAtMost_spec (small : n < 2 ^ w) :
    Satisfies (· = .outOfFuel) (fun res => res = true ↔ ∃ ρ, Hold ρ constraints ∧ (value ρ).toNat ≤ n)
      (Solver.mayBeAtMost o solver fuel constraints e n) := by
  rw [Solver.mayBeAtMost, means.width sane]
  apply Satisfies.bind (le_spec sane means small)
  intro below settles
  simpa only [decide_eq_true_eq] using answered_spec sound (mayBeTrue_spec sound.correct sane settles)

theorem mustBeAtMost_spec (small : n < 2 ^ w) :
    Satisfies (· = .outOfFuel) (fun res => res = true ↔ ∀ ρ, Hold ρ constraints → (value ρ).toNat ≤ n)
      (Solver.mustBeAtMost o solver fuel constraints e n) := by
  rw [Solver.mustBeAtMost, means.width sane]
  apply Satisfies.bind (le_spec sane means small)
  intro below settles
  simpa only [decide_eq_true_eq] using answered_spec sound (mustBeTrue_spec sound.correct sane settles)

end

theorem least_attained {min : Nat} (least : IsLeast {n | 0 ≤ n ∧ ∃ ρ, Hold ρ constraints ∧ (value ρ).toNat ≤ n} min) :
    (∃ ρ, Hold ρ constraints ∧ (value ρ).toNat = min) ∧ ∀ ρ, Hold ρ constraints → min ≤ (value ρ).toNat := by
  have below (ρ : Assignment) (hold : Hold ρ constraints) : min ≤ (value ρ).toNat := least.2 ⟨Nat.zero_le _, ρ, hold, Nat.le_refl _⟩
  obtain ⟨-, ρ, hold, atMost⟩ := least.1
  exact ⟨⟨ρ, hold, Nat.le_antisymm atMost (below ρ hold)⟩, below⟩

theorem ranges_of_least {min max : Nat} (attained : ∃ ρ, Hold ρ constraints ∧ (value ρ).toNat = min)
    (below : ∀ ρ, Hold ρ constraints → min ≤ (value ρ).toNat)
    (least : IsLeast {n | min ≤ n ∧ ∀ ρ, Hold ρ constraints → (value ρ).toNat ≤ n} max) : Ranges constraints value min max := by
  refine ⟨attained, ?_, fun ρ hold => ⟨below ρ hold, least.1.2 ρ hold⟩⟩
  by_contra none
  have smaller (ρ : Assignment) (hold : Hold ρ constraints) : (value ρ).toNat < max :=
    lt_of_le_of_ne (least.1.2 ρ hold) fun same => none ⟨ρ, hold, same⟩
  obtain ⟨ρ₀, hold₀, isMin⟩ := attained
  have above : min < max := isMin ▸ smaller ρ₀ hold₀
  have before : max ≤ max - 1 := least.2 ⟨Nat.le_sub_one_of_lt above, fun ρ hold => Nat.le_sub_one_of_lt (smaller ρ hold)⟩
  omega

section

variable (sound : solver.Sound) (sane : Sane o constraints)
include sound sane

theorem searchMin_spec {bits : Nat} (means : Means o constraints e value) (bound : maxValueOfNBits bits < 2 ^ w)
    (within : ∀ ρ, Hold ρ constraints → (value ρ).toNat ≤ maxValueOfNBits bits) :
    Satisfies (· = .outOfFuel)
      (fun min => (∃ ρ, Hold ρ constraints ∧ (value ρ).toNat = min) ∧
        ∀ ρ, Hold ρ constraints → min ≤ (value ρ).toNat) (Solver.searchMin o solver fuel constraints e bits) := by
  apply Satisfies.bind (mayBeZero_spec sound sane means)
  intro zero isZero
  split
  · rename_i possible
    obtain ⟨ρ, hold, same⟩ := isZero.mp possible
    exact ⟨⟨ρ, hold, by rw [same, toNat_zero]⟩, fun _ _ => Nat.zero_le _⟩
  · obtain ⟨ρ, hold⟩ := sane.possible
    apply Satisfies.mono (binarySearch_spec (fun le ⟨ρ, hold, below⟩ => ⟨ρ, hold, below.trans le⟩) (Nat.zero_le _)
      ⟨ρ, hold, within ρ hold⟩
      fun n _ below => mayBeAtMost_spec sound sane means (below.trans bound))
    exact fun min least => least_attained least

theorem searchRange_spec (means : Means o constraints e value) (narrow : w ≤ 64) :
    Satisfies (· = .outOfFuel) (fun result => Ranges constraints value result.1 result.2)
      (Solver.searchRange o solver fuel constraints e) := by
  have used : Satisfies (· = .outOfFuel) (IsLeast {n | 0 ≤ n ∧ ∀ ρ, Hold ρ constraints → (value ρ).toNat < 2 ^ n})
      (binarySearch (Solver.fitsBits o solver fuel constraints e) 0 w) := by
    apply binarySearch_spec _ (Nat.zero_le w) fun ρ _ => (value ρ).isLt
    · exact fun n _ within => fitsBits_spec sound sane means within
    · intro m n le fits ρ hold
      exact (fits ρ hold).trans_le (Nat.pow_le_pow_right (by decide) le)
  rw [Solver.searchRange, means.width sane]
  apply Satisfies.bind used
  intro bits least
  have fits := least.1.2
  have bitsLe : bits ≤ w := least.2 ⟨Nat.zero_le w, fun ρ _ => (value ρ).isLt⟩
  have bound : maxValueOfNBits bits < 2 ^ w := by
    have mono : 2 ^ bits ≤ 2 ^ w := Nat.pow_le_pow_right (by decide) bitsLe
    have positive := Nat.two_pow_pos bits
    rw [maxValueOfNBits]
    omega
  have within (ρ : Assignment) (hold : Hold ρ constraints) : (value ρ).toNat ≤ maxValueOfNBits bits := Nat.le_sub_one_of_lt (fits ρ hold)
  apply require_satisfies _ fun tooMany => absurd (bitsLe.trans narrow) tooMany
  intro _
  apply Satisfies.bind (searchMin_spec sound sane means bound within)
  rintro min ⟨attained, below⟩
  have ordered : min ≤ maxValueOfNBits bits := by
    obtain ⟨ρ, hold, rfl⟩ := attained
    exact within ρ hold
  apply Satisfies.bind (binarySearch_spec (fun le above ρ hold => (above ρ hold).trans le) ordered
    within fun n _ below => mustBeAtMost_spec sound sane means (below.trans bound))
  exact fun max least => ranges_of_least attained below least

theorem booleanRange_spec {bit : Assignment → BitVec 1} (means : Means o constraints e bit) :
    Satisfies (· = .outOfFuel) (fun result => Ranges constraints bit result.1 result.2)
      (Solver.booleanRange o solver fuel constraints e) := by
  have eval {ρ : Assignment} (hold : Hold ρ constraints) : e.eval ρ 1 = bit ρ := (means ρ hold).value
  apply Satisfies.bind (evaluate_spec sound sane means)
  rintro answer ⟨res, rfl, answers⟩
  cases res with
  | isTrue | isFalse =>
    apply Ranges.const sane
    exact fun ρ hold => congrArg BitVec.toNat ((eval hold).symm.trans (answers ρ hold))
  | unknown =>
    obtain ⟨⟨ρ₁, hold₁, isTrue⟩, ρ₀, hold₀, isFalse⟩ := answers
    refine ⟨⟨ρ₀, hold₀, ?_⟩, ⟨ρ₁, hold₁, ?_⟩, fun ρ _ =>
      ⟨Nat.zero_le _, Nat.le_of_lt_succ (bit ρ).isLt⟩⟩
    · exact congrArg BitVec.toNat ((eval hold₀).symm.trans isFalse)
    · exact congrArg BitVec.toNat ((eval hold₁).symm.trans isTrue)

theorem findRange_spec (means : Means o constraints e value) (narrow : w ≤ 64) :
    Satisfies (· = .outOfFuel) (fun result => Ranges constraints value result.1 result.2)
      (Solver.findRange o solver fuel constraints e) := by
  rw [Solver.findRange]
  split
  · rename_i boolean
    obtain rfl : w = 1 := (means.width sane).symm.trans boolean
    exact booleanRange_spec sound sane means
  · split
    · rename_i ce isConstant
      rw [Expr.constant?_eq_some] at isConstant
      subst isConstant
      have same (ρ : Assignment) (hold : Hold ρ constraints) : ce = ⟨w, value ρ⟩ := (means ρ hold).of_constant
      obtain ⟨ρ₀, hold₀⟩ := sane.possible
      have width : ce.width ≤ 64 := by
        rw [same ρ₀ hold₀]
        exact narrow
      apply require_satisfies _ fun tooWide => absurd width tooWide
      intro _
      exact .const sane fun ρ hold => by rw [same ρ hold]
    · exact searchRange_spec sound sane means narrow

theorem getRange_spec (means : Means o constraints e value) (narrow : w ≤ 64) :
    Satisfies (· = .outOfFuel)
      (fun result => ∃ min max, Ranges constraints value min max ∧
        result = (.constant (.alloc min w), .constant (.alloc max w))) (Solver.getRange o solver fuel constraints e) := by
  apply Satisfies.bind (findRange_spec sound sane means narrow)
  rintro ⟨min, max⟩ ranges
  exact ⟨min, max, ranges, by rw [means.width sane]⟩

end

theorem answered_halts {answer : Nat → Except Fault (Option Bool)} (halts : Ends answer) :
    Ends fun fuel => Solver.answered (answer fuel) := by
  apply halts.bind
  intro res _
  cases res with
  | none => exact .error _ nofun
  | some res => exact .pure res

theorem searchMin_halts {bits : Nat} : Ends fun fuel => Solver.searchMin o solver fuel constraints e bits := by
  apply Halts.bind
  · apply (EqExpr.create_ends e (.constant (.alloc 0 e.width))).bind
    exact fun isZero _ => answered_halts (mayBeTrue_halts constraints isZero)
  intro zero _
  refine .ite (fun _ => .pure 0) fun _ => binarySearch_halts fun bound => ?_
  apply (UleExpr.create_ends e (.constant (.alloc bound e.width))).bind
  exact fun below _ => answered_halts (mayBeTrue_halts constraints below)

theorem searchRange_halts : Ends fun fuel => Solver.searchRange o solver fuel constraints e := by
  apply Halts.bind
  · apply binarySearch_halts
    intro bits
    apply (LShrExpr.create_ends e (.constant (.alloc bits e.width))).bind
    intro high _
    apply (EqExpr.create_ends high (.constant (.alloc 0 e.width))).bind
    exact fun isZero _ => answered_halts (mustBeTrue_halts constraints isZero)
  intro bits _
  apply Ends.require
  apply searchMin_halts.bind
  intro min _
  apply Halts.bind
  · apply binarySearch_halts
    intro bound
    apply (UleExpr.create_ends e (.constant (.alloc bound e.width))).bind
    exact fun below _ => answered_halts (mustBeTrue_halts constraints below)
  exact fun max _ => .pure _

theorem findRange_halts : Ends fun fuel => Solver.findRange o solver fuel constraints e := by
  apply Halts.ite
  · intro _
    apply (Executor.evaluate_halts constraints e).bind
    intro answer _
    rcases answer with _ | _ | _ | _
    · exact .error _ (by simp)
    all_goals exact .pure _
  · intro _
    cases e.constant? with
    | none => exact searchRange_halts
    | some ce =>
      apply Ends.require
      exact .pure _

theorem getRange_halts : Ends fun fuel => Solver.getRange o solver fuel constraints e :=
  findRange_halts.bind fun _ _ => .pure _

/-- With a solver that always answers, and rightly, the bounds are the least and the greatest value
of the expression. -/
theorem getRange_tight (sound : solver.Sound) (sane : Sane o constraints)
    (safe : ∀ ρ, Hold ρ constraints → e.WellFormed (.safe o ρ)) (narrow : e.width ≤ 64) :
    ∃ min max, Returns (fun fuel => Solver.getRange o solver fuel constraints e)
        (.constant ⟨e.width, min⟩, .constant ⟨e.width, max⟩) ∧
      IsLeast {n | ∃ ρ, Hold ρ constraints ∧ (e.eval ρ e.width).toNat = n} min.toNat ∧
      IsGreatest {n | ∃ ρ, Hold ρ constraints ∧ (e.eval ρ e.width).toNat = n} max.toNat := by
  have means : Means o constraints e fun ρ => e.eval ρ e.width :=
    fun ρ hold => ⟨safe ρ hold, rfl, rfl⟩
  obtain ⟨_, ⟨min, max, ranges, rfl⟩, returns⟩ :=
    getRange_halts.returns fun _ => getRange_spec sound sane means narrow
  obtain ⟨⟨ρ₀, hold₀, rfl⟩, ⟨ρ₁, hold₁, rfl⟩, between⟩ := ranges
  refine ⟨e.eval ρ₀ e.width, e.eval ρ₁ e.width, ?_, ⟨⟨ρ₀, hold₀, rfl⟩, ?_⟩, ⟨⟨ρ₁, hold₁, rfl⟩, ?_⟩⟩
  · simpa only [ConstantExpr.alloc, ofNat_toNat, setWidth_eq] using returns
  · rintro _ ⟨ρ, hold, rfl⟩
    exact (between ρ hold).1
  · rintro _ ⟨ρ, hold, rfl⟩
    exact (between ρ hold).2

theorem getRange_tight_sample :
    ∃ min max, Returns (fun fuel => Solver.getRange ⟨false, true⟩ Executor.idealSolver fuel []
        (.read (.symbolic 0 "x" 1) .null (.constant (.alloc 0 32))))
      (.constant ⟨8, min⟩, .constant ⟨8, max⟩) ∧ min = 0#8 := by
  obtain ⟨min, max, returns, least, -⟩ := @getRange_tight ⟨false, true⟩ Executor.idealSolver []
    (.read (.symbolic 0 "x" 1) .null (.constant (.alloc 0 32))) Executor.idealSolver_sound Sane.nil
    (fun _ _ => ⟨trivial, trivial, rfl, by decide, nofun⟩) (by decide)
  refine ⟨min, max, returns, eq_of_toNat_eq (Nat.le_zero.mp (least.2 ?_))⟩
  exact ⟨fun _ _ => 0, by rintro _ ⟨⟩, rfl⟩

end NeuroMerge.Execution
