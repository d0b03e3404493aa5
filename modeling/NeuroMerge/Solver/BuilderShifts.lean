import Mathlib.Tactic.Ring
import NeuroMerge.Solver.Builder

/-!
# Built constants and shifts

What the terms for constants and for shifts mean. A shift is built from a
concatenation or from a chain of cases, and an amount that is not less than the
width gives zero.
-/

namespace NeuroMerge.Builder

open BitVec BitVectorTerm
open Symbolic (Array ConstantExpr)

section Values

variable {env : Environment Array} {w n : Nat} {t : Handle} {x : BitVec w} {z : BitVec n}

theorem means_of_toNat (means : Means env t x) (same : w = n) (value : x.toNat = z.toNat) : Means env t z := by
  subst same
  exact means.of_eq (eq_of_toNat_eq value)

theorem means_of_bits (means : Means env t x) (same : w = n) (value : ∀ i < n, x.getLsbD i = z.getLsbD i) : Means env t z := by
  subst same
  exact means.of_eq (eq_of_getLsbD_eq value)

theorem toNat_append_eq (x : BitVec w) (z : BitVec n) : (x ++ z).toNat = x.toNat * 2 ^ n + z.toNat := by
  rw [toNat_append, ← Nat.shiftLeft_add_eq_or_of_lt z.isLt, Nat.shiftLeft_eq]

/-! ## Constants -/

theorem means_bvConst32 {value : Nat} (bound : value < 2 ^ 32) : Means env (bvConst32 w value) (BitVec.ofNat w value) := by
  rw [bvConst32, Nat.mod_eq_of_lt bound]
  exact .const value

theorem means_bvConst64 {value : Nat} (bound : value < 2 ^ 64) : Means env (bvConst64 w value) (BitVec.ofNat w value) := by
  rw [bvConst64, Nat.mod_eq_of_lt bound]
  exact .const value

theorem means_padZeros (width : Nat) (means : Means env t x) (sum : n = width + w) : Means env (padZeros width t) (x.setWidth n) := by
  induction width using Nat.strong_induction_on generalizing w t x with
  | _ width ih =>
    have zero : ∀ m, (0#m ++ x).toNat = (x.setWidth (m + w)).toNat := by
      intro m
      rw [toNat_append_eq, toNat_setWidth, Nat.mod_eq_of_lt]
      · simp
      · exact x.isLt.trans_le (Nat.pow_le_pow_right (by omega) (by omega))
    rw [padZeros]
    split
    · have part : Means env (.concat (bvConst64 64 0) t) (0#64 ++ x) := (means_bvConst64 (by omega)).concat means
      have rest := ih (width - 64) (by omega) part (by omega)
      refine rest.of_eq (eq_of_toNat_eq ?_)
      rw [toNat_setWidth, zero, toNat_setWidth, toNat_setWidth,
        Nat.mod_eq_of_lt (x.isLt.trans_le (Nat.pow_le_pow_right (by omega) (by omega)))]
    · have part : Means env (.concat (bvConst64 width 0) t) (0#(width) ++ x) := (means_bvConst64 (by omega)).concat means
      refine means_of_toNat part sum.symm ?_
      rw [zero, sum]

theorem means_bvZExtConst {value : Nat} (bound : value < 2 ^ 64) : Means env (bvZExtConst w value) (BitVec.ofNat w value) := by
  rw [bvZExtConst]
  split
  · exact means_bvConst64 bound
  · refine (means_padZeros (w - 64) (means_bvConst64 bound) (by omega)).of_eq ?_
    refine eq_of_toNat_eq ?_
    rw [toNat_setWidth, toNat_ofNat, toNat_ofNat, Nat.mod_eq_of_lt bound]

theorem means_bvZero (w : Nat) : Means env (bvZero w) 0#w := means_bvZExtConst (by omega)

theorem means_bvOne (w : Nat) : Means env (bvOne w) 1#w := means_bvZExtConst (by omega)

theorem means_bvMinusOne (backend : Backend) (w : Nat) : Means env (bvMinusOne backend w) (BitVec.allOnes w) := by
  have low : Means env (bvConst64 64 (BitVec.allOnes 64).toNat) (BitVec.allOnes 64) := by
    have means : Means env (bvConst64 64 (BitVec.allOnes 64).toNat)
        (BitVec.ofNat 64 (BitVec.allOnes 64).toNat) := means_bvConst64 (BitVec.isLt _)
    rwa [ofNat_toNat, setWidth_eq] at means
  rw [bvMinusOne, bvSExtConst.eq_def]
  split
  · rename_i narrow
    refine (means_bvConst64 (BitVec.isLt _)).of_eq (eq_of_getLsbD_eq fun i bound => ?_)
    rw [ofNat_toNat, getLsbD_setWidth, getLsbD_allOnes, getLsbD_allOnes]
    simp [show i < 64 by omega]
  · cases backend with
    | stp optimizeDivides =>
      refine (low.signExtend (by omega)).of_eq (eq_of_getLsbD_eq fun i bound => ?_)
      rw [getLsbD_signExtend, getLsbD_allOnes, getLsbD_allOnes,
        show (BitVec.allOnes 64).msb = true from rfl]
      by_cases inLow : i < 64
      · simp [inLow, bound]
      · simp [inLow, bound]
    | z3 =>
      refine means_of_toNat ((Means.const _).concat low) (by omega) ?_
      have positive := Nat.two_pow_pos (w - 64)
      have product : 2 ^ w = 2 ^ (w - 64) * 2 ^ 64 := by
        rw [← Nat.pow_add]
        congr 1
        omega
      rw [if_pos (by rfl), toNat_append_eq, toNat_ofNat, Nat.mod_eq_of_lt (by omega), toNat_allOnes, toNat_allOnes, product, Nat.sub_mul]
      omega

/-! ## Shifts by constants -/

section

variable (means : Means env t x)
include means

theorem means_bvExtract {top bottom : Nat} (ordered : bottom ≤ top) (within : top < w) (same : top - bottom + 1 = n) :
    Means env (bvExtract t top bottom) (x.extractLsb' bottom n) := by
  subst same
  exact means.extract ordered within

theorem decides_bvBoolExtract {bit : Nat} (within : bit < w) : Decides env (bvBoolExtract t bit) (x.getLsbD bit) := by
  have one : Means env (bvExtract t bit bit) (x.extractLsb' bit 1) := means_bvExtract means le_rfl within (by omega)
  have decides := one.compare .eq (means_bvOne 1)
  suffices same : (x.extractLsb' bit 1 == 1#1) = x.getLsbD bit by
    rw [← same]
    exact decides
  rw [Bool.eq_iff_iff, beq_iff_eq]
  constructor
  · intro same
    have first := congrArg (fun y => y.getLsbD 0) same
    simpa using first
  · intro set
    refine eq_of_getLsbD_eq fun i bound => ?_
    have zero : i = 0 := by omega
    subst zero
    simpa using set

theorem means_bvRightShift (shift : Nat) : Means env (bvRightShift t shift) (x >>> shift) := by
  simp only [bvRightShift, means.length]
  split
  · rename_i none
    subst none
    exact means
  · split
    · exact (means_bvZero w).of_eq (ushiftRight_eq_zero (by omega)).symm
    · have upper : Means env (bvExtract t (w - 1) shift) (x.extractLsb' shift (w - shift)) :=
        means_bvExtract means (by omega) (by omega) (by omega)
      refine means_of_bits ((means_bvZero shift).concat upper) (by omega) fun i bound => ?_
      rw [getLsbD_append, getLsbD_ushiftRight, getLsbD_extractLsb']
      by_cases low : i < w - shift
      · simp [low]
      · simp [low, getLsbD_of_ge x (shift + i) (by omega)]

theorem means_bvLeftShift (shift : Nat) : Means env (bvLeftShift t shift) (x <<< shift) := by
  simp only [bvLeftShift, means.length]
  split
  · rename_i none
    subst none
    exact means.of_eq (shiftLeft_zero x).symm
  · split
    · exact (means_bvZero w).of_eq (shiftLeft_eq_zero (by omega)).symm
    · have lower : Means env (bvExtract t (w - shift - 1) 0) (x.extractLsb' 0 (w - shift)) :=
        means_bvExtract means (by omega) (by omega) (by omega)
      refine means_of_bits (lower.concat (means_bvZero shift)) (by omega) fun i bound => ?_
      rw [getLsbD_append, getLsbD_shiftLeft, getLsbD_extractLsb']
      by_cases low : i < shift
      · simp [low]
      · simp [low, bound, show i - shift < w - shift by omega]

end

theorem means_constructAShrByConstant (backend : Backend) (means : Means env t x) {isSigned : Handle}
    (signed : Decides env isSigned x.msb) (shift : Nat) :
    Means env (constructAShrByConstant backend t shift isSigned) (if shift < w then x.sshiftRight shift else 0#w) := by
  simp only [constructAShrByConstant, means.length]
  split
  · rename_i none
    subst none
    refine means.of_eq ?_
    split
    · exact sshiftRight_zero.symm
    · have empty : w = 0 := by omega
      subst empty
      exact Subsingleton.elim _ _
  · split
    · rw [if_neg (by omega)]
      exact means_bvZero w
    · rw [if_pos (by omega)]
      have upper : Means env (bvExtract t (w - 1) shift) (x.extractLsb' shift (w - shift)) :=
        means_bvExtract means (by omega) (by omega) (by omega)
      have negative : Means env (.concat (bvMinusOne backend shift) (bvExtract t (w - 1) shift))
          ((BitVec.allOnes shift ++ x.extractLsb' shift (w - shift)).cast (show shift + (w - shift) = w by omega)) :=
        ((means_bvMinusOne backend shift).concat upper).of_cast (by omega) rfl
      refine (Means.ite signed negative (means_bvRightShift means shift)).of_eq (eq_of_getLsbD_eq fun i bound => ?_)
      rw [getLsbD_sshiftRight]
      cases sign : x.msb with
      | false =>
        by_cases low : shift + i < w
        · simp [low, show i < w by omega]
        · simp [low, getLsbD_of_ge x (shift + i) (by omega)]
      | true =>
        rw [if_pos rfl, getLsbD_cast, getLsbD_append, getLsbD_extractLsb', getLsbD_allOnes]
        by_cases low : i < w - shift
        · simp [low, show shift + i < w by omega, show i < w by omega]
        · simp [low, show ¬ shift + i < w by omega, show i < w by omega,
            show i - (w - shift) < shift by omega]

/-! ## Shifts by terms -/

def AmountFits (backend : Backend) (amount width : Nat) : Prop :=
  match backend with
  | .stp _ => Nat.size width ≤ amount
  | .z3 => amount = width

theorem amountFits_self (backend : Backend) (w : Nat) : AmountFits backend w w := by
  cases backend with
  | stp optimizeDivides => exact Nat.size_le.mpr Nat.lt_two_pow_self
  | z3 => rfl

theorem AmountFits.lt_two_pow {backend : Backend} (fits : AmountFits backend n w) : w < 2 ^ n := by
  cases backend with
  | stp optimizeDivides => exact Nat.size_le.mp fits
  | z3 => exact fits ▸ Nat.lt_two_pow_self

section Amounts

variable {backend : Backend} {shift : Handle} {a : BitVec n}

section

variable (amount : Means env shift a) (fits : AmountFits backend n w) (narrow : w < 2 ^ 32)
include amount fits narrow

theorem decides_amountIs {i : Nat} (inside : i < w) :
    ∃ b, Decides env (amountIs backend shift w i) b ∧ (a.toNat < w → b = decide (a.toNat = i)) := by
  cases backend with
  | stp optimizeDivides =>
    have positive : 0 < Nat.size w := Nat.size_pos.mpr (by omega)
    have bounded : w < 2 ^ Nat.size w := Nat.lt_size_self w
    have enough : Nat.size w ≤ n := fits
    have low : Means env (bvExtract shift (Nat.size w - 1) 0) (a.extractLsb' 0 (Nat.size w)) :=
      means_bvExtract amount (by omega) (by omega) (by omega)
    have constant : Means env (bvConst32 (Nat.size w) i) (BitVec.ofNat (Nat.size w) i) := means_bvConst32 (by omega)
    refine ⟨_, low.compare .eq constant, fun less => ?_⟩
    rw [Comparison.apply, Bool.eq_iff_iff, beq_iff_eq, decide_eq_true_iff, ← toNat_inj,
      extractLsb'_toNat, toNat_ofNat, Nat.shiftRight_zero,
      Nat.mod_eq_of_lt (less.trans bounded), Nat.mod_eq_of_lt (inside.trans bounded)]
  | z3 =>
    have same : n = w := fits
    subst same
    have bounded : n < 2 ^ n := Nat.lt_two_pow_self
    have constant : Means env (bvConst32 n i) (BitVec.ofNat n i) := means_bvConst32 (by omega)
    refine ⟨_, amount.compare .eq constant, fun _ => ?_⟩
    rw [Comparison.apply, Bool.eq_iff_iff, beq_iff_eq, decide_eq_true_iff, ← toNat_inj,
      toNat_ofNat, Nat.mod_eq_of_lt (inside.trans bounded)]

theorem means_cases {shifted : Nat → Handle} {y : Nat → BitVec w}
    (values : ∀ i < w, Means env (shifted i) (y i)) (last : Means env t x) (amounts : List Nat) (inside : ∀ i ∈ amounts, i < w) :
    ∃ v, Means env (amounts.foldr
        (fun i res => .ite (amountIs backend shift w i) (shifted i) res) t) v ∧
      (a.toNat < w → v = if a.toNat ∈ amounts then y a.toNat else x) := by
  induction amounts with
  | nil => exact ⟨x, last, fun _ => by rw [if_neg List.not_mem_nil]⟩
  | cons i rest ih =>
    obtain ⟨v, means, selected⟩ := ih fun j member => inside j (List.mem_cons_of_mem i member)
    have here := inside i List.mem_cons_self
    obtain ⟨b, decides, compared⟩ := decides_amountIs amount fits narrow here
    refine ⟨_, .ite decides (values i here) means, fun less => ?_⟩
    rw [compared less, selected less]
    by_cases same : a.toNat = i
    · simp [same]
    · simp [same]

theorem means_shiftCases {shifted : Nat → Handle} {y : Nat → BitVec w}
    (values : ∀ i < w, Means env (shifted i) (y i)) (last : Means env t x) {cases : Nat} (inside : cases ≤ w) :
    ∃ v, Means env (shiftCases backend shift w shifted cases t) v ∧ (a.toNat < w → v = if a.toNat < cases then y a.toNat else x) := by
  obtain ⟨v, means, selected⟩ := means_cases amount fits narrow values last (List.range cases)
    fun i member => (List.mem_range.mp member).trans_le inside
  exact ⟨v, means, fun less => by rw [selected less]; simp only [List.mem_range]⟩

end

theorem means_unlessOvershift (amount : Means env shift a) (bounded : w < 2 ^ n) (narrow : w < 2 ^ 32) (means : Means env t x) :
    Means env (unlessOvershift shift w t) (if a.toNat < w then x else 0#w) := by
  have width : Means env (bvConst32 shift.length w) (BitVec.ofNat n w) := by
    rw [amount.length]
    exact means_bvConst32 narrow
  refine (Means.ite (amount.compare .ult width) means (means_bvZero w)).of_eq ?_
  simp [BitVec.ult, Nat.mod_eq_of_lt bounded]

variable (means : Means env t x) (amount : Means env shift a) (fits : AmountFits backend n w) (narrow : w < 2 ^ 32)

include means amount fits narrow

theorem means_bvVarLeftShift : Means env (bvVarLeftShift backend t shift) (x <<< a) := by
  obtain ⟨v, built, selected⟩ := means_shiftCases amount fits narrow (fun i _ => means_bvLeftShift means i) (means_bvZero w) le_rfl
  simp only [bvVarLeftShift, means.length]
  refine (means_unlessOvershift amount fits.lt_two_pow narrow built).of_eq ?_
  rw [shiftLeft_eq']
  split
  · rename_i less
    rw [selected less, if_pos less]
  · exact (shiftLeft_eq_zero (by omega)).symm

theorem means_bvVarRightShift : Means env (bvVarRightShift backend t shift) (x >>> a) := by
  obtain ⟨v, built, selected⟩ := means_shiftCases amount fits narrow (fun i _ => means_bvRightShift means i) (means_bvZero w) le_rfl
  simp only [bvVarRightShift, means.length]
  refine (means_unlessOvershift amount fits.lt_two_pow narrow built).of_eq ?_
  rw [ushiftRight_eq']
  split
  · rename_i less
    rw [selected less, if_pos less]
  · exact (ushiftRight_eq_zero (by omega)).symm

theorem means_bvVarArithRightShift (positive : 0 < w) :
    Means env (bvVarArithRightShift backend t shift) (if a.toNat < w then x.sshiftRight' a else 0#w) := by
  have signed : Decides env (bvBoolExtract t (w - 1)) x.msb := by
    rw [msb_eq_getLsbD_last]
    exact decides_bvBoolExtract means (by omega)
  have values : ∀ i < w, Means env (constructAShrByConstant backend t i (bvBoolExtract t (w - 1))) (x.sshiftRight i) := by
    intro i less
    refine (means_constructAShrByConstant backend means signed i).of_eq ?_
    rw [if_pos less]
  obtain ⟨v, built, selected⟩ := means_shiftCases amount fits narrow values (values (w - 1) (by omega)) (Nat.sub_le w 1)
  simp only [bvVarArithRightShift, means.length]
  refine (means_unlessOvershift amount fits.lt_two_pow narrow built).of_eq ?_
  split
  · rename_i less
    rw [selected less, sshiftRight_eq']
    split
    · rfl
    · congr 1
      omega
  · rfl

end Amounts

end Values

end NeuroMerge.Builder
