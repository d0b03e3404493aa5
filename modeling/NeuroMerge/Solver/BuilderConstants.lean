import NeuroMerge.Solver.BuilderShifts
import NeuroMerge.Solver.ConstantDivisionProperties

/-!
# Built constants, multiplications and divisions

A wide constant is built from its parts of 64 bits. A factor or a divisor that is
constant is replaced by shifts and sums, and the terms still mean the product and
the quotient.
-/

namespace NeuroMerge.Builder

open BitVec List BitVectorTerm ConstantDivision
open Symbolic (Array ConstantExpr)

variable {env : Environment Array} {w n : Nat} {t : Handle} {x : BitVec w}

/-! ## Constants -/

theorem means_value32 (bound : x.toNat < 2 ^ 32) : Means env (bvConst32 w x.toNat) x :=
  (means_bvConst32 bound).of_eq (by rw [ofNat_toNat, setWidth_eq])

theorem means_value64 (bound : x.toNat < 2 ^ 64) : Means env (bvConst64 w x.toNat) x :=
  (means_bvConst64 bound).of_eq (by rw [ofNat_toNat, setWidth_eq])

theorem upperParts_wide (value : BitVec w) (wide : 64 < w) (res : Handle) :
    upperParts ⟨w, value⟩ res =
      upperParts ⟨w - 64, value.extractLsb' 64 (w - 64)⟩ (.concat (bvConst64 (min 64 (w - 64))
        ((value.extractLsb' 64 (w - 64)).extractLsb' 0 (min 64 (w - 64))).toNat) res) := by
  rw [upperParts, if_pos wide]
  dsimp only
  rw [ConstantExpr.extract_eq value (by omega)]
  dsimp only
  rw [ConstantExpr.extract_eq _ (by omega)]

theorem means_upperParts (value : BitVec w) {low : BitVec n} (means : Means env t low) :
    ∃ v : BitVec (w - 64 + n), Means env (upperParts ⟨w, value⟩ t) v ∧ v.toNat = value.toNat / 2 ^ 64 * 2 ^ n + low.toNat := by
  induction w using Nat.strong_induction_on generalizing n t with
  | _ w ih =>
    by_cases wide : 64 < w
    · rw [upperParts_wide value wide]
      have high : (value.extractLsb' 64 (w - 64)).toNat = value.toNat / 2 ^ 64 := by
        rw [extractLsb'_toNat, Nat.shiftRight_eq_div_pow, Nat.mod_eq_of_lt]
        rw [Nat.div_lt_iff_lt_mul (by omega), ← Nat.pow_add, Nat.sub_add_cancel (by omega)]
        exact value.isLt
      generalize value.extractLsb' 64 (w - 64) = upper at high
      have small : (upper.extractLsb' 0 (min 64 (w - 64))).toNat < 2 ^ 64 :=
        (BitVec.isLt _).trans_le (Nat.pow_le_pow_right (by omega) (by omega))
      have part := (means_value64 small).concat means
      obtain ⟨v, built, number⟩ := ih (w - 64) (by omega) upper part
      have same : w - 64 - 64 + (min 64 (w - 64) + n) = w - 64 + n := by omega
      refine ⟨v.cast same, built.of_cast same rfl, ?_⟩
      have split : value.toNat / 2 ^ 64 / 2 ^ 64 * 2 ^ min 64 (w - 64) +
          value.toNat / 2 ^ 64 % 2 ^ min 64 (w - 64) = value.toNat / 2 ^ 64 := by
        rcases Nat.le_total 64 (w - 64) with le | le
        · rw [Nat.min_eq_left le, Nat.mul_comm]
          exact Nat.div_add_mod _ _
        · have bound := upper.isLt
          rw [high] at bound
          have pow := Nat.pow_le_pow_right (show 0 < 2 by omega) le
          rw [Nat.min_eq_right le, Nat.mod_eq_of_lt bound, Nat.div_eq_of_lt (bound.trans_le pow), Nat.zero_mul, Nat.zero_add]
      rw [toNat_cast, number, toNat_append_eq, extractLsb'_toNat,
        Nat.shiftRight_zero, high, Nat.pow_add, ← Nat.mul_assoc, ← Nat.add_assoc, ← Nat.add_mul,
        split]
    · rw [upperParts, if_neg wide]
      have same : n = w - 64 + n := by omega
      have pow := Nat.pow_le_pow_right (show 0 < 2 by omega) (show w ≤ 64 by omega)
      refine ⟨low.cast same, means.of_cast same rfl, ?_⟩
      rw [toNat_cast, Nat.div_eq_of_lt (value.isLt.trans_le pow), Nat.zero_mul, Nat.zero_add]

theorem means_constructConstant (x : BitVec w) (bits : w ≠ 1) : Means env (constructConstant ⟨w, x⟩) x := by
  have bound := x.isLt
  have short : ∀ k, w ≤ k → x.toNat < 2 ^ k := fun k le =>
    bound.trans_le (Nat.pow_le_pow_right (by omega) le)
  rw [constructConstant, if_neg bits]
  split
  · rename_i le
    exact means_value32 (short 32 le)
  · split
    · rename_i le
      exact means_value64 (short 64 le)
    · rename_i wide
      dsimp only at wide
      rw [ConstantExpr.extract_eq x (by omega)]
      have low : Means env _ _ := means_value64 (x.extractLsb' 0 64).isLt
      obtain ⟨v, built, number⟩ := means_upperParts x low
      refine means_of_toNat built (by omega) ?_
      rw [number, extractLsb'_toNat, Nat.shiftRight_zero, Nat.mul_comm]
      exact Nat.div_add_mod _ _

theorem isTrue_bit (x : BitVec 1) : (ConstantExpr.mk 1 x).isTrue = x.getLsbD 0 := by
  revert x
  decide

theorem decides_constructConstant (x : BitVec 1) : Decides env (constructConstant ⟨1, x⟩) (x.getLsbD 0) := by
  rw [constructConstant, if_pos rfl, isTrue_bit]
  exact .bool _

/-! ## Multiplication by a constant -/

def Total (env : Environment Array) (res : Option Handle) (v : BitVec w) : Prop :=
  match res with
  | some t => Means env t v
  | none => v = 0#w

/-- What a bit of the constants contributes. -/
def multiple (x : BitVec w) (c : BitVec 64) (j : Nat) : BitVec w :=
  if c.getLsbD j then x <<< j else 0#w

section

variable {add sub : BitVec 64} (means : Means env t x) (disjoint : ∀ i, add.getLsbD i = true → sub.getLsbD i = false)
include means disjoint

theorem addMultiple_total {res : Option Handle} {v : BitVec w} (total : Total env res v) (j : Nat) :
    ∃ res', addMultiple t add sub res j = .ok res' ∧ Total env res' (v + multiple x add j - multiple x sub j) := by
  have op := means_bvLeftShift means j
  simp only [addMultiple, multiple]
  cases adds : add.getLsbD j with
  | true =>
    rw [disjoint j adds]
    cases res with
    | none =>
      refine ⟨_, rfl, op.of_eq ?_⟩
      have zero : v = 0#w := total
      simp [zero]
    | some res =>
      refine ⟨_, rfl, (Means.arith .add (show Means env res v from total) op).of_eq ?_⟩
      simp
  | false =>
    cases subs : sub.getLsbD j with
    | true =>
      cases res with
      | none =>
        refine ⟨_, rfl, (Means.bvneg op).of_eq ?_⟩
        have zero : v = 0#w := total
        simp [zero]
      | some res =>
        refine ⟨_, rfl, (Means.arith .sub (show Means env res v from total) op).of_eq ?_⟩
        simp
    | false =>
      refine ⟨res, rfl, ?_⟩
      have same : v + (if false = true then x <<< j else 0#w) - (if false = true then x <<< j else 0#w) = v := by simp
      rwa [same]

theorem foldlM_addMultiple (bits : List Nat) {res : Option Handle} {v : BitVec w} (total : Total env res v) :
    ∃ res', bits.foldlM (addMultiple t add sub) res = .ok res' ∧
      Total env res' (v + ((bits.map (multiple x add)).sum - (bits.map (multiple x sub)).sum)) := by
  induction bits generalizing res v with
  | nil => exact ⟨res, rfl, by simpa using total⟩
  | cons j rest ih =>
    obtain ⟨next, step, here⟩ := addMultiple_total means disjoint total j
    obtain ⟨res', rests, all⟩ := ih here
    refine ⟨res', by rw [foldlM_cons, step]; exact rests, ?_⟩
    have same : v + multiple x add j - multiple x sub j + ((rest.map (multiple x add)).sum - (rest.map (multiple x sub)).sum) =
        v + (((j :: rest).map (multiple x add)).sum - ((j :: rest).map (multiple x sub)).sum) := by
      rw [map_cons, map_cons, sum_cons, sum_cons]
      ring
    rwa [← same]

end

theorem sum_multiple (x : BitVec w) (c : BitVec 64) (k : Nat) :
    ((List.range k).map (multiple x c)).sum = x * BitVec.ofNat w (c.toNat % 2 ^ k) := by
  induction k with
  | zero => simp [Nat.mod_one]
  | succ k ih =>
    rw [range_succ, map_append, sum_append, ih, map_singleton, List.sum_singleton, Nat.mod_pow_succ, ofNat_add, BitVec.mul_add, multiple,
      BitVec.getLsbD, Nat.testBit_eq_decide_div_mod_eq]
    congr 1
    rcases Nat.mod_two_eq_zero_or_one (c.toNat / 2 ^ k) with bit | bit
    · simp [bit]
    · refine eq_of_toNat_eq ?_
      rw [if_pos (decide_eq_true bit), bit, Nat.mul_one, toNat_shiftLeft, toNat_mul, toNat_ofNat, Nat.shiftLeft_eq, Nat.mul_mod_mod]

theorem truncateToNBits_eq (c : BitVec 64) (narrow : w ≤ 64) : (Bits64.truncateToNBits c w).toNat = c.toNat % 2 ^ w := by
  refine Nat.eq_of_testBit_eq fun i => ?_
  have bits : (Bits64.truncateToNBits c w).getLsbD i = (decide (i < w) && c.getLsbD i) := by
    rw [Bits64.truncateToNBits, getLsbD_and, getLsbD_ushiftRight, getLsbD_allOnes, Bool.and_comm]
    congr 1
    rw [decide_eq_decide]
    omega
  rw [Nat.testBit_mod_two_pow]
  exact bits

theorem sum_truncated (x : BitVec w) (c : BitVec 64) (narrow : w ≤ 64) :
    ((List.range 64).map (multiple x (Bits64.truncateToNBits c w))).sum = x * c.setWidth w := by
  rw [sum_multiple, Nat.mod_eq_of_lt (BitVec.isLt _), truncateToNBits_eq c narrow]
  congr 1
  refine eq_of_toNat_eq ?_
  rw [toNat_ofNat, toNat_setWidth, Nat.mod_mod]

theorem means_constructMulByConstant (means : Means env t x) (narrow : w ≤ 64) (m : BitVec 64) :
    ∃ res, constructMulByConstant t w m = .ok res ∧ Means env res (x * m.setWidth w) := by
  obtain ⟨add, sub, constants, disjoint, difference⟩ := computeMultConstants64_spec m
  have truncated : ∀ i, (Bits64.truncateToNBits add w).getLsbD i = true → (Bits64.truncateToNBits sub w).getLsbD i = false := by
    intro i set
    rw [Bits64.truncateToNBits, getLsbD_and, Bool.and_eq_true] at set
    rw [Bits64.truncateToNBits, getLsbD_and, disjoint i set.1, Bool.false_and]
  obtain ⟨res, loop, total⟩ := foldlM_addMultiple means truncated (List.range 64).reverse (show Total env none 0#w from rfl)
  rw [map_reverse, map_reverse, sum_reverse, sum_reverse,
    sum_truncated x add narrow, sum_truncated x sub narrow, BitVec.zero_add, ← BitVec.mul_sub]
    at total
  have product : x * (add.setWidth w - sub.setWidth w) = x * m.setWidth w := by
    have parts : add = m + sub := by rw [difference, BitVec.sub_add_cancel]
    rw [parts, setWidth_add _ _ narrow, BitVec.add_sub_cancel]
  refine ⟨res.getD (bvZero w), ?_, ?_⟩
  · simp only [constructMulByConstant, constants, loop]
    rfl
  · rw [← product]
    cases res with
    | some res => exact total
    | none => exact (means_bvZero w).of_eq (show _ = 0#w from total).symm

/-! ## Division by a constant -/

theorem means_constructUDivByConstant (backend : Backend) {x d : BitVec 32} (means : Means env t x) (positive : 0 < d.toNat) :
    ∃ res, constructUDivByConstant backend t d = .ok res ∧ Means env res (x.udiv d) := by
  have n64 : Means env (.concat (bvZero 32) t) (x.setWidth 64) := means_of_toNat ((means_bvZero 32).concat means) rfl (by
      rw [toNat_append_eq, toNat_setWidth, Nat.mod_eq_of_lt (by omega)]
      simp)
  obtain ⟨product, built, value⟩ := means_constructMulByConstant n64 le_rfl ((computeUDivConstants32 d).mprime.setWidth 64)
  have t1 : Means env (bvExtract product 63 32) _ := means_bvExtract value (by omega) (by omega) (n := 32) (by omega)
  have sh1 : Means env _ _ := means_value32 (computeUDivConstants32 d).sh1.isLt
  have sh2 : Means env _ _ := means_value32 (computeUDivConstants32 d).sh2.isLt
  have fits := amountFits_self backend 32
  have shifted := means_bvVarRightShift (.arith .sub means t1) sh1 fits (by omega)
  have quotient := means_bvVarRightShift (.arith .add shifted t1) sh2 fits (by omega)
  refine ⟨_, ?_, quotient.of_eq (udiv_by_constants positive _ rfl)⟩
  simp only [constructUDivByConstant, built]
  rfl

theorem means_constructSDivByConstant (optimizeDivides : Bool) {x d : BitVec 32} (means : Means env t x) (large : 1 < d.toInt.natAbs) :
    ∃ res, constructSDivByConstant (.stp optimizeDivides) t d = .ok res ∧ Means env res (x.sdiv d) := by
  obtain ⟨product, built, value⟩ := means_constructMulByConstant
    (means.signExtend (by omega : 32 ≤ 64)) le_rfl ((computeSDivConstants32 d).mprime.signExtend 64)
  have mulsh : Means env (bvExtract product 63 32) _ := means_bvExtract value (by omega) (by omega) (n := 32) (by omega)
  have wide := (Means.arith .add means mulsh).signExtend (by omega : 32 ≤ 64)
  have shpost : Means env _ _ := means_value32 (computeSDivConstants32 d).shpost.isLt
  have fits : AmountFits (.stp optimizeDivides) 32 64 := Nat.size_le.mpr (by omega)
  have shifted := means_bvVarRightShift wide shpost fits (by omega)
  have low : Means env (bvExtract (bvVarRightShift (.stp optimizeDivides) _ _) 31 0) _ :=
    means_bvExtract shifted (by omega) (by omega) (n := 32) (by omega)
  have sign := Means.ite (decides_bvBoolExtract means (by omega : 31 < 32)) (means_bvMinusOne (.stp optimizeDivides) 32) (means_bvZero 32)
  have dsign : Means env _ _ := means_value32 (computeSDivConstants32 d).dsign.isLt
  have q0 := Means.arith .sub low sign
  have quotient := Means.arith .sub (Means.arith .xor q0 dsign) dsign
  refine ⟨_, ?_, quotient.of_eq ?_⟩
  · simp only [constructSDivByConstant, built]
    rfl
  · rw [← sdiv_by_constants large]
    have negative : (x.getLsbD 31 = true) = (x.toInt < 0) := by
      rw [← msb_eq_getLsbD_last (x := x), msb_eq_toInt]
      simp
    simp only [Arithmetic.apply, negative]
    rfl

/-- The constants of every multiplicand have no bit in common, and no bit trips the assertion of
the builder, at any width. -/
theorem constructMulByConstant_exact (x : BitVec 64) :
    (∃ add sub, computeMultConstants64 x = some (add, sub) ∧ add &&& sub = 0#64 ∧ add - sub = x) ∧
      ∀ w, 2 ≤ w → w ≤ 64 → ∀ (env : Environment Array) (t : Handle) (e : BitVec w),
        Means env t e → ∃ res, constructMulByConstant t w x = .ok res ∧
          Means env res (BitVec.ofNat w (e.toNat * x.toNat)) := by
  constructor
  · obtain ⟨add, sub, constants, disjoint, difference⟩ := computeMultConstants64_spec x
    refine ⟨add, sub, constants, eq_of_getLsbD_eq fun i _ => ?_, difference.symm⟩
    rw [getLsbD_and, getLsbD_zero]
    cases set : add.getLsbD i with
    | false => rfl
    | true => exact disjoint i set
  · intro w _ narrow env t e means
    obtain ⟨res, built, product⟩ := means_constructMulByConstant means narrow x
    refine ⟨res, built, product.of_eq (eq_of_toNat_eq ?_)⟩
    rw [toNat_mul, toNat_setWidth, toNat_ofNat, Nat.mul_mod_mod]

theorem constructMulByConstant_exact_sample :
    ∃ res, constructMulByConstant (.const 8 7) 8 30#64 = .ok res ∧
      Means (fun _ _ _ _ => 0) res 210#8 :=
  (constructMulByConstant_exact 30#64).2 8 (by decide) (by decide) _ _ 7#8 (.const _)

theorem constructUDivByConstant_exact (optimizeDivides : Bool) (env : Environment Array) (t : Handle)
    (n d : BitVec 32) (means : Means env t n) (notZero : d ≠ 0#32) :
    ∃ res, constructUDivByConstant (.stp optimizeDivides) t d = .ok res ∧
      Means env res (BitVec.ofNat 32 (n.toNat / d.toNat)) := by
  have positive : 0 < d.toNat := Nat.pos_of_ne_zero fun zero => notZero (eq_of_toNat_eq zero)
  obtain ⟨res, built, quotient⟩ :=
    means_constructUDivByConstant (.stp optimizeDivides) means positive
  have less : n.toNat / d.toNat < 2 ^ 32 := (Nat.div_le_self _ _).trans_lt n.isLt
  refine ⟨res, built, quotient.of_eq (eq_of_toNat_eq ?_)⟩
  rw [udiv_eq, toNat_udiv, toNat_ofNat, Nat.mod_eq_of_lt less]

theorem constructUDivByConstant_exact_sample :
    ∃ res, constructUDivByConstant (.stp true) (.const 32 4294967295) 2147483649#32 = .ok res ∧
      Means (fun _ _ _ _ => 0) res 1#32 :=
  constructUDivByConstant_exact true _ _ 4294967295#32 2147483649#32 (.const _) (by decide)

theorem constructSDivByConstant_exact (optimizeDivides : Bool) (env : Environment Array) (t : Handle)
    (n d : BitVec 32) (means : Means env t n) (notZero : d.toInt ≠ 0) (notOne : d.toInt ≠ 1)
    (notMinusOne : d.toInt ≠ -1) :
    ∃ res, constructSDivByConstant (.stp optimizeDivides) t d = .ok res ∧
      Means env res (BitVec.ofInt 32 (n.toInt.tdiv d.toInt)) := by
  have large : 1 < d.toInt.natAbs := by omega
  obtain ⟨res, built, quotient⟩ := means_constructSDivByConstant optimizeDivides means large
  refine ⟨res, built, quotient.of_eq (eq_of_toInt_eq ?_)⟩
  rw [toInt_sdiv, toInt_ofInt]

theorem constructSDivByConstant_exact_sample :
    ∃ res, constructSDivByConstant (.stp true) (.const 32 4294967289) 2147483648#32 = .ok res ∧
      Means (fun _ _ _ _ => 0) res 0#32 :=
  constructSDivByConstant_exact true _ _ 4294967289#32 2147483648#32 (.const _) (by decide)
    (by decide) (by decide)

/-! ## Division by a power of two -/

theorem isPowerOfTwo_toNat {c : BitVec 64} (power : Bits64.isPowerOfTwo c = true) :
    ∃ k < 64, Bits64.indexOfSingleBit c = k ∧ c.toNat = 2 ^ k := by
  obtain ⟨notZero, single⟩ := of_decide_eq_true power
  obtain ⟨k, lowest, isolated⟩ := isolate_eq notZero
  have whole : Bits64.isolateRightmostBit c = c := by
    have negated : -c = ~~~(c - 1#64) := by
      rw [not_sub_one_eq_not_add_one, neg_eq_not_add]
    refine eq_of_getLsbD_eq fun i bound => ?_
    have apart := congrArg (fun x => x.getLsbD i) single
    rw [getLsbD_and, getLsbD_zero] at apart
    rw [Bits64.isolateRightmostBit, negated, getLsbD_and, getLsbD_not, decide_eq_true bound, Bool.true_and]
    revert apart
    cases c.getLsbD i <;> cases (c - 1#64).getLsbD i <;> decide
  have same : c = 1#64 <<< k := whole.symm.trans isolated
  refine ⟨k, lowest.1, by rw [same, indexOfSingleBit_shift k lowest.1], ?_⟩
  rw [same, toNat_shiftLeft, toNat_ofNat, Nat.shiftLeft_eq, Nat.mod_eq_of_lt (by omega : 1 < 2 ^ 64), Nat.one_mul]
  exact Nat.mod_eq_of_lt (Nat.pow_lt_pow_right (by omega) lowest.1)

theorem isPowerOfTwo_one : Bits64.isPowerOfTwo 1#64 = true := by decide

theorem means_shiftedQuotient (means : Means env t x) {d : BitVec w} {k : Nat}
    (power : d.toNat = 2 ^ k) : Means env (bvRightShift t k) (x.udiv d) := by
  refine (means_bvRightShift means k).of_eq (eq_of_toNat_eq ?_)
  rw [toNat_ushiftRight, udiv_eq, toNat_udiv, power, Nat.shiftRight_eq_div_pow]

theorem means_lowerRemainder (means : Means env t x) {d : BitVec w} {k : Nat} (power : d.toNat = 2 ^ k) (positive : k ≠ 0) :
    Means env (.concat (bvZero (w - k)) (bvExtract t (k - 1) 0)) (x.umod d) := by
  have bound := d.isLt
  rw [power] at bound
  have inside : k < w := (Nat.pow_lt_pow_iff_right (by omega)).mp bound
  have lower : Means env (bvExtract t (k - 1) 0) _ := means_bvExtract means (by omega) (by omega) (n := k) (by omega)
  refine means_of_toNat ((means_bvZero (w - k)).concat lower) (by omega) ?_
  rw [toNat_append_eq, extractLsb'_toNat, Nat.shiftRight_zero, umod_eq, toNat_umod, power]
  simp

theorem umod_one (x : BitVec w) {d : BitVec w} (one : d.toNat = 1) : x.umod d = 0#w := by
  refine eq_of_toNat_eq ?_
  rw [umod_eq, toNat_umod, one]
  simp [Nat.mod_one]

theorem umod_eq_sub (x d : BitVec w) : x.umod d = x - x.udiv d * d := by
  have parts : x.udiv d * d + x.umod d = x := by
    refine eq_of_toNat_eq ?_
    rw [umod_eq, udiv_eq, toNat_add, toNat_mul, toNat_udiv, toNat_umod, Nat.mod_add_mod, Nat.mul_comm, Nat.div_add_mod]
    exact Nat.mod_eq_of_lt x.isLt
  rw [BitVec.eq_sub_iff_add_eq, BitVec.add_comm]
  exact parts

end NeuroMerge.Builder
