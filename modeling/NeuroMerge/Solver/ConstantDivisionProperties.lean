import Mathlib.Data.BitVec
import Mathlib.Data.Nat.Log
import Mathlib.Tactic.Ring
import Mathlib.Tactic.Linarith
import NeuroMerge.Solver.ConstantDivision

/-!
# The constants are right

The two constants of a multiplication have no common bit and differ by the factor. The
shifts and sums of a division give the quotient.
-/

namespace NeuroMerge.ConstantDivision

open BitVec hiding lt_trichotomy mul_sub two_mul

open Bits64

/-! ## Multiplication -/

section Multiplication

variable {x p q add sub : BitVec 64} {k low high : Nat}

def Lowest (x : BitVec 64) (low : Nat) : Prop := low < 64 ∧ x.toNat % 2 ^ (low + 1) = 2 ^ low

theorem exists_lowest (notZero : x ≠ 0#64) : ∃ low, Lowest x low ∧
    ∀ i, (x.getLsbD i = true ∧ ∀ j < i, x.getLsbD j = false) ↔ i = low := by
  have someBit : ∃ i, x.getLsbD i = true := by
    by_contra none
    refine notZero (eq_of_getLsbD_eq fun i _ => ?_)
    simpa using fun set => none ⟨i, set⟩
  let low := Nat.find someBit
  have set : x.getLsbD low = true := Nat.find_spec someBit
  have below : ∀ j < low, x.getLsbD j = false := fun j less =>
    Bool.eq_false_iff.mpr (Nat.find_min someBit less)
  have bound : low < 64 := lt_of_getLsbD set
  have rest : x.toNat % 2 ^ low = 0 := by
    refine Nat.eq_of_testBit_eq fun j => ?_
    rw [Nat.testBit_mod_two_pow, Nat.zero_testBit]
    by_cases less : j < low
    · have off := below j less
      rw [BitVec.getLsbD] at off
      rw [off, Bool.and_false]
    · simp [less]
  refine ⟨low, ⟨bound, ?_⟩, fun i => ⟨fun ⟨on, first⟩ => ?_, fun same => same ▸ ⟨set, below⟩⟩⟩
  · have bit : x.toNat / 2 ^ low % 2 = 1 := by
      rw [BitVec.getLsbD, Nat.testBit_eq_decide_div_mod_eq] at set
      exact of_decide_eq_true set
    rw [Nat.mod_pow_succ, rest, bit]
    simp
  · rcases lt_trichotomy i low with less | same | more
    · rw [below i less] at on
      cases on
    · exact same
    · rw [first low more] at set
      cases set

theorem isolate_eq (notZero : x ≠ 0#64) : ∃ low, Lowest x low ∧ isolateRightmostBit x = 1#64 <<< low := by
  obtain ⟨low, lowest, only⟩ := exists_lowest notZero
  refine ⟨low, lowest, eq_of_getLsbD_eq fun i bound => ?_⟩
  have isLow := only i
  rw [isolateRightmostBit, ← twoPow_eq, getLsbD_twoPow, getLsbD_and, getLsbD_neg]
  have place : decide (low < 64) = true := decide_eq_true lowest.1
  rw [place, Bool.true_and]
  by_cases same : low = i
  · subst same
    obtain ⟨on, first⟩ := isLow.mpr rfl
    have none : decide (∃ j < low, x.getLsbD j = true) = false := by
      refine decide_eq_false fun ⟨j, less, set⟩ => ?_
      rw [first j less] at set
      cases set
    rw [on, none]
    simp [lowest.1]
  · rw [decide_eq_false same]
    by_cases on : x.getLsbD i = true
    · have some : decide (∃ j < i, x.getLsbD j = true) = true := by
        refine decide_eq_true ?_
        by_contra none
        refine same (isLow.mp ⟨on, fun j less => ?_⟩).symm
        exact Bool.eq_false_iff.mpr fun set => none ⟨j, less, set⟩
      rw [on, some]
      simp [bound]
    · rw [Bool.eq_false_iff.mpr on, Bool.false_and]

theorem indexOfSingleBit_shift : ∀ k < 64, indexOfSingleBit (1#64 <<< k) = k := by decide +kernel

theorem indexOfRightmostBit_eq (notZero : x ≠ 0#64) :
    ∃ low, Lowest x low ∧ isolateRightmostBit x = 1#64 <<< low ∧ indexOfRightmostBit x = low := by
  obtain ⟨low, lowest, isolated⟩ := isolate_eq notZero
  refine ⟨low, lowest, isolated, ?_⟩
  rw [indexOfRightmostBit, isolated, indexOfSingleBit_shift low lowest.1]

/-- No bit of `x` is below `k`, or none is there or beyond. -/
def Above (k : Nat) (x : BitVec 64) : Prop := ∀ j < k, x.getLsbD j = false

def Below (k : Nat) (x : BitVec 64) : Prop := ∀ j, k ≤ j → x.getLsbD j = false

theorem above_iff : Above k x ↔ x.toNat % 2 ^ k = 0 := by
  constructor
  · intro above
    refine Nat.eq_of_testBit_eq fun j => ?_
    rw [Nat.testBit_mod_two_pow, Nat.zero_testBit]
    by_cases less : j < k
    · rw [show x.toNat.testBit j = false from above j less, Bool.and_false]
    · simp [less]
  · intro multiple j less
    have bit := congrArg (·.testBit j) multiple
    simp only [Nat.testBit_mod_two_pow, Nat.zero_testBit, less, decide_true, Bool.true_and] at bit
    exact bit

theorem Lowest.ge (lowest : Lowest x low) (above : Above k x) : k ≤ low := by
  by_contra less
  have multiple := above_iff.mp above
  have divides : 2 ^ (low + 1) ∣ 2 ^ k := Nat.pow_dvd_pow 2 (by omega)
  have zero : x.toNat % 2 ^ (low + 1) = 0 := Nat.mod_eq_zero_of_dvd (divides.trans (Nat.dvd_of_mod_eq_zero multiple))
  have same := lowest.2
  omega

theorem toNat_shift (bound : low < 64) : (1#64 <<< low).toNat = 2 ^ low := by
  rw [← twoPow_eq, toNat_twoPow]
  exact Nat.mod_eq_of_lt (Nat.pow_lt_pow_right (by omega) bound)

theorem Lowest.carry (lowest : Lowest x low) : Above (low + 1) (x + 1#64 <<< low) := by
  obtain ⟨bound, same⟩ := lowest
  refine above_iff.mpr ?_
  have divides : 2 ^ (low + 1) ∣ 2 ^ 64 := Nat.pow_dvd_pow 2 (by omega)
  rw [toNat_add, toNat_shift bound, Nat.mod_mod_of_dvd _ divides, Nat.add_mod, same,
    Nat.mod_eq_of_lt (Nat.pow_lt_pow_right (by omega) (Nat.lt_succ_self low)), ← two_mul,
    Nat.pow_succ']
  exact Nat.mod_self _

theorem getLsbD_shift (bound : k < 64) (i : Nat) : (1#64 <<< k).getLsbD i = decide (k = i) := by
  rw [← twoPow_eq, getLsbD_twoPow, decide_eq_true bound, Bool.true_and]

theorem or_shift (bound : k < 64) (clear : x.getLsbD k = false) : x ||| 1#64 <<< k = x + 1#64 <<< k := by
  refine (add_eq_or_of_and_eq_zero _ _ (eq_of_getLsbD_eq fun i _ => ?_)).symm
  rw [getLsbD_and, getLsbD_shift bound]
  by_cases same : k = i
  · rw [← same, clear]
    simp
  · simp [same]

theorem xor_shift (bound : k < 64) (set : x.getLsbD k = true) : x ^^^ 1#64 <<< k = x - 1#64 <<< k := by
  have clear : (x ^^^ 1#64 <<< k).getLsbD k = false := by
    rw [getLsbD_xor, set, getLsbD_shift bound]
    simp
  rw [BitVec.eq_sub_iff_add_eq, ← or_shift bound clear]
  refine eq_of_getLsbD_eq fun i _ => ?_
  rw [getLsbD_or, getLsbD_xor, getLsbD_shift bound]
  by_cases same : k = i
  · rw [← same, set]
    simp
  · simp [same]

theorem Lowest.set (lowest : Lowest x low) : x.getLsbD low = true := by
  have same := lowest.2
  rw [Nat.mod_pow_succ] at same
  rw [BitVec.getLsbD, Nat.testBit_eq_decide_div_mod_eq]
  refine decide_eq_true ?_
  obtain off | on := Nat.mod_two_eq_zero_or_one (x.toNat / 2 ^ low)
  · rw [off] at same
    omega
  · exact on

theorem Lowest.above (lowest : Lowest x low) : Above low x := by
  have same := lowest.2
  have divides : 2 ^ low ∣ 2 ^ (low + 1) := Nat.pow_dvd_pow 2 (by omega)
  refine above_iff.mpr ?_
  rw [← Nat.mod_mod_of_dvd _ divides, same, Nat.mod_self]

theorem Lowest.clear (lowest : Lowest x low) : Above (low + 1) (x ^^^ 1#64 <<< low) := by
  intro j less
  rw [getLsbD_xor, getLsbD_shift lowest.1]
  by_cases same : low = j
  · rw [← same, lowest.set]
    simp
  · rw [lowest.above j (by omega)]
    simp [same]

theorem isolate_zero : isolateRightmostBit 0#64 = 0#64 := by decide

/-- What the loop keeps: the constants have no common bit, their bits are below those of the
rest, and the rest and the constants make the factor. -/
structure Splits (m : BitVec 64) (k : Nat) (x add sub : BitVec 64) : Prop where
  restAbove : Above k x
  addBelow : Below k add
  subBelow : Below k sub
  disjoint : ∀ i, add.getLsbD i = true → sub.getLsbD i = false
  sum : m = x + add - sub

theorem Below.or_shift (below : Below k x) (less : k ≤ low) (bound : low < 64) : Below (low + 1) (x ||| 1#64 <<< low) := by
  intro j more
  rw [getLsbD_or, below j (by omega), getLsbD_shift bound]
  simp [show low ≠ j by omega]

theorem Below.mono (below : Below k x) (less : k ≤ low) : Below low x :=
  fun j more => below j (less.trans more)

theorem shift_succ (low : Nat) : 1#64 <<< (low + 1) = 1#64 <<< low + 1#64 <<< low := by
  rw [shiftLeft_add, shiftLeft_eq_mul_twoPow _ 1, ← mul_two]
  rfl

theorem shift_half (bound : k + 1 < 64) : 1#64 <<< (k + 1) >>> 1 = 1#64 <<< k := by
  refine eq_of_getLsbD_eq fun i _ => ?_
  rw [getLsbD_ushiftRight, getLsbD_shift bound, getLsbD_shift (by omega)]
  exact decide_eq_decide.mpr (by omega)

theorem set_of_and_shift (bound : k < 64) (common : x &&& 1#64 <<< k ≠ 0#64) : x.getLsbD k = true := by
  by_contra off
  refine common (eq_of_getLsbD_eq fun i _ => ?_)
  rw [getLsbD_and, getLsbD_shift bound, getLsbD_zero]
  by_cases same : k = i
  · rw [← same, Bool.eq_false_iff.mpr off, Bool.false_and]
  · simp [same]

theorem xor_eq_or_of_clear (bound : k < 64) (clear : x.getLsbD k = false) : x ^^^ 1#64 <<< k = x ||| 1#64 <<< k := by
  refine eq_of_getLsbD_eq fun i _ => ?_
  rw [getLsbD_xor, getLsbD_or, getLsbD_shift bound]
  by_cases same : k = i
  · rw [← same, clear]
    simp
  · simp [same]

theorem region_end (lowest : Lowest x low) :
    ∃ high, low < high ∧ high ≤ 64 ∧
      (if isolateRightmostBit (x + 1#64 <<< low) ≠ 0#64 then
        indexOfSingleBit (isolateRightmostBit (x + 1#64 <<< low)) else 64) = high ∧
      Above (high + 1) ((x + 1#64 <<< low) ^^^ isolateRightmostBit (x + 1#64 <<< low)) ∧
      (x + 1#64 <<< low) ^^^ isolateRightmostBit (x + 1#64 <<< low) = x + 1#64 <<< low - 1#64 <<< high := by
  by_cases none : x + 1#64 <<< low = 0#64
  · refine ⟨64, lowest.1, le_rfl, ?_, ?_, ?_⟩
    · rw [none, isolate_zero]
      rfl
    · rw [none, isolate_zero]
      intro j _
      simp
    · rw [none, isolate_zero]
      decide
  · obtain ⟨high, highest, isolated⟩ := isolate_eq none
    have notZero : 1#64 <<< high ≠ 0#64 := by
      intro zero
      have bit := getLsbD_shift highest.1 high
      rw [zero] at bit
      simp at bit
    refine ⟨high, highest.ge lowest.carry, highest.1.le, ?_, ?_, ?_⟩
    · rw [isolated, if_pos notZero, indexOfSingleBit_shift high highest.1]
    · rw [isolated]
      exact highest.clear
    · rw [isolated, xor_shift highest.1 highest.set]

theorem add_upper (below : Below high add) (bound : high ≤ 64) :
    (if high ≠ 64 then add ||| 1#64 <<< high else add) = add + 1#64 <<< high ∧
      Below (high + 1) (if high ≠ 64 then add ||| 1#64 <<< high else add) ∧
      ∀ i, (if high ≠ 64 then add ||| 1#64 <<< high else add).getLsbD i = true → add.getLsbD i = true ∨ i = high := by
  by_cases inside : high ≠ 64
  · have less : high < 64 := lt_of_le_of_ne bound inside
    rw [if_pos inside]
    refine ⟨or_shift less (below high le_rfl), below.or_shift le_rfl less, fun i set => ?_⟩
    rw [getLsbD_or, getLsbD_shift less, Bool.or_eq_true] at set
    exact set.imp_right fun same => (of_decide_eq_true same).symm
  · rw [if_neg inside]
    obtain rfl := not_not.mp inside
    refine ⟨by simp, below.mono (Nat.le_succ _), fun i set => .inl set⟩

theorem multRound_spec {m : BitVec 64} (splits : Splits m k x add sub) (notZero : x ≠ 0#64) :
    ∃ next, k < next ∧ k < 64 ∧ Splits m next (multRound x add sub).1 (multRound x add sub).2.1 (multRound x add sub).2.2 := by
  obtain ⟨low, lowest, _, lowIndex⟩ := indexOfRightmostBit_eq notZero
  have above := lowest.ge splits.restAbove
  have bound := lowest.1
  obtain ⟨high, more, within, ends, rest, difference⟩ := region_end lowest
  have addBelow := splits.addBelow.mono above
  have subBelow := splits.subBelow.mono above
  have sum := splits.sum
  refine ⟨high + 1, by omega, by omega, ?_⟩
  rw [multRound]
  simp only [lowIndex, ends]
  by_cases single : high = low + 1
  · rw [if_pos single]
    refine ⟨rest, (addBelow.or_shift le_rfl bound).mono (by omega), subBelow.mono (by omega), ?_, ?_⟩
    · intro i set
      rw [getLsbD_or, getLsbD_shift bound, Bool.or_eq_true] at set
      cases set with
      | inl old => exact splits.disjoint i old
      | inr new => exact subBelow i (of_decide_eq_true new).le
    · rw [difference, or_shift bound (addBelow low le_rfl), sum, single, shift_succ]
      ring
  · rw [if_neg single]
    by_cases joins : low ≠ 0 ∧ add &&& (1#64 <<< low >>> 1) ≠ 0#64
    · obtain ⟨positive, common⟩ := joins
      obtain ⟨before, rfl⟩ := Nat.exists_eq_succ_of_ne_zero positive
      have half : 1#64 <<< (before + 1) >>> 1 = 1#64 <<< before := shift_half bound
      rw [half] at common ⊢
      have set : add.getLsbD before = true := set_of_and_shift (by omega) common
      have clear := splits.disjoint before set
      have joined : before + 1 ≠ 0 ∧ add &&& 1#64 <<< before ≠ 0#64 := ⟨positive, common⟩
      simp only [if_pos joined]
      have lowerAdd : Below high (add ^^^ 1#64 <<< before) := by
        intro j more
        rw [getLsbD_xor, addBelow j (by omega), getLsbD_shift (by omega)]
        simp [show before ≠ j by omega]
      obtain ⟨adds, newAddBelow, newAdd⟩ := add_upper lowerAdd within
      refine ⟨rest, newAddBelow, ?_, fun i inAdd => ?_, ?_⟩
      · intro j more
        rw [getLsbD_xor, subBelow j (by omega), getLsbD_shift (by omega)]
        simp [show before ≠ j by omega]
      · rw [getLsbD_xor, getLsbD_shift (by omega)]
        cases newAdd i inAdd with
        | inl old =>
          rw [getLsbD_xor, getLsbD_shift (by omega)] at old
          by_cases same : before = i
          · rw [← same, set] at old
            simp at old
          · rw [splits.disjoint i (by simpa [same] using old)]
            simp [same]
        | inr top =>
          rw [subBelow i (by omega)]
          simp [show before ≠ i by omega]
      · rw [difference, adds, xor_shift (by omega) set, xor_eq_or_of_clear (by omega) clear, or_shift (by omega) clear, sum, shift_succ]
        ring
    · simp only [if_neg joins]
      obtain ⟨adds, newAddBelow, newAdd⟩ := add_upper (addBelow.mono more.le) within
      refine ⟨rest, newAddBelow, (subBelow.or_shift le_rfl bound).mono (by omega), fun i inAdd => ?_, ?_⟩
      · rw [getLsbD_or, getLsbD_shift bound]
        cases newAdd i inAdd with
        | inl old =>
          have different : low ≠ i := by
            rintro rfl
            rw [addBelow low le_rfl] at old
            cases old
          rw [splits.disjoint i old]
          simp [different]
        | inr top =>
          rw [subBelow i (by omega)]
          simp [show low ≠ i by omega]
      · rw [difference, adds, or_shift bound (subBelow low le_rfl), sum]
        ring

theorem multLoop_spec {m : BitVec 64} (fuel : Nat) (splits : Splits m k x add sub) (enough : 0 < fuel ∧ 64 < fuel + k) :
    ∃ newAdd newSub, multLoop fuel x add sub = some (newAdd, newSub) ∧
      (∀ i, newAdd.getLsbD i = true → newSub.getLsbD i = false) ∧ m = newAdd - newSub := by
  induction fuel generalizing k x add sub with
  | zero => omega
  | succ fuel ih =>
    rw [multLoop]
    by_cases done : x = 0#64
    · refine ⟨add, sub, if_pos done, splits.disjoint, ?_⟩
      rw [splits.sum, done, BitVec.zero_add]
    · obtain ⟨next, further, inside, nextSplits⟩ := multRound_spec splits done
      obtain ⟨newAdd, newSub, loops, disjoint, sum⟩ := ih nextSplits (by omega)
      exact ⟨newAdd, newSub, by rw [if_neg done]; exact loops, disjoint, sum⟩

theorem computeMultConstants64_spec (m : BitVec 64) :
    ∃ add sub, computeMultConstants64 m = some (add, sub) ∧ (∀ i, add.getLsbD i = true → sub.getLsbD i = false) ∧ m = add - sub := by
  have start : Splits m 0 m 0#64 0#64 := by
    refine ⟨nofun, fun _ _ => getLsbD_zero, fun _ _ => getLsbD_zero, fun _ _ => getLsbD_zero, ?_⟩
    ring
  obtain ⟨add, sub, loops, disjoint, sum⟩ := multLoop_spec 65 start (by omega)
  refine ⟨add, sub, ?_, disjoint, sum⟩
  rw [computeMultConstants64, loops]
  simp [← sum]

end Multiplication

/-! ## Logarithms -/

section Logarithms

variable {x y d : BitVec 32} {k l : Nat}

def Reaches (x y : BitVec 32) (reach : Nat) : Prop :=
  ∀ i, y.getLsbD i = true ↔ ∃ j, i ≤ j ∧ j < i + reach ∧ x.getLsbD j = true

theorem Reaches.double (reaches : Reaches x y k) : Reaches x (y ||| y >>> k) (k + k) := by
  intro i
  rw [getLsbD_or, getLsbD_ushiftRight, Bool.or_eq_true, reaches, reaches]
  constructor
  · rintro (⟨j, lower, upper, on⟩ | ⟨j, lower, upper, on⟩)
    · exact ⟨j, lower, by omega, on⟩
    · exact ⟨j, by omega, by omega, on⟩
  · rintro ⟨j, lower, upper, on⟩
    by_cases near : j < i + k
    · exact .inl ⟨j, lower, near, on⟩
    · exact .inr ⟨j, by omega, by omega, on⟩

theorem reaches_fillOnes (x : BitVec 32) : Reaches x (fillOnes x) 32 := by
  have start : Reaches x x 1 := by
    intro i
    refine ⟨fun on => ⟨i, le_rfl, Nat.lt_succ_self i, on⟩, fun ⟨j, lower, upper, on⟩ => ?_⟩
    obtain rfl : j = i := by omega
    exact on
  exact start.double.double.double.double.double

theorem fillOnes_eq (lower : 2 ^ k ≤ x.toNat) (upper : x.toNat < 2 ^ (k + 1)) : fillOnes x = BitVec.ofNat 32 (2 ^ (k + 1) - 1) := by
  have highest : x.getLsbD k = true := Nat.testBit_of_two_pow_le_and_two_pow_add_one_gt lower upper
  refine eq_of_getLsbD_eq fun i bound => ?_
  rw [getLsbD_ofNat, decide_eq_true bound, Bool.true_and, Nat.testBit_two_pow_sub_one,
    Bool.eq_iff_iff, reaches_fillOnes x i, decide_eq_true_iff]
  constructor
  · rintro ⟨j, more, _, on⟩
    by_contra beyond
    have large := Nat.pow_le_pow_right (by omega : 0 < 2) (by omega : k + 1 ≤ j)
    have off : x.toNat.testBit j = false := Nat.testBit_lt_two_pow (upper.trans_le large)
    rw [BitVec.getLsbD, off] at on
    cases on
  · intro less
    exact ⟨k, by omega, by have inside := lt_of_getLsbD highest; omega, highest⟩

theorem ones_eq : ∀ k ≤ 32, ones (BitVec.ofNat 32 (2 ^ k - 1)) = BitVec.ofNat 32 k := by decide +kernel

theorem expBase2_eq : ∀ k ≤ 32, expBase2 (BitVec.ofNat 32 k) = BitVec.ofNat 32 (2 ^ k) := by
  decide +kernel

theorem log2Ceil_spec (large : 1 < d.toNat) :
    ∃ l, 1 ≤ l ∧ l ≤ 32 ∧ log2Ceil d = BitVec.ofNat 32 l ∧ 2 ^ (l - 1) < d.toNat ∧ d.toNat ≤ 2 ^ l := by
  have less : (d - 1#32).toNat = d.toNat - 1 := by
    rw [toNat_sub_of_le (by simp [le_def]; omega)]
    rfl
  have notZero : (d - 1#32).toNat ≠ 0 := by omega
  let k := Nat.log 2 (d - 1#32).toNat
  have lower : 2 ^ k ≤ (d - 1#32).toNat := Nat.pow_log_le_self 2 notZero
  have upper : (d - 1#32).toNat < 2 ^ (k + 1) := Nat.lt_pow_succ_log_self (by omega) _
  have bound : k < 32 := by
    have size := (d - 1#32).isLt
    exact (Nat.pow_lt_pow_iff_right (by omega)).mp (lower.trans_lt size)
  refine ⟨k + 1, by omega, bound, ?_, ?_, ?_⟩
  · rw [log2Ceil, ldz, fillOnes_eq lower upper, ones_eq (k + 1) bound, sub_sub_cancel]
  · rw [Nat.add_sub_cancel]
    omega
  · omega

end Logarithms

/-! ## Quotients by multiplication -/

section Quotients

theorem quotient_by_product {n d m p e : Nat} (product : m * d = p + e) (positive : 0 < d) (small : n * e < p) : n * m / p = n / d := by
  have scaled : n * m * d = n * p + n * e := by rw [Nat.mul_assoc, product, Nat.mul_add]
  have lower : n / d * d ≤ n := Nat.div_mul_le_self n d
  have upper : n + 1 ≤ (n / d + 1) * d := Nat.mul_comm d _ ▸ Nat.lt_mul_div_succ n positive
  refine Nat.div_eq_of_lt_le (Nat.le_of_mul_le_mul_right ?_ positive) (Nat.lt_of_mul_lt_mul_right (a := d) ?_)
  · calc n / d * p * d = n / d * d * p := by ring
      _ ≤ n * p := Nat.mul_le_mul_right p lower
      _ ≤ n * m * d := by omega
  · calc n * m * d < (n + 1) * p := by rw [scaled, Nat.succ_mul]; omega
      _ ≤ (n / d + 1) * d * p := Nat.mul_le_mul_right p upper
      _ = (n / d + 1) * p * d := by ring

theorem quotient_by_product_up {a d m p e : Nat} (product : m * d = p + e) (positive : 0 < d)
    (above : 0 < e) (nonzero : 0 < a) (small : a * e ≤ p) : a / d * p < a * m ∧ a * m ≤ (a / d + 1) * p := by
  have scaled : a * m * d = a * p + a * e := by rw [Nat.mul_assoc, product, Nat.mul_add]
  have more : 0 < a * e := Nat.mul_pos nonzero above
  have lower : a / d * d ≤ a := Nat.div_mul_le_self a d
  have upper : a + 1 ≤ (a / d + 1) * d := Nat.mul_comm d _ ▸ Nat.lt_mul_div_succ a positive
  constructor
  · refine Nat.lt_of_mul_lt_mul_right (a := d) ?_
    calc a / d * p * d = a / d * d * p := by ring
      _ ≤ a * p := Nat.mul_le_mul_right p lower
      _ < a * m * d := by omega
  · refine Nat.le_of_mul_le_mul_right ?_ positive
    calc a * m * d ≤ (a + 1) * p := by rw [scaled, Nat.succ_mul]; omega
      _ ≤ (a / d + 1) * d * p := Nat.mul_le_mul_right p upper
      _ = (a / d + 1) * p * d := by ring

end Quotients

/-! ## Unsigned division -/

section UnsignedDivision

variable {n d : BitVec 32} {l : Nat}

theorem shifts_eq : ∀ l ≤ 32, 1 ≤ l →
    (if (1#32).slt (BitVec.ofNat 32 l) then 1#32 else BitVec.ofNat 32 l) = 1#32 ∧
    (if (BitVec.ofNat 32 l - 1#32).slt 0#32 then 0#32 else BitVec.ofNat 32 l - 1#32) = BitVec.ofNat 32 (l - 1) := by
  decide +kernel

theorem computeUDivConstants32_spec (large : 1 < d.toNat) :
    ∃ l, 1 ≤ l ∧ l ≤ 32 ∧ 2 ^ (l - 1) < d.toNat ∧ d.toNat ≤ 2 ^ l ∧
      (computeUDivConstants32 d).mprime.toNat = 2 ^ 32 * (2 ^ l - d.toNat) / d.toNat + 1 ∧
      (computeUDivConstants32 d).sh1 = 1#32 ∧ (computeUDivConstants32 d).sh2 = BitVec.ofNat 32 (l - 1) := by
  obtain ⟨l, positive, bound, log, lower, upper⟩ := log2Ceil_spec large
  obtain ⟨first, second⟩ := shifts_eq l bound positive
  have double : 2 ^ l = 2 * 2 ^ (l - 1) := by
    rw [← Nat.pow_succ', Nat.succ_eq_add_one, Nat.sub_add_cancel positive]
  have mid : (BitVec.ofNat 32 (2 ^ l) - d).toNat = 2 ^ l - d.toNat := by
    rw [toNat_sub, toNat_ofNat]
    omega
  have less : 2 ^ 32 * (2 ^ l - d.toNat) / d.toNat < 2 ^ 32 - 1 := by
    refine Nat.div_lt_of_lt_mul ?_
    omega
  refine ⟨l, positive, bound, lower, upper, ?_, ?_, ?_⟩
  · rw [computeUDivConstants32]
    simp only [log, expBase2_eq l bound, toNat_setWidth, toNat_add, toNat_udiv, toNat_mul, mid]
    rw [show (1#64 <<< 32).toNat = 2 ^ 32 from rfl, show (1#64).toNat = 1 from rfl]
    have first : 2 ^ 32 * (2 ^ l - d.toNat) < 2 ^ 64 := by omega
    rw [Nat.mod_eq_of_lt (show 2 ^ l - d.toNat < 2 ^ 64 by omega), Nat.mod_eq_of_lt first,
      Nat.mod_eq_of_lt (show d.toNat < 2 ^ 64 by omega)]
    generalize 2 ^ 32 * (2 ^ l - d.toNat) / d.toNat = q at less ⊢
    omega
  · rw [computeUDivConstants32]
    simp only [log]
    exact first
  · rw [computeUDivConstants32]
    simp only [log]
    exact second

theorem udiv_by_one (t : BitVec 32) : ((n - t) >>> 0#32 + t) >>> 0#32 = n.udiv 1#32 := by
  simp

theorem udiv_by_constants (positive : 0 < d.toNat) (t : BitVec 32)
    (product : t = (n.setWidth 64 * (computeUDivConstants32 d).mprime.setWidth 64).extractLsb' 32 32) :
    ((n - t) >>> (computeUDivConstants32 d).sh1 + t) >>> (computeUDivConstants32 d).sh2 = n.udiv d := by
  obtain one | large := (Nat.succ_le_of_lt positive).eq_or_lt
  · obtain rfl : d = 1#32 := eq_of_toNat_eq one.symm
    exact udiv_by_one t
  obtain ⟨l, positive, bound, lower, upper, mprime, sh1, sh2⟩ := computeUDivConstants32_spec large
  have size := n.isLt
  have small := (computeUDivConstants32 d).mprime.isLt
  set m := (computeUDivConstants32 d).mprime.toNat with isM
  have total : n.toNat * m < 2 ^ 64 := by
    have both := Nat.mul_lt_mul'' size small
    omega
  have tNat : t.toNat = n.toNat * m / 2 ^ 32 := by
    rw [product, extractLsb'_toNat, toNat_mul, toNat_setWidth, toNat_setWidth, Nat.shiftRight_eq_div_pow, ← isM,
      Nat.mod_eq_of_lt (show n.toNat < 2 ^ 64 by omega),
      Nat.mod_eq_of_lt (show m < 2 ^ 64 by omega), Nat.mod_eq_of_lt total]
    exact Nat.mod_eq_of_lt (by omega)
  have tLess : t.toNat ≤ n.toNat := by
    rw [tNat]
    refine Nat.div_le_of_le_mul ?_
    rw [Nat.mul_comm]
    exact Nat.mul_le_mul_right _ small.le
  have magic : (m + 2 ^ 32) * d.toNat = 2 ^ 32 * 2 ^ l + (d.toNat - 2 ^ 32 * (2 ^ l - d.toNat) % d.toNat) := by
    have parts := Nat.div_add_mod (2 ^ 32 * (2 ^ l - d.toNat)) d.toNat
    have rest := Nat.mod_lt (2 ^ 32 * (2 ^ l - d.toNat)) (show 0 < d.toNat by omega)
    rw [mprime, Nat.add_mul, Nat.add_mul, Nat.mul_comm (_ / _)]
    omega
  have quotient : n.toNat * (m + 2 ^ 32) / (2 ^ 32 * 2 ^ l) = n.toNat / d.toNat := by
    refine quotient_by_product magic (by omega) ?_
    have bits : 0 < 2 ^ l := Nat.two_pow_pos l
    calc _ ≤ n.toNat * 2 ^ l := Nat.mul_le_mul_left _ (by omega)
      _ < 2 ^ 32 * 2 ^ l := Nat.mul_lt_mul_of_pos_right size bits
  have halves : (n.toNat - t.toNat) / 2 + t.toNat = n.toNat * (m + 2 ^ 32) / 2 ^ 32 / 2 := by
    rw [Nat.mul_add, Nat.add_mul_div_right _ _ (by omega), ← tNat]
    omega
  refine eq_of_toNat_eq ?_
  rw [sh1, sh2, ushiftRight_eq', ushiftRight_eq', toNat_ushiftRight, toNat_add, toNat_ushiftRight, toNat_sub_of_le tLess, udiv_eq,
    toNat_udiv, ← quotient, Nat.shiftRight_eq_div_pow, Nat.shiftRight_eq_div_pow,
    toNat_ofNat, toNat_ofNat, Nat.mod_eq_of_lt (show l - 1 < 2 ^ 32 by omega)]
  have shift : (n.toNat - t.toNat) / 2 ^ (1 % 2 ^ 32) + t.toNat = n.toNat * (m + 2 ^ 32) / 2 ^ 32 / 2 := halves
  rw [shift, Nat.mod_eq_of_lt (by omega), Nat.div_div_eq_div_mul, Nat.div_div_eq_div_mul, ← Nat.pow_succ', Nat.succ_eq_add_one, Nat.sub_add_cancel positive]

end UnsignedDivision

/-! ## Signed division -/

section SignedDivision

variable {n d : BitVec 32} {w k l off : Nat} {z : Int}

theorem toNat_ofInt_emod (z : Int) : ((BitVec.ofInt w z).toNat : Int) = z % 2 ^ w := by
  rw [toNat_ofInt, Int.toNat_of_nonneg (Int.emod_nonneg _ (by positivity))]
  norm_cast

theorem extract_ofInt (within : off + k ≤ w) : (BitVec.ofInt w z).extractLsb' off k = BitVec.ofInt k (z / 2 ^ off) := by
  refine eq_of_toNat_eq (Int.ofNat_inj.mp ?_)
  rw [extractLsb'_toNat, Nat.shiftRight_eq_div_pow]
  push_cast
  rw [toNat_ofInt_emod, toNat_ofInt_emod]
  obtain ⟨more, rfl⟩ := Nat.exists_eq_add_of_le within
  have parts := Int.emod_add_mul_ediv z (2 ^ (off + k + more))
  have quotient : z / 2 ^ off = z % 2 ^ (off + k + more) / 2 ^ off + 2 ^ k * (2 ^ more * (z / 2 ^ (off + k + more))) := by
    have factor : (2 : Int) ^ (off + k + more) * (z / 2 ^ (off + k + more)) =
        2 ^ k * (2 ^ more * (z / 2 ^ (off + k + more))) * 2 ^ off := by ring
    rw [factor] at parts
    conv_lhs => rw [← parts]
    exact Int.add_mul_ediv_right _ _ (by positivity)
  rw [quotient, Int.add_mul_emod_self_left]

theorem ofInt_sub (a b : Int) : BitVec.ofInt w (a - b) = BitVec.ofInt w a - BitVec.ofInt w b := by
  rw [Int.sub_eq_add_neg, ofInt_add, ofInt_neg, BitVec.sub_eq_add_neg]

theorem computeSDivConstants32_spec (large : 1 < d.toInt.natAbs) :
    ∃ l, 1 ≤ l ∧ l ≤ 31 ∧ 2 ^ (l - 1) < d.toInt.natAbs ∧ d.toInt.natAbs ≤ 2 ^ l ∧
      (computeSDivConstants32 d).mprime =
        BitVec.ofInt 32 ((2 ^ 32 * 2 ^ (l - 1) / d.toInt.natAbs + 1 : Nat) - 2 ^ 32) ∧
      (computeSDivConstants32 d).dsign = (if d.toInt < 0 then BitVec.ofInt 32 (-1) else 0#32) ∧
      (computeSDivConstants32 d).shpost = BitVec.ofNat 32 (l - 1) := by
  have lowest := le_toInt d
  have highest := toInt_lt (x := d)
  have absolute : (if (0#64).slt (d.signExtend 64) then d.signExtend 64 else -d.signExtend 64) = BitVec.ofNat 64 d.toInt.natAbs := by
    have widened : (d.signExtend 64).toInt = d.toInt := toInt_signExtend_of_le (by omega)
    have extended : d.signExtend 64 = BitVec.ofInt 64 d.toInt := rfl
    have less : (0#64).slt (d.signExtend 64) = true ↔ 0 < d.toInt := by
      rw [slt_iff_toInt_lt, widened]
      rfl
    rw [extended, ← ofInt_natCast 64 d.toInt.natAbs]
    rw [extended] at less
    by_cases positive : 0 < d.toInt
    · rw [if_pos (less.mpr positive), Int.natAbs_of_nonneg positive.le]
    · rw [if_neg (mt less.mp positive), Int.ofNat_natAbs_of_nonpos (not_lt.mp positive), ofInt_neg]
  have narrow : ((BitVec.ofNat 64 d.toInt.natAbs).setWidth 32).toNat = d.toInt.natAbs := by
    rw [toNat_setWidth, toNat_ofNat]
    omega
  obtain ⟨l, positive, bound, log, lower, upper⟩ := log2Ceil_spec (narrow ▸ large)
  rw [narrow] at lower upper
  have inside : l ≤ 31 := by
    by_contra more
    have top : 2 ^ 31 ≤ 2 ^ (l - 1) := Nat.pow_le_pow_right (by omega) (by omega)
    omega
  have notSmall : (BitVec.ofNat 32 l).ult 1#32 = false := by
    exact decide_eq_false (by simp; omega)
  have special : (if BitVec.ofNat 64 d.toInt.natAbs = 1#64 <<< 31 then 31#32
      else BitVec.ofNat 32 l) = BitVec.ofNat 32 l := by
    by_cases least : BitVec.ofNat 64 d.toInt.natAbs = 1#64 <<< 31
    · have value := congrArg BitVec.toNat least
      rw [toNat_ofNat, Nat.mod_eq_of_lt (by omega)] at value
      have same : d.toInt.natAbs = 2 ^ 31 := value
      have exact31 : l = 31 := by
        by_contra less
        have small : 2 ^ l ≤ 2 ^ 30 := Nat.pow_le_pow_right (by omega) (by omega)
        omega
      rw [if_pos least, exact31]
    · rw [if_neg least]
  have minusOne : BitVec.ofNat 32 l - 1#32 = BitVec.ofNat 32 (l - 1) := by
    refine eq_of_toNat_eq ?_
    rw [toNat_sub, toNat_ofNat, toNat_ofNat, toNat_ofNat]
    omega
  refine ⟨l, positive, inside, lower, upper, ?_, ?_, ?_⟩
  · rw [computeSDivConstants32]
    simp only [absolute, log, notSmall, Bool.false_eq_true, if_false, special, minusOne, expBase2_eq (l - 1) (by omega)]
    have power : 2 ^ (l - 1) ≤ 2 ^ 30 := Nat.pow_le_pow_right (by omega) (by omega)
    have midValue : ((BitVec.ofNat 32 (2 ^ (l - 1))).setWidth 64).toNat = 2 ^ (l - 1) := by
      rw [toNat_setWidth, toNat_ofNat]
      generalize 2 ^ (l - 1) = p at power
      omega
    have scaled : (1#64 <<< 32 * (BitVec.ofNat 32 (2 ^ (l - 1))).setWidth 64) = BitVec.ofNat 64 (2 ^ 32 * 2 ^ (l - 1)) := by
      refine eq_of_toNat_eq ?_
      rw [toNat_mul, midValue, toNat_ofNat]
      rfl
    have room : 2 ^ 32 * 2 ^ (l - 1) < 2 ^ 64 := by
      omega
    have divided : BitVec.ofNat 64 (2 ^ 32 * 2 ^ (l - 1)) / BitVec.ofNat 64 d.toInt.natAbs =
        BitVec.ofNat 64 (2 ^ 32 * 2 ^ (l - 1) / d.toInt.natAbs) := by
      refine eq_of_toNat_eq ?_
      rw [toNat_udiv, toNat_ofNat, toNat_ofNat, toNat_ofNat,
        Nat.mod_eq_of_lt room, Nat.mod_eq_of_lt (show d.toInt.natAbs < 2 ^ 64 by omega),
        Nat.mod_eq_of_lt ((Nat.div_le_self _ _).trans_lt room)]
    rw [scaled, divided, ofInt_sub, ofInt_natCast]
    refine eq_of_toNat_eq ?_
    rw [show BitVec.ofInt 32 (2 ^ 32) = 0#32 from rfl, BitVec.sub_zero, toNat_setWidth, toNat_sub, toNat_add, toNat_ofNat, toNat_ofNat,
      show (1#64 <<< 32).toNat = 2 ^ 32 from rfl, toNat_ofNat]
    omega
  · rw [computeSDivConstants32]
    refine eq_of_toInt_eq ?_
    rw [toInt_sshiftRight, Int.shiftRight_eq_div_pow]
    by_cases negative : d.toInt < 0
    · rw [if_pos negative, show (BitVec.ofInt 32 (-1)).toInt = -1 from rfl]
      omega
    · rw [if_neg negative, show (0#32).toInt = 0 from rfl]
      omega
  · rw [computeSDivConstants32]
    simp only [absolute, log, notSmall, Bool.false_eq_true, if_false, special, minusOne]

theorem signed_product {m : Nat} (bound : m ≤ 2 ^ 32) (lower : 2 ^ 31 ≤ m) :
    (n + (n.signExtend 64 * (BitVec.ofInt 32 (m - 2 ^ 32)).signExtend 64).extractLsb' 32 32).toInt = n.toInt * m / 2 ^ 32 := by
  have lowest := le_toInt n
  have highest := toInt_lt (x := n)
  have mprime : (BitVec.ofInt 32 ((m : Int) - 2 ^ 32)).toInt = m - 2 ^ 32 := toInt_ofInt_eq_self (by omega) (by omega) (by omega)
  have product : n.signExtend 64 * (BitVec.ofInt 32 ((m : Int) - 2 ^ 32)).signExtend 64 = BitVec.ofInt 64 (n.toInt * (m - 2 ^ 32)) := by
    have extended : (BitVec.ofInt 32 ((m : Int) - 2 ^ 32)).signExtend 64 =
        BitVec.ofInt 64 (m - 2 ^ 32) := congrArg (BitVec.ofInt 64) mprime
    rw [extended, ofInt_mul]
    rfl
  have quotient : n.toInt + n.toInt * (m - 2 ^ 32) / 2 ^ 32 = n.toInt * m / 2 ^ 32 := by
    rw [mul_sub, Int.sub_mul_ediv_right _ _ (by omega)]
    omega
  have sum : n + (BitVec.ofInt 64 (n.toInt * (m - 2 ^ 32))).extractLsb' 32 32 = BitVec.ofInt 32 (n.toInt * m / 2 ^ 32) := by
    rw [extract_ofInt (by omega), ← quotient, ofInt_add, ofInt_toInt]
  rw [product, sum]
  refine toInt_ofInt_eq_self (by omega) ?_ ?_
  · refine Int.le_ediv_of_mul_le (by omega) ?_
    nlinarith
  · refine Int.ediv_lt_of_lt_mul (by omega) ?_
    nlinarith

theorem rounded_quotient {a : Int} {d m p e : Nat} (product : m * d = p + e) (positive : 0 < d)
    (above : 0 < e) (room : 0 < p) (small : 0 ≤ a → a.natAbs * e < p) (smallDown : a.natAbs * e ≤ p) :
    a * m / p + (if a < 0 then 1 else 0) = a.tdiv d := by
  by_cases negative : a < 0
  · obtain ⟨b, rfl⟩ : ∃ b : Nat, a = -b := ⟨a.natAbs, by omega⟩
    rw [Int.natAbs_neg, Int.natAbs_natCast] at smallDown
    obtain ⟨lower, upper⟩ := quotient_by_product_up product positive above (by omega) smallDown
    have down : (-(b : Int)) * m / p = -((b / d : Nat) : Int) - 1 := by
      have lowerInt : ((b / d : Nat) : Int) * p < b * m := by exact_mod_cast lower
      have upperInt : (b : Int) * m ≤ ((b / d : Nat) + 1) * p := by exact_mod_cast upper
      have roomInt : (0 : Int) < p := by exact_mod_cast room
      refine le_antisymm ?_ ?_
      · refine Int.lt_add_one_iff.mp ((Int.ediv_lt_iff_lt_mul roomInt).mpr ?_)
        linarith
      · refine (Int.le_ediv_iff_mul_le roomInt).mpr ?_
        linarith
    rw [if_pos negative, down, Int.neg_tdiv, ← Int.ofNat_tdiv]
    omega
  · obtain ⟨b, rfl⟩ := Int.eq_ofNat_of_zero_le (not_lt.mp negative)
    have quotient := quotient_by_product product positive (small (by omega))
    rw [Int.natAbs_natCast] at quotient
    rw [if_neg negative, ← Int.ofNat_tdiv, ← quotient, Int.add_zero]
    rfl

theorem negated (x : BitVec 32) : (x ^^^ BitVec.ofInt 32 (-1)) - BitVec.ofInt 32 (-1) = -x := by
  have ones : BitVec.ofInt 32 (-1) = BitVec.allOnes 32 := rfl
  have minus : BitVec.allOnes 32 = -1#32 := by decide
  rw [ones, xor_allOnes, minus, sub_neg_eq_add, ← neg_eq_not_add]

theorem sdiv_by_constants (large : 1 < d.toInt.natAbs) :
    ((((n + (n.signExtend 64 * (computeSDivConstants32 d).mprime.signExtend 64).extractLsb' 32
        32).signExtend 64 >>> (computeSDivConstants32 d).shpost).extractLsb' 0 32 -
      (if n.toInt < 0 then BitVec.ofInt 32 (-1) else 0#32)) ^^^ (computeSDivConstants32 d).dsign) -
      (computeSDivConstants32 d).dsign = n.sdiv d := by
  obtain ⟨l, positive, bound, lower, upper, mprime, dsign, shpost⟩ := computeSDivConstants32_spec large
  have lowest := le_toInt n
  have highest := toInt_lt (x := n)
  set m := 2 ^ 32 * 2 ^ (l - 1) / d.toInt.natAbs + 1 with isM
  have double : 2 ^ l = 2 * 2 ^ (l - 1) := by
    rw [← Nat.pow_succ', Nat.succ_eq_add_one, Nat.sub_add_cancel positive]
  have product : m * d.toInt.natAbs = 2 ^ 32 * 2 ^ (l - 1) + (d.toInt.natAbs - 2 ^ 32 * 2 ^ (l - 1) % d.toInt.natAbs) := by
    have parts := Nat.div_add_mod (2 ^ 32 * 2 ^ (l - 1)) d.toInt.natAbs
    have rest := Nat.mod_lt (2 ^ 32 * 2 ^ (l - 1)) (show 0 < d.toInt.natAbs by omega)
    rw [isM, Nat.add_mul, Nat.mul_comm (_ / _)]
    omega
  have rest := Nat.mod_lt (2 ^ 32 * 2 ^ (l - 1)) (show 0 < d.toInt.natAbs by omega)
  have mLower : 2 ^ 31 ≤ m := by
    refine Nat.le_succ_of_le ((Nat.le_div_iff_mul_le (by omega)).mpr ?_)
    rw [double] at upper
    omega
  have mUpper : m ≤ 2 ^ 32 := Nat.div_lt_of_lt_mul (by rw [Nat.mul_comm]; exact Nat.mul_lt_mul_of_pos_right lower (by omega))
  have scale : (2 : Int) ^ 32 * 2 ^ (l - 1) = ((2 ^ 32 * 2 ^ (l - 1) : Nat) : Int) := by push_cast; rfl
  have quotient : n.toInt * m / (2 ^ 32 * 2 ^ (l - 1)) + (if n.toInt < 0 then 1 else 0) = n.toInt.tdiv d.toInt.natAbs := by
    rw [scale]
    have size : (d.toInt.natAbs - 2 ^ 32 * 2 ^ (l - 1) % d.toInt.natAbs) ≤ 2 * 2 ^ (l - 1) := by omega
    refine rounded_quotient product (by omega) (by omega) (by omega) (fun nonneg => ?_) ?_
    · calc _ ≤ n.toInt.natAbs * (2 * 2 ^ (l - 1)) := Nat.mul_le_mul_left _ size
        _ < 2 ^ 31 * (2 * 2 ^ (l - 1)) := Nat.mul_lt_mul_of_pos_right (by omega) (by omega)
        _ = 2 ^ 32 * 2 ^ (l - 1) := by ring
    · calc _ ≤ n.toInt.natAbs * (2 * 2 ^ (l - 1)) := Nat.mul_le_mul_left _ size
        _ ≤ 2 ^ 31 * (2 * 2 ^ (l - 1)) := Nat.mul_le_mul_right _ (by omega)
        _ = 2 ^ 32 * 2 ^ (l - 1) := by ring
  have low : ∀ x : BitVec 64, (x >>> BitVec.ofNat 32 (l - 1)).extractLsb' 0 32 = x.extractLsb' (l - 1) 32 := by
    intro x
    refine eq_of_getLsbD_eq fun i inside => ?_
    rw [getLsbD_extractLsb', getLsbD_extractLsb', ushiftRight_eq',
      getLsbD_ushiftRight, toNat_ofNat, Nat.mod_eq_of_lt (by omega), Nat.zero_add]
  have shifted : ((n + (n.signExtend 64 * (computeSDivConstants32 d).mprime.signExtend 64).extractLsb'
        32 32).signExtend 64 >>> (computeSDivConstants32 d).shpost).extractLsb' 0 32 =
      BitVec.ofInt 32 (n.toInt * m / (2 ^ 32 * 2 ^ (l - 1))) := by
    rw [shpost, low, mprime, BitVec.signExtend, signed_product mUpper mLower,
      extract_ofInt (by omega), Int.ediv_ediv_of_nonneg (by omega)]
  have towardsZero : BitVec.ofInt 32 (n.toInt * m / (2 ^ 32 * 2 ^ (l - 1))) - (if n.toInt < 0 then BitVec.ofInt 32 (-1) else 0#32) =
      BitVec.ofInt 32 (n.toInt.tdiv d.toInt.natAbs) := by
    rw [← quotient, ofInt_add]
    split
    · rw [ofInt_neg, sub_neg_eq_add]
    · rw [BitVec.sub_zero]
      exact (BitVec.add_zero _).symm
  have signed : n.sdiv d = BitVec.ofInt 32 (n.toInt.tdiv d.toInt) := by
    refine eq_of_toInt_eq ?_
    rw [toInt_sdiv, toInt_ofInt]
  rw [shifted, towardsZero, dsign, signed]
  by_cases negative : d.toInt < 0
  · rw [if_pos negative, Int.ofNat_natAbs_of_nonpos negative.le, Int.tdiv_neg, ofInt_neg, negated, neg_neg]
  · rw [if_neg negative, xor_zero, BitVec.sub_zero, Int.natAbs_of_nonneg (not_lt.mp negative)]

end SignedDivision

end NeuroMerge.ConstantDivision
