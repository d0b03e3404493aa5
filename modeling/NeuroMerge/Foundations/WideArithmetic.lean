import Mathlib.Tactic.Linarith
import Mathlib.Tactic.Ring

/-!
# Arithmetic at twice the width

The sum, difference or product of two numbers of `w` bits fits into `2 * w` bits,
where it can be compared with the range that `w` bits have. Sums and differences
that stay at `w` bits are off by at most one period.
-/

namespace NeuroMerge.WideArithmetic

open BitVec

variable {w : Nat}

theorem period_double (positive : 0 < w) : (2 : Int) ^ w = 2 * 2 ^ (w - 1) := by
  obtain ⟨n, rfl⟩ := Nat.exists_eq_succ_of_ne_zero (Nat.ne_of_gt positive)
  simp only [Nat.succ_eq_add_one, Nat.add_sub_cancel]
  ring

theorem period_wide : (2 : Int) ^ (w * 2) = 2 ^ w * 2 ^ w := by
  ring

theorem half_wide (positive : 0 < w) : (2 : Int) ^ (w * 2 - 1) = 2 * (2 ^ (w - 1) * 2 ^ (w - 1)) := by
  have split : w * 2 - 1 = (w - 1) + (w - 1) + 1 := by omega
  rw [split, pow_succ, pow_add]
  ring

theorem half_positive : (1 : Int) ≤ 2 ^ (w - 1) :=
  one_le_pow₀ (by omega)

theorem toNat_bounds (a : BitVec w) : 0 ≤ (a.toNat : Int) ∧ (a.toNat : Int) < 2 ^ w := by
  have below := a.isLt
  constructor
  · omega
  · exact_mod_cast below

theorem toInt_bounds (a : BitVec w) : -2 ^ (w - 1) ≤ a.toInt ∧ a.toInt < 2 ^ (w - 1) :=
  ⟨a.le_toInt, toInt_lt⟩

theorem ofInt_toNat (n : Nat) (a : BitVec w) : BitVec.ofInt n a.toNat = a.setWidth n := by
  rw [ofInt_natCast, ofNat_toNat]

theorem ofInt_sub (n : Nat) (x y : Int) : BitVec.ofInt n (x - y) = BitVec.ofInt n x - BitVec.ofInt n y := by
  rw [Int.sub_eq_add_neg, ofInt_add, ofInt_neg, ← BitVec.sub_eq_add_neg]

theorem setWidth_ofInt {n : Nat} (narrower : w ≤ n) (r : Int) : (BitVec.ofInt n r).setWidth w = BitVec.ofInt w r := by
  apply eq_of_toNat_eq
  have divides : (2 ^ w : Int) ∣ 2 ^ n := pow_dvd_pow 2 narrower
  have modulo : (0 : Int) ≤ r % 2 ^ n := Int.emod_nonneg r (by positivity)
  apply Int.ofNat_inj.mp
  simp only [toNat_setWidth, toNat_ofInt, Nat.cast_pow, Nat.cast_ofNat, Int.natCast_emod, Int.toNat_of_nonneg modulo]
  rw [Int.emod_emod_of_dvd r divides, Int.toNat_of_nonneg (Int.emod_nonneg r (by positivity))]

theorem toNat_wide (positive : 0 < w) {r : Int} (above : -2 ^ w < r) (below : r < 2 ^ (w * 2)) :
    2 ^ w - 1 < ((BitVec.ofInt (w * 2) r).toNat : Int) ↔ ¬ (0 ≤ r ∧ r < 2 ^ w) := by
  have two : (2 : Int) ≤ 2 ^ w := by
    rw [period_double positive]
    have half : (1 : Int) ≤ 2 ^ (w - 1) := half_positive
    omega
  have square : (2 : Int) ^ w * 2 ≤ 2 ^ w * 2 ^ w := by gcongr
  have modulo : (0 : Int) ≤ r % 2 ^ (w * 2) := Int.emod_nonneg r (by positivity)
  rw [toNat_ofInt]
  simp only [Nat.cast_pow, Nat.cast_ofNat]
  by_cases negative : r < 0
  · have wraps : r % 2 ^ (w * 2) = r + 2 ^ (w * 2) := by
      rw [← Int.add_emod_right, Int.emod_eq_of_lt]
      · rw [period_wide]
        omega
      · omega
    rw [wraps, period_wide]
    omega
  · rw [Int.emod_eq_of_lt (by omega) below]
    omega

theorem toInt_wide (positive : 0 < w) {r : Int} (above : -2 ^ (w * 2 - 1) ≤ r)
    (below : r < 2 ^ (w * 2 - 1)) : (BitVec.ofInt (w * 2) r).toInt = r :=
  toInt_ofInt_eq_self (by omega) above below

theorem toInt_wraps (positive : 0 < w) {r : Int} (above : -2 ^ w ≤ r) (below : r < 2 ^ w) :
    (BitVec.ofInt w r).toInt = if r < -2 ^ (w - 1) then r + 2 ^ w else if r < 2 ^ (w - 1) then r else r - 2 ^ w := by
  have double := period_double positive
  have period : ((2 ^ w : Nat) : Int) = 2 ^ w := by push_cast; rfl
  split
  · have shifted : BitVec.ofInt w r = BitVec.ofInt w (r + 2 ^ w) := by
      apply eq_of_toInt_eq
      rw [toInt_ofInt, toInt_ofInt, ← period, Int.add_bmod_right]
    rw [shifted]
    exact toInt_ofInt_eq_self positive (by omega) (by omega)
  · split
    · exact toInt_ofInt_eq_self positive (by omega) (by omega)
    · have shifted : BitVec.ofInt w r = BitVec.ofInt w (r - 2 ^ w) := by
        apply eq_of_toInt_eq
        rw [toInt_ofInt, toInt_ofInt, ← period, Int.sub_bmod_right]
      rw [shifted]
      exact toInt_ofInt_eq_self positive (by omega) (by omega)

end NeuroMerge.WideArithmetic
