import Mathlib.Data.Int.Log
import Mathlib.Data.Rat.Floor

/-!
# Rounding to binary64

Finite double-precision numbers as the rationals that they are. An operation on them
is the exact one followed by `round`, to the nearest number with a significand of 53
bits and among two such to the even one. Nothing overflows here: beyond `greatest` a
number stands for the infinity that the machine has.
-/

namespace NeuroMerge.Binary64

/-- The nearest integer, the even one between two. -/
def roundEven (x : ℚ) : ℤ :=
  if Int.fract x < 1 / 2 then ⌊x⌋
  else if 1 / 2 < Int.fract x then ⌊x⌋ + 1
  else if ⌊x⌋ % 2 = 0 then ⌊x⌋ else ⌊x⌋ + 1

theorem roundEven_intCast (n : ℤ) : roundEven n = n := by
  rw [roundEven, Int.fract_intCast, if_pos (by norm_num), Int.floor_intCast]

theorem floor_le_roundEven (x : ℚ) : ⌊x⌋ ≤ roundEven x := by
  rw [roundEven]
  split_ifs <;> omega

theorem roundEven_le_floor_add_one (x : ℚ) : roundEven x ≤ ⌊x⌋ + 1 := by
  rw [roundEven]
  split_ifs <;> omega

variable {x y : ℚ}

theorem roundEven_mono (le : x ≤ y) : roundEven x ≤ roundEven y := by
  have floors : ⌊x⌋ ≤ ⌊y⌋ := Int.floor_le_floor le
  by_cases same : ⌊x⌋ = ⌊y⌋
  · have fracts : Int.fract x ≤ Int.fract y := by
      rw [Int.fract, Int.fract, same]
      linarith
    rw [roundEven, roundEven, same]
    split_ifs <;> first | omega | (exfalso; linarith)
  · have apart : ⌊x⌋ + 1 ≤ ⌊y⌋ := by omega
    exact (roundEven_le_floor_add_one x).trans (apart.trans (floor_le_roundEven y))

def lastPlace (x : ℚ) : ℤ := max (Int.log 2 x - 52) (-1074)

theorem lastPlace_mono (positive : 0 < x) (le : x ≤ y) : lastPlace x ≤ lastPlace y :=
  max_le_max (Int.sub_le_sub_right (Int.log_mono_right positive le) 52) (le_refl _)

def magnitude (x : ℚ) : ℚ := roundEven (x / 2 ^ lastPlace x) * 2 ^ lastPlace x

theorem unit_pos (x : ℚ) : (0 : ℚ) < 2 ^ lastPlace x := zpow_pos two_pos _

theorem magnitude_nonneg (nonneg : 0 ≤ x) : 0 ≤ magnitude x := by
  have scaled : 0 ≤ ⌊x / 2 ^ lastPlace x⌋ := Int.floor_nonneg.mpr (div_nonneg nonneg (unit_pos x).le)
  have rounded : (0 : ℚ) ≤ roundEven (x / 2 ^ lastPlace x) := by
    exact_mod_cast scaled.trans (floor_le_roundEven _)
  exact mul_nonneg rounded (unit_pos x).le

variable {n : ℤ}

theorem pow_eq_mul_unit (place : lastPlace x ≤ n) : ∃ multiple : ℤ, (2 : ℚ) ^ n = multiple * 2 ^ lastPlace x := by
  obtain ⟨k, split⟩ := Int.le.dest place
  refine ⟨2 ^ k, ?_⟩
  rw [← split, zpow_add₀ two_ne_zero, mul_comm]
  push_cast
  rw [zpow_natCast]

theorem magnitude_le_pow (le : x ≤ 2 ^ n) (place : lastPlace x ≤ n) : magnitude x ≤ 2 ^ n := by
  obtain ⟨multiple, power⟩ := pow_eq_mul_unit place
  have scaled : x / 2 ^ lastPlace x ≤ multiple := by
    rw [div_le_iff₀ (unit_pos x), ← power]
    exact le
  have rounded : (roundEven (x / 2 ^ lastPlace x) : ℚ) ≤ multiple := by
    exact_mod_cast (roundEven_mono scaled).trans_eq (roundEven_intCast multiple)
  rw [power]
  exact mul_le_mul_of_nonneg_right rounded (unit_pos x).le

theorem pow_le_magnitude (le : 2 ^ n ≤ x) (place : lastPlace x ≤ n) : 2 ^ n ≤ magnitude x := by
  obtain ⟨multiple, power⟩ := pow_eq_mul_unit place
  have scaled : multiple ≤ x / 2 ^ lastPlace x := by
    rw [le_div_iff₀ (unit_pos x), ← power]
    exact le
  have rounded : (multiple : ℚ) ≤ roundEven (x / 2 ^ lastPlace x) := by
    exact_mod_cast (roundEven_intCast multiple).symm.trans_le (roundEven_mono scaled)
  rw [power]
  exact mul_le_mul_of_nonneg_right rounded (unit_pos x).le

/-- Numbers with the same last place are rounded to multiples of the same power of two.
Otherwise a power of two lies between them that neither crosses. -/
theorem magnitude_mono (nonneg : 0 ≤ x) (le : x ≤ y) : magnitude x ≤ magnitude y := by
  cases nonneg.eq_or_lt with
  | inl zero =>
    subst zero
    have rounded : magnitude 0 = 0 := by rw [magnitude, zero_div]; norm_num [roundEven]
    rw [rounded]
    exact magnitude_nonneg le
  | inr positive =>
    cases (lastPlace_mono positive le).eq_or_lt with
    | inl same =>
      rw [magnitude, magnitude, same]
      apply mul_le_mul_of_nonneg_right _ (unit_pos y).le
      exact_mod_cast roundEven_mono (div_le_div_of_nonneg_right le (unit_pos y).le)
    | inr places =>
      have normal : lastPlace y = Int.log 2 y - 52 := by
        rw [lastPlace, max_eq_left]
        by_contra subnormal
        have least : lastPlace y = -1074 := max_eq_right (by omega)
        have atLeast : -1074 ≤ lastPlace x := le_max_right _ _
        omega
      have above : (2 : ℚ) ^ Int.log 2 y ≤ y := by
        exact_mod_cast Int.zpow_log_le_self (b := 2) one_lt_two (positive.trans_le le)
      have below : x ≤ 2 ^ Int.log 2 y := by
        have next : x < 2 ^ (Int.log 2 x + 1) := by
          exact_mod_cast Int.lt_zpow_succ_log_self (b := 2) one_lt_two x
        have logs : Int.log 2 x + 1 ≤ Int.log 2 y := by
          have place : Int.log 2 x - 52 ≤ lastPlace x := le_max_left _ _
          omega
        exact next.le.trans (zpow_le_zpow_right₀ one_le_two logs)
      calc magnitude x ≤ 2 ^ Int.log 2 y := magnitude_le_pow below (by omega)
        _ ≤ magnitude y := pow_le_magnitude above (by omega)

def greatest : ℚ := (2 ^ 53 - 1) * 2 ^ 971

def round (x : ℚ) : ℚ := if x < 0 then -magnitude (-x) else magnitude x

theorem round_mono (le : x ≤ y) : round x ≤ round y := by
  rw [round, round]
  split_ifs with negativeX negativeY negativeY
  · exact neg_le_neg (magnitude_mono (by linarith) (by linarith))
  · have first := magnitude_nonneg (x := -x) (by linarith)
    have second := magnitude_nonneg (x := y) (by linarith)
    linarith
  · exact absurd (le.trans_lt negativeY) negativeX
  · exact magnitude_mono (by linarith) le

theorem abs_roundEven_sub_le (x : ℚ) : |(roundEven x : ℚ) - x| ≤ 1 / 2 := by
  have split : x = ⌊x⌋ + Int.fract x := (Int.floor_add_fract x).symm
  have nonneg := Int.fract_nonneg x
  have below := Int.fract_lt_one x
  rw [abs_le, roundEven]
  split_ifs <;> push_cast <;> constructor <;> linarith

theorem abs_round_sub_le (normal : 2 ^ (-1022 : ℤ) ≤ x) : |round x - x| ≤ x / 2 ^ 53 := by
  have positive : 0 < x := (zpow_pos two_pos _).trans_le normal
  have place : lastPlace x = Int.log 2 x - 52 := by
    have log : -1022 ≤ Int.log 2 x := by
      apply (Int.zpow_le_iff_le_log one_lt_two positive).mp
      exact_mod_cast normal
    rw [lastPlace, max_eq_left (by omega)]
  have unit : (2 : ℚ) ^ lastPlace x * 2 ^ 52 ≤ x := by
    have power : (2 : ℚ) ^ lastPlace x * 2 ^ 52 = 2 ^ Int.log 2 x := by
      rw [place, zpow_sub₀ two_ne_zero]
      norm_num
    rw [power]
    exact_mod_cast Int.zpow_log_le_self (b := 2) one_lt_two positive
  have scaled : x = x / 2 ^ lastPlace x * 2 ^ lastPlace x := (div_mul_cancel₀ x (unit_pos x).ne').symm
  calc |round x - x| = |(roundEven (x / 2 ^ lastPlace x) - x / 2 ^ lastPlace x) * 2 ^ lastPlace x| := by
        rw [round, if_neg (not_lt.mpr positive.le), magnitude, sub_mul, ← scaled]
    _ = |(roundEven (x / 2 ^ lastPlace x) : ℚ) - x / 2 ^ lastPlace x| * 2 ^ lastPlace x := by
        rw [abs_mul, abs_of_pos (unit_pos x)]
    _ ≤ 1 / 2 * 2 ^ lastPlace x := mul_le_mul_of_nonneg_right (abs_roundEven_sub_le _) (unit_pos x).le
    _ ≤ x / 2 ^ 53 := by
        linarith

end NeuroMerge.Binary64
