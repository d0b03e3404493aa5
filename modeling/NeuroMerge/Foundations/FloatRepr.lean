import NeuroMerge.Foundations.Binary64

/-!
# Writing a floating number

`float.__repr__`: the shortest decimal number that is rounded to the floating number,
written with an exponent if it is very small or very large.
-/

namespace NeuroMerge.Binary64

/-- The decimal number with `n` digits that is nearest to the number, as an integer and
the power of ten that it is a multiple of. -/
def nearestDecimal (x : ℚ) (n : ℕ) : ℕ × ℤ :=
  let exponent := Int.log 10 x + 1 - n
  ((roundEven (x / 10 ^ exponent)).toNat, exponent)

/-- From `n` digits on the first number that is rounded to `x`; seventeen digits always
do. -/
def shortestDecimal (x : ℚ) (n : ℕ) : ℕ → ℕ × ℤ
  | 0 => nearestDecimal x n
  | more + 1 =>
    let (m, exponent) := nearestDecimal x n
    if round (m * 10 ^ exponent) = x then (m, exponent) else shortestDecimal x (n + 1) more

def withoutTrailingZeros (digits : List Char) : List Char :=
  (digits.reverse.dropWhile (· = '0')).reverse

/-- The digits with the point behind the first `point` ones. -/
def positional (digits : List Char) (point : ℤ) : List Char :=
  if point ≤ 0 then '0' :: '.' :: (List.replicate (-point).toNat '0' ++ digits)
  else if digits.length ≤ point then
    digits ++ List.replicate (point.toNat - digits.length) '0' ++ ['.', '0']
  else digits.take point.toNat ++ '.' :: digits.drop point.toNat

def scientific (digits : List Char) (point : ℤ) : List Char :=
  let exponent := point - 1
  let power := Nat.toDigits 10 exponent.natAbs
  let mantissa := match digits with
    | [] => []
    | [digit] => [digit]
    | digit :: rest => digit :: '.' :: rest
  mantissa ++ 'e' :: (if exponent < 0 then '-' else '+') ::
    (List.replicate (2 - power.length) '0' ++ power)

def reprPositive (x : ℚ) : List Char :=
  let (m, exponent) := shortestDecimal x 1 16
  let digits := Nat.toDigits 10 m
  let point := digits.length + exponent
  let digits := withoutTrailingZeros digits
  if -4 < point ∧ point ≤ 16 then positional digits point else scientific digits point

def repr (x : ℚ) : List Char :=
  if x = 0 then ['0', '.', '0']
  else if x < 0 then '-' :: reprPositive (-x)
  else reprPositive x

example : repr (round (1 / 10)) = ['0', '.', '1'] := by decide +kernel

example : repr (round (3 / 1000000)) = ['3', 'e', '-', '0', '6'] := by decide +kernel

theorem shortestDecimal_mem (x : ℚ) (n more : ℕ) : ∃ k, shortestDecimal x n more = nearestDecimal x (n + k) := by
  induction more generalizing n with
  | zero => exact ⟨0, rfl⟩
  | succ more ih =>
    rw [shortestDecimal]
    dsimp only
    split
    · exact ⟨0, rfl⟩
    · obtain ⟨k, found⟩ := ih (n + 1)
      exact ⟨k + 1, by rw [found]; congr 1; omega⟩

theorem toDigits_pow_ten (n : ℕ) : Nat.toDigits 10 (10 ^ n) = '1' :: List.replicate n '0' := by
  induction n with
  | zero => rfl
  | succ n ih =>
    have positive : 0 < 10 ^ n := Nat.pow_pos (by decide)
    rw [Nat.toDigits_of_base_le (by decide) (by rw [pow_succ]; omega), pow_succ,
      Nat.mul_div_cancel _ (by decide), ih, Nat.mul_mod_left, List.replicate_succ']
    rfl

theorem withoutTrailingZeros_pow_ten (n : ℕ) : withoutTrailingZeros ('1' :: List.replicate n '0') = ['1'] := by
  rw [withoutTrailingZeros, List.reverse_cons, List.reverse_replicate]
  induction n with
  | zero => rfl
  | succ n ih => rw [List.replicate_succ, List.cons_append, List.dropWhile_cons_of_pos rfl, ih]

theorem nearestDecimal_below_one {x : ℚ} (half : 1 / 2 ≤ x) (below : x < 1) (n : ℕ) :
    ∃ m, nearestDecimal x (n + 1) = (m, -((n : ℤ) + 1)) ∧ 10 ^ n ≤ m ∧ m ≤ 10 ^ (n + 1) := by
  have positive : 0 < x := by linarith
  have log : Int.log 10 x = -1 := by
    apply le_antisymm
    · have upper : Int.log 10 x < 0 := (Int.lt_zpow_iff_log_lt (by decide) positive).mp (by simpa using below)
      omega
    · apply (Int.zpow_le_iff_le_log (by decide) positive).mp
      norm_num
      linarith
  have scale : x / 10 ^ (-((n : ℤ) + 1)) = x * 10 ^ (n + 1) := by
    rw [zpow_neg, div_inv_eq_mul]
    norm_cast
  have power : (0 : ℚ) < 10 ^ n := pow_pos (by norm_num) n
  have lower : ((10 ^ n : ℕ) : ℤ) ≤ roundEven (x * 10 ^ (n + 1)) := by
    rw [← roundEven_intCast ((10 ^ n : ℕ) : ℤ)]
    apply roundEven_mono
    push_cast
    rw [pow_succ]
    nlinarith
  have upper : roundEven (x * 10 ^ (n + 1)) ≤ ((10 ^ (n + 1) : ℕ) : ℤ) := by
    rw [← roundEven_intCast ((10 ^ (n + 1) : ℕ) : ℤ)]
    apply roundEven_mono
    push_cast
    rw [pow_succ]
    nlinarith
  have place : -1 + 1 - ((n + 1 : ℕ) : ℤ) = -((n : ℤ) + 1) := by
    push_cast
    ring
  refine ⟨(roundEven (x * 10 ^ (n + 1))).toNat, ?_, by omega, by omega⟩
  rw [nearestDecimal, log]
  rw [place, scale]

/-- A number from one half to one is written with a zero: before the point, or behind it
in the case of one. -/
theorem zero_mem_repr {x : ℚ} (half : 1 / 2 ≤ x) (le : x ≤ 1) : '0' ∈ repr x := by
  cases le.eq_or_lt with
  | inl isOne =>
    subst isOne
    decide +kernel
  | inr below =>
    obtain ⟨k, found⟩ := shortestDecimal_mem x 1 16
    obtain ⟨m, near, lower, upper⟩ := nearestDecimal_below_one half below k
    rw [Nat.add_comm, near] at found
    rw [repr, if_neg (by linarith), if_neg (by linarith), reprPositive, found]
    dsimp only
    cases upper.eq_or_lt with
    | inl isPower =>
      have point : (((List.replicate (k + 1) '0').length + 1 : ℕ) : ℤ) + -((k : ℤ) + 1) = 1 := by
        rw [List.length_replicate]
        push_cast
        ring
      rw [isPower, toDigits_pow_ten, withoutTrailingZeros_pow_ten, List.length_cons, point]
      decide
    | inr below =>
      have length : (Nat.toDigits 10 m).length = k + 1 := by
        have atMost : (Nat.toDigits 10 m).length ≤ k + 1 := (Nat.length_toDigits_le_iff (by decide) (Nat.succ_pos k)).mpr below
        have atLeast : ¬ (Nat.toDigits 10 m).length ≤ k := by
          intro short
          cases k with
          | zero => exact absurd short (Nat.not_le.mpr Nat.length_toDigits_pos)
          | succ k =>
            have small := (Nat.length_toDigits_le_iff (by decide) (Nat.succ_pos k)).mp short
            omega
        omega
      have point : ((Nat.toDigits 10 m).length : ℤ) + -((k : ℤ) + 1) = 0 := by
        rw [length]
        push_cast
        ring
      rw [point, if_pos (by decide), positional, if_pos (le_refl _)]
      exact List.mem_cons_self

end NeuroMerge.Binary64
