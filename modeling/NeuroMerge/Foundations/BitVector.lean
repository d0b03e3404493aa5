import Mathlib.Data.List.Basic

/-!
# Bit vectors

Facts that rewriting of bit vector terms relies on: constant folding of a
concatenation, an extraction that straddles one, what a widened value can be
equal to, and the arithmetic of single bits.
-/

namespace NeuroMerge.BitVector

open BitVec

variable {w m n : Nat}

theorem shiftLeft_or_setWidth_eq_append (a : BitVec m) (b : BitVec n) : (a.setWidth (m + n) <<< n) ||| b.setWidth (m + n) = a ++ b := by
  rw [append_def, shiftLeftZeroExtend_eq, setWidth'_eq]

theorem setWidth_sshiftRight_eq_extractLsb' (a : BitVec n) (offset : Nat)
    (within : offset + w ≤ n) : (a.sshiftRight offset).setWidth w = a.extractLsb' offset w := by
  ext i bound
  simp only [getElem_setWidth, getLsbD_sshiftRight, getElem_extractLsb']
  have first : offset + i < n := by omega
  simp [first, show i < n by omega]

theorem cast_extractLsb'_append_extractLsb' (a : BitVec m) (b : BitVec n) (offset : Nat)
    (inside : offset < n) (same : w + offset - n + (n - offset) = w) :
    (a.extractLsb' 0 (w + offset - n) ++ b.extractLsb' offset (n - offset)).cast same = (a ++ b).extractLsb' offset w := by
  ext i bound
  simp only [getElem_cast, getElem_append, getElem_extractLsb', getLsbD_append]
  split
  · simp [show offset + i < n by omega]
  · simp [show ¬ offset + i < n by omega, show i - (n - offset) = offset + i - n by omega]

theorem setWidth_signExtend {x : BitVec n} (wider : n ≤ w) : (x.signExtend w).setWidth n = x := by
  ext i bound
  have within : i < w := Nat.lt_of_lt_of_le bound wider
  simp [getLsbD_eq_getElem within, getElem_signExtend, bound]

theorem eq_signExtend_iff {a : BitVec w} {x : BitVec n} (wider : n ≤ w) :
    a = x.signExtend w ↔ x = a.setWidth n ∧ a = (a.setWidth n).signExtend w := by
  constructor
  · intro same
    have narrowed : a.setWidth n = x := by
      rw [same]
      exact setWidth_signExtend wider
    exact ⟨narrowed.symm, by rw [narrowed, same]⟩
  · intro both
    rw [both.1]
    exact both.2

theorem eq_setWidth_iff {a : BitVec w} {x : BitVec n} (wider : n ≤ w) :
    a = x.setWidth w ↔ x = a.setWidth n ∧ a = (a.setWidth n).setWidth w := by
  constructor
  · intro same
    have narrowed : a.setWidth n = x := by
      rw [same, setWidth_setWidth_of_le x wider, setWidth_eq]
    exact ⟨narrowed.symm, by rw [narrowed, same]⟩
  · intro both
    rw [both.1]
    exact both.2

theorem eq_add_iff {a k x : BitVec w} : a = k + x ↔ a - k = x := by
  rw [BitVec.sub_eq_iff_eq_add, BitVec.add_comm]

theorem eq_sub_iff {a k x : BitVec w} : a = k - x ↔ k - a = x := by
  rw [BitVec.eq_sub_iff_add_eq, BitVec.sub_eq_iff_eq_add, BitVec.add_comm, eq_comm]

section Bit

theorem ne_zero_iff_eq_one : ∀ bit : BitVec 1, ¬ bit = 0#1 ↔ bit = 1#1 := by decide

theorem ne_one_iff_eq_zero : ∀ bit : BitVec 1, ¬ bit = 1#1 ↔ bit = 0#1 := by decide

theorem and_eq_one : ∀ a b : BitVec 1, a &&& b = 1#1 ↔ a = 1#1 ∧ b = 1#1 := by decide

theorem and_eq_zero : ∀ a b : BitVec 1, a &&& b = 0#1 ↔ a = 0#1 ∨ b = 0#1 := by decide

theorem or_eq_one : ∀ a b : BitVec 1, a ||| b = 1#1 ↔ a = 1#1 ∨ b = 1#1 := by decide

theorem ofBool_eq_one : ∀ bit : Bool, BitVec.ofBool bit = 1#1 ↔ bit = true := by decide

theorem ofBool_eq_zero_iff : ∀ bit : Bool, BitVec.ofBool bit = 0#1 ↔ bit = false := by decide

theorem ofBool_eq_zero : ∀ bit : BitVec 1, BitVec.ofBool (bit == 0#1) = ~~~ bit := by decide

theorem ofBool_one_eq : ∀ a : BitVec 1, BitVec.ofBool (1#1 == a) = a := by decide

theorem ofBool_zero_eq_ofBool_zero_eq : ∀ a : BitVec 1, BitVec.ofBool (0#1 == BitVec.ofBool (0#1 == a)) = a := by decide

theorem ofBool_zero_eq_or : ∀ a b : BitVec 1, BitVec.ofBool (0#1 == a ||| b) = BitVec.ofBool (a == 0#1) &&& BitVec.ofBool (b == 0#1) := by
  decide

theorem one_xor : ∀ bit : BitVec 1, 1#1 ^^^ bit = BitVec.ofBool (0#1 == bit) := by decide

theorem add_eq_xor : ∀ a b : BitVec 1, a + b = a ^^^ b := by decide

theorem sub_eq_xor : ∀ a b : BitVec 1, a - b = a ^^^ b := by decide

theorem mul_eq_and : ∀ a b : BitVec 1, a * b = a &&& b := by decide

theorem udiv_eq_self : ∀ a b : BitVec 1, b ≠ 0#1 → a.udiv b = a := by decide

theorem sdiv_eq_self : ∀ a b : BitVec 1, b ≠ 0#1 → a.sdiv b = a := by decide

theorem umod_eq_zero : ∀ a b : BitVec 1, b ≠ 0#1 → a.umod b = 0#1 := by decide

theorem srem_eq_zero : ∀ a b : BitVec 1, b ≠ 0#1 → a.srem b = 0#1 := by decide

theorem shiftLeft_eq_and_not : ∀ a b : BitVec 1, a <<< b = a &&& ~~~ b := by decide

theorem ushiftRight_eq_and_not : ∀ a b : BitVec 1, a >>> b = a &&& ~~~ b := by decide

theorem sshiftRight_eq_self : ∀ a b : BitVec 1, a.sshiftRight' b = a := by decide

theorem ofBool_ult : ∀ a b : BitVec 1, BitVec.ofBool (a.ult b) = ~~~ a &&& b := by decide

theorem ofBool_ule : ∀ a b : BitVec 1, BitVec.ofBool (a.ule b) = ~~~ a ||| b := by decide

theorem ofBool_slt : ∀ a b : BitVec 1, BitVec.ofBool (a.slt b) = a &&& ~~~ b := by decide

theorem ofBool_sle : ∀ a b : BitVec 1, BitVec.ofBool (a.sle b) = a ||| ~~~ b := by decide

theorem ite_one_left : ∀ c b : BitVec 1, (if c = 1#1 then 1#1 else b) = c ||| b := by decide

theorem ite_zero_left : ∀ c b : BitVec 1, (if c = 1#1 then 0#1 else b) = ~~~ c &&& b := by
  decide

theorem ite_one_right : ∀ c a : BitVec 1, (if c = 1#1 then a else 1#1) = ~~~ c ||| a := by
  decide

theorem ite_zero_right : ∀ c a : BitVec 1, (if c = 1#1 then a else 0#1) = c &&& a := by decide

end Bit

end NeuroMerge.BitVector
