import NeuroMerge.Foundations.BitInterval
import NeuroMerge.Foundations.Outcome
import NeuroMerge.Solver.ValueRange

/-!
# Value ranges contain the results

Each operation on ranges returns a range with the results of the operation on
the words of its operands, and within the bits of the operands.
-/

namespace NeuroMerge.FastCex

open BitVec Symbolic ConstantDivision BitInterval

variable {a b c d x y : BitVec 64}

/-! ## Disjunctions -/

theorem and_single_ne_zero_iff {k : Nat} (within : k < 64) : x &&& 1#64 <<< k ≠ 0#64 ↔ x.getLsbD k = true := by
  rw [Ne, and_single_eq_zero_iff x within, Bool.not_eq_false]

theorem not_and_and_single_iff {k : Nat} (within : k < 64) :
    ~~~x &&& y &&& 1#64 <<< k ≠ 0#64 ↔ x.getLsbD k = false ∧ y.getLsbD k = true := by
  rw [and_single_ne_zero_iff within, getLsbD_and, getLsbD_not]
  simp [within]

theorem minORLoop_le (leftAbove : a ≤ x) (leftBelow : x ≤ b) (rightAbove : c ≤ y)
    (rightBelow : y ≤ d) (k : Nat) (bound : k ≤ 64) (left : Settled a b c k)
    (right : Settled c d a k) : minORLoop a b c d k ≤ x ||| y := by
  induction k with
  | zero => exact or_le_of_settled left right leftAbove leftBelow rightAbove rightBelow
  | succ k ih =>
    have within : k < 64 := bound
    have next := ih (Nat.le_of_lt within)
    unfold minORLoop
    dsimp only
    rw [BitVec.and_comm a (~~~c)]
    split
    · rename_i bits
      rw [not_and_and_single_iff within] at bits
      split
      · exact raise_or_le left right bits.2 leftAbove leftBelow rightAbove rightBelow
      · rename_i beyond
        apply next
        · exact left.step fun _ _ => BitVec.not_le.mp beyond
        · exact right.step fun clear _ => by rw [bits.2] at clear; cases clear
    rename_i notLeft
    rw [not_and_and_single_iff within] at notLeft
    split
    · rename_i bits
      rw [not_and_and_single_iff within] at bits
      split
      · rw [BitVec.or_comm a, BitVec.or_comm x]
        exact raise_or_le right left bits.2 rightAbove rightBelow leftAbove leftBelow
      · rename_i beyond
        apply next
        · exact left.step fun clear set => absurd ⟨clear, set⟩ notLeft
        · exact right.step fun _ _ => BitVec.not_le.mp beyond
    · rename_i notRight
      rw [not_and_and_single_iff within] at notRight
      apply next
      · exact left.step fun clear set => absurd ⟨clear, set⟩ notLeft
      · exact right.step fun clear set => absurd ⟨clear, set⟩ notRight

theorem Settled.start : Settled a b c 64 := by
  intro k above _ set
  exact absurd (lt_of_getLsbD set) (Nat.not_lt.mpr above)

theorem minOR_le (leftAbove : a ≤ x) (leftBelow : x ≤ b) (rightAbove : c ≤ y) (rightBelow : y ≤ d) : minOR a b c d ≤ x ||| y :=
  minORLoop_le leftAbove leftBelow rightAbove rightBelow 64 (Nat.le_refl 64) Settled.start Settled.start

theorem le_maxORLoop (leftAbove : a ≤ x) (leftBelow : x ≤ b) (rightAbove : c ≤ y)
    (rightBelow : y ≤ d) (k : Nat) (bound : k ≤ 64) (left : Sunk a b d k) (right : Sunk c d b k) : x ||| y ≤ maxORLoop a b c d k := by
  induction k with
  | zero => exact or_le_of_sunk left right leftAbove leftBelow rightAbove rightBelow
  | succ k ih =>
    have within : k < 64 := bound
    have next := ih (Nat.le_of_lt within)
    unfold maxORLoop
    dsimp only
    split
    · rename_i bits
      rw [and_single_ne_zero_iff within, getLsbD_and, Bool.and_eq_true] at bits
      obtain ⟨setLeft, setRight⟩ := bits
      rw [sub_single_eq setLeft, sub_single_eq setRight]
      split
      · exact or_le_lower_or left right setRight leftAbove leftBelow rightAbove rightBelow
      rename_i beyondLeft
      split
      · rw [BitVec.or_comm b, BitVec.or_comm x]
        exact or_le_lower_or right left setLeft rightAbove rightBelow leftAbove leftBelow
      · rename_i beyondRight
        apply next
        · exact left.step fun _ _ => BitVec.not_le.mp beyondLeft
        · exact right.step fun _ _ => BitVec.not_le.mp beyondRight
    · rename_i none
      rw [and_single_ne_zero_iff within, getLsbD_and, Bool.and_eq_true] at none
      apply next
      · exact left.step fun set other => absurd ⟨set, other⟩ none
      · exact right.step fun set other => absurd ⟨other, set⟩ none

theorem Sunk.start : Sunk a b d 64 := by
  intro k above set _
  exact absurd (lt_of_getLsbD set) (Nat.not_lt.mpr above)

theorem le_maxOR (leftAbove : a ≤ x) (leftBelow : x ≤ b) (rightAbove : c ≤ y) (rightBelow : y ≤ d) : x ||| y ≤ maxOR a b c d :=
  le_maxORLoop leftAbove leftBelow rightAbove rightBelow 64 (Nat.le_refl 64) Sunk.start Sunk.start

/-! ## Conjunctions -/

theorem not_lower (x : BitVec 64) (k : Nat) :
    ~~~((x &&& ~~~(1#64 <<< k)) ||| (1#64 <<< k - 1#64)) = (~~~x ||| 1#64 <<< k) &&& -(1#64 <<< k) := by
  have mirrored := lower_eq_not_raise_not x k
  unfold lower raise at mirrored
  rw [mirrored, BitVec.not_not]

theorem not_raise (x : BitVec 64) (k : Nat) :
    ~~~((x ||| 1#64 <<< k) &&& -(1#64 <<< k)) = (~~~x &&& ~~~(1#64 <<< k)) ||| (1#64 <<< k - 1#64) := by
  have mirrored := lower_eq_not_raise_not (~~~x) k
  unfold lower raise at mirrored
  rw [mirrored, BitVec.not_not]

theorem not_or_not (x y : BitVec 64) : ~~~(~~~x ||| ~~~y) = x &&& y := by
  rw [BitVec.not_or, BitVec.not_not, BitVec.not_not]

theorem maxANDLoop_eq (k : Nat) : maxANDLoop a b c d k = ~~~minORLoop (~~~b) (~~~a) (~~~d) (~~~c) k := by
  induction k with
  | zero => exact (not_or_not b d).symm
  | succ k ih =>
    unfold maxANDLoop minORLoop
    simp only [BitVec.not_not, ← not_lower, not_le_not_iff, ih]
    repeat' split
    all_goals first | rfl | exact (not_or_not _ _).symm

theorem minANDLoop_eq (k : Nat) (bound : k ≤ 64) : minANDLoop a b c d k = ~~~maxORLoop (~~~b) (~~~a) (~~~d) (~~~c) k := by
  induction k with
  | zero => exact (not_or_not a c).symm
  | succ k ih =>
    unfold minANDLoop maxORLoop
    dsimp only
    rw [ih (Nat.le_of_succ_le bound)]
    split
    · rename_i bits
      rw [and_single_ne_zero_iff bound, getLsbD_and, Bool.and_eq_true] at bits
      simp only [sub_single_eq bits.1, sub_single_eq bits.2, ← not_raise, not_le_not_iff]
      repeat' split
      all_goals first | rfl | exact (not_or_not _ _).symm
    · rfl

theorem minAND_le (leftAbove : a ≤ x) (leftBelow : x ≤ b) (rightAbove : c ≤ y) (rightBelow : y ≤ d) : minAND a b c d ≤ x &&& y := by
  unfold minAND
  rw [minANDLoop_eq 64 (Nat.le_refl 64), ← not_or_not x y, not_le_not_iff]
  exact le_maxOR (not_le_not_iff.mpr leftBelow) (not_le_not_iff.mpr leftAbove)
    (not_le_not_iff.mpr rightBelow) (not_le_not_iff.mpr rightAbove)

theorem le_maxAND (leftAbove : a ≤ x) (leftBelow : x ≤ b) (rightAbove : c ≤ y) (rightBelow : y ≤ d) : x &&& y ≤ maxAND a b c d := by
  unfold maxAND
  rw [maxANDLoop_eq 64, ← not_or_not x y, not_le_not_iff]
  exact minOR_le (not_le_not_iff.mpr leftBelow) (not_le_not_iff.mpr leftAbove)
    (not_le_not_iff.mpr rightBelow) (not_le_not_iff.mpr rightAbove)

/-! ## The bounds are attained -/

def Attained (op : BitVec 64 → BitVec 64 → BitVec 64) (a b c d v : BitVec 64) : Prop :=
  ∃ x y, (a ≤ x ∧ x ≤ b) ∧ (c ≤ y ∧ y ≤ d) ∧ op x y = v

theorem attained_left {op : BitVec 64 → BitVec 64 → BitVec 64} (right : c ≤ d) (above : a ≤ x) (below : x ≤ b) :
    Attained op a b c d (op x c) ∧ Attained op a b c d (op x d) :=
  ⟨⟨x, c, ⟨above, below⟩, ⟨BitVec.le_refl c, right⟩, rfl⟩, ⟨x, d, ⟨above, below⟩, ⟨right, BitVec.le_refl d⟩, rfl⟩⟩

theorem attained_right {op : BitVec 64 → BitVec 64 → BitVec 64} (left : a ≤ b) (above : c ≤ y) (below : y ≤ d) :
    Attained op a b c d (op a y) ∧ Attained op a b c d (op b y) :=
  ⟨⟨a, y, ⟨BitVec.le_refl a, left⟩, ⟨above, below⟩, rfl⟩, ⟨b, y, ⟨left, BitVec.le_refl b⟩, ⟨above, below⟩, rfl⟩⟩

section

variable (left : a ≤ b) (right : c ≤ d)
include left right

theorem minORLoop_attained (k : Nat) (bound : k ≤ 64) : Attained (· ||| ·) a b c d (minORLoop a b c d k) := by
  induction k with
  | zero => exact (attained_left right (BitVec.le_refl a) left).1
  | succ k ih =>
    have within : k < 64 := bound
    have next := ih (Nat.le_of_lt within)
    unfold minORLoop
    dsimp only
    rw [BitVec.and_comm a (~~~c)]
    split
    · rename_i bits
      rw [not_and_and_single_iff within] at bits
      split
      · rename_i inside
        have raised : a ≤ raise a k := BitVec.le_of_lt (lt_raise within bits.1)
        exact (attained_left right raised inside).1
      · exact next
    · split
      · rename_i bits
        rw [not_and_and_single_iff within] at bits
        split
        · rename_i inside
          have raised : c ≤ raise c k := BitVec.le_of_lt (lt_raise within bits.1)
          exact (attained_right left raised inside).1
        · exact next
      · exact next

theorem maxORLoop_attained (k : Nat) (bound : k ≤ 64) : Attained (· ||| ·) a b c d (maxORLoop a b c d k) := by
  induction k with
  | zero => exact (attained_left right left (BitVec.le_refl b)).2
  | succ k ih =>
    have within : k < 64 := bound
    have next := ih (Nat.le_of_lt within)
    unfold maxORLoop
    dsimp only
    split
    · rename_i bits
      rw [and_single_ne_zero_iff within, getLsbD_and, Bool.and_eq_true] at bits
      rw [sub_single_eq bits.1, sub_single_eq bits.2]
      split
      · rename_i inside
        exact (attained_left right inside (BitVec.le_of_lt (lower_lt bits.1))).2
      · split
        · rename_i inside
          exact (attained_right left inside (BitVec.le_of_lt (lower_lt bits.2))).2
        · exact next
    · exact next

end

theorem attained_not {v : BitVec 64} (attained : Attained (· ||| ·) (~~~b) (~~~a) (~~~d) (~~~c) v) :
    Attained (· &&& ·) a b c d (~~~v) := by
  obtain ⟨x, y, ⟨above, below⟩, ⟨aboveOther, belowOther⟩, rfl⟩ := attained
  refine ⟨~~~x, ~~~y, ⟨le_not_iff.mp below, ?_⟩, ⟨le_not_iff.mp belowOther, ?_⟩, ?_⟩
  · simpa using not_le_not_iff.mpr above
  · simpa using not_le_not_iff.mpr aboveOther
  · exact BitVec.not_or.symm

/-- The four functions return the least and the greatest values. -/
theorem bit_operations_exact (left : a ≤ b) (right : c ≤ d) :
    (Attained (· ||| ·) a b c d (minOR a b c d) ∧
      ∀ v, Attained (· ||| ·) a b c d v → minOR a b c d ≤ v) ∧
    (Attained (· ||| ·) a b c d (maxOR a b c d) ∧
      ∀ v, Attained (· ||| ·) a b c d v → v ≤ maxOR a b c d) ∧
    (Attained (· &&& ·) a b c d (minAND a b c d) ∧
      ∀ v, Attained (· &&& ·) a b c d v → minAND a b c d ≤ v) ∧
    Attained (· &&& ·) a b c d (maxAND a b c d) ∧
      ∀ v, Attained (· &&& ·) a b c d v → v ≤ maxAND a b c d := by
  have left' := not_le_not_iff.mpr left
  have right' := not_le_not_iff.mpr right
  refine ⟨⟨minORLoop_attained left right 64 (Nat.le_refl 64), ?_⟩,
    ⟨maxORLoop_attained left right 64 (Nat.le_refl 64), ?_⟩, ⟨?_, ?_⟩, ?_, ?_⟩
  · rintro v ⟨x, y, first, second, rfl⟩
    exact minOR_le first.1 first.2 second.1 second.2
  · rintro v ⟨x, y, first, second, rfl⟩
    exact le_maxOR first.1 first.2 second.1 second.2
  · unfold minAND
    rw [minANDLoop_eq 64 (Nat.le_refl 64)]
    exact attained_not (maxORLoop_attained left' right' 64 (Nat.le_refl 64))
  · rintro v ⟨x, y, first, second, rfl⟩
    exact minAND_le first.1 first.2 second.1 second.2
  · unfold maxAND
    rw [maxANDLoop_eq 64]
    exact attained_not (minORLoop_attained left' right' 64 (Nat.le_refl 64))
  · rintro v ⟨x, y, first, second, rfl⟩
    exact le_maxAND first.1 first.2 second.1 second.2

theorem bit_operations_exact_sample : Attained (· ||| ·) 2 3 4 5 (maxOR 2 3 4 5) :=
  (bit_operations_exact (by decide) (by decide)).2.1.1

/-! ## Members of a range -/

instance : Membership (BitVec 64) ValueRange := ⟨fun r v => r.mMin ≤ v ∧ v ≤ r.mMax⟩

abbrev Returns {α : Type} (post : α → Prop) (computation : Except Fault α) : Prop :=
  Satisfies (fun _ => False) post computation

theorem check_bind {α : Type} {condition : Prop} [Decidable condition] {fault : Fault}
    {rest : Unit → Except Fault α} (holds : condition) : check condition fault >>= rest = rest () := by
  unfold check
  rw [if_pos holds]
  rfl

theorem lastWord_toNat {n : Nat} (bound : n ≤ 64) : (lastWord n).toNat = 2 ^ n - 1 := by
  unfold lastWord
  split
  · rename_i zero
    simp [zero]
  · rw [toNat_ushiftRight, toNat_allOnes, Nat.shiftRight_eq_div_pow]
    have split : 2 ^ 64 = 2 ^ (64 - n) * 2 ^ n := by
      rw [← Nat.pow_add, Nat.sub_add_cancel bound]
    have positive : 0 < 2 ^ (64 - n) * 2 ^ n := by
      rw [← split]
      decide
    rw [split, Nat.mul_sub_div 0 _ _ positive, Nat.zero_div]

namespace ValueRange

variable {r s : ValueRange} {u v : BitVec 64} {m n : Nat}

theorem mem_iff : v ∈ r ↔ r.mMin ≤ v ∧ v ≤ r.mMax := Iff.rfl

theorem isEmpty_eq_false_iff : r.isEmpty = false ↔ r.mMin ≤ r.mMax := by
  unfold isEmpty
  rw [decide_eq_false_iff_not, BitVec.not_lt]

theorem not_isEmpty (member : v ∈ r) : ¬ r.isEmpty := by
  rw [Bool.not_eq_true, isEmpty_eq_false_iff]
  exact BitVec.le_trans member.1 member.2

theorem contains_iff : r.contains v ↔ v ∈ r := by
  unfold contains intersects setIntersection single
  rw [Bool.not_eq_true', isEmpty_eq_false_iff, mem_iff]
  unfold stdMax stdMin
  split <;> split <;> bv_omega

def Within (r : ValueRange) (n : Nat) : Prop := r.mMax.toNat < 2 ^ n

theorem Within.of_mem (within : r.Within n) (member : v ∈ r) : v.toNat < 2 ^ n :=
  Nat.lt_of_le_of_lt member.2 within

theorem Within.mono (within : r.Within m) (le : m ≤ n) : r.Within n :=
  Nat.lt_of_lt_of_le within (Nat.pow_le_pow_right (by decide) le)

theorem mem_single : v ∈ single u ↔ v = u := by
  constructor
  · intro member
    exact BitVec.le_antisymm member.2 member.1
  · intro equal
    rw [equal]
    exact ⟨BitVec.le_refl u, BitVec.le_refl u⟩

theorem Within.empty : empty.Within n := Nat.two_pow_pos n

theorem Within.single (small : u.toNat < 2 ^ n) : (single u).Within n := small

theorem min_eq (member : v ∈ r) : r.min = .ok r.mMin := check_bind (not_isEmpty member)

theorem max_eq (member : v ∈ r) : r.max = .ok r.mMax := check_bind (not_isEmpty member)

theorem eq_of_isFixed (fixed : r.isFixed) (member : v ∈ r) : v = r.mMin := by
  unfold isFixed at fixed
  rw [decide_eq_true_eq] at fixed
  apply BitVec.le_antisymm _ member.1
  rw [fixed]
  exact member.2

theorem mayEqual_of_mem (left : v ∈ r) (right : v ∈ s) : r.mayEqual s := by
  rw [mem_iff] at left right
  unfold mayEqual intersects setIntersection stdMax stdMin
  rw [Bool.not_eq_true', isEmpty_eq_false_iff]
  split <;> split <;> bv_omega

theorem eq_of_mustEqual (equal : r.mustEqual s) (left : u ∈ r) (right : v ∈ s) : u = v := by
  unfold mustEqual at equal
  rw [decide_eq_true_eq] at equal
  rw [eq_of_isFixed equal.1 left, eq_of_isFixed equal.2.1 right, equal.2.2]

theorem eq_of_mustBe (equal : r.mustBe u) (member : v ∈ r) : v = u := by
  unfold mustBe at equal
  rw [decide_eq_true_eq] at equal
  rw [← equal.2]
  exact eq_of_isFixed (decide_eq_true equal.1) member

theorem mem_setUnion_left (member : v ∈ r) : v ∈ r.setUnion s := by
  rw [mem_iff] at member ⊢
  unfold setUnion stdMin stdMax
  split <;> split <;> bv_omega

theorem mem_setUnion_right (member : v ∈ s) : v ∈ r.setUnion s := by
  rw [mem_iff] at member ⊢
  unfold setUnion stdMin stdMax
  split <;> split <;> bv_omega

theorem Within.setUnion (left : r.Within n) (right : s.Within n) : (r.setUnion s).Within n := by
  unfold Within ValueRange.setUnion stdMax at *
  split
  · exact right
  · exact left

theorem toNat_and_lt (inside : u.toNat < 2 ^ n) : (u &&& v).toNat < 2 ^ n := by
  exact Nat.lt_of_le_of_lt Nat.and_le_left inside

theorem toNat_or_lt (left : u.toNat < 2 ^ n) (right : v.toNat < 2 ^ n) : (u ||| v).toNat < 2 ^ n := by
  exact Nat.or_lt_two_pow left right

theorem maxANDLoop_lt (left : b.toNat < 2 ^ n) (right : d.toNat < 2 ^ n) (k : Nat) : (maxANDLoop a b c d k).toNat < 2 ^ n := by
  induction k with
  | zero => exact toNat_and_lt left
  | succ k ih =>
    unfold maxANDLoop
    dsimp only
    split
    · split
      · rw [BitVec.and_comm]
        exact toNat_and_lt right
      · exact ih
    · split
      · split
        · exact toNat_and_lt left
        · exact ih
      · exact ih

theorem maxORLoop_lt (left : b.toNat < 2 ^ n) (right : d.toNat < 2 ^ n) (k : Nat)
    (bound : k ≤ 64) : (maxORLoop a b c d k).toNat < 2 ^ n := by
  induction k with
  | zero => exact toNat_or_lt left right
  | succ k ih =>
    have next := ih (Nat.le_of_succ_le bound)
    unfold maxORLoop
    dsimp only
    split
    · rename_i bits
      rw [and_single_ne_zero_iff bound, getLsbD_and, Bool.and_eq_true] at bits
      rw [sub_single_eq bits.1, sub_single_eq bits.2]
      split
      · exact toNat_or_lt (Nat.lt_trans (lower_lt bits.1) left) right
      · split
        · exact toNat_or_lt left (Nat.lt_trans (lower_lt bits.2) right)
        · exact next
    · exact next

theorem binaryAnd_returns (left : u ∈ r) (right : v ∈ s) (leftBits : r.Within n) (rightBits : s.Within n) :
    Returns (fun out => u &&& v ∈ out ∧ out.Within n) (r.binaryAnd s) := by
  unfold binaryAnd
  rw [check_bind ⟨not_isEmpty left, not_isEmpty right⟩]
  split
  · rename_i fixed
    rw [← eq_of_isFixed fixed.1 left, ← eq_of_isFixed fixed.2 right]
    exact ⟨mem_single.mpr rfl, toNat_and_lt (leftBits.of_mem left)⟩
  · exact ⟨⟨minAND_le left.1 left.2 right.1 right.2, le_maxAND left.1 left.2 right.1 right.2⟩, maxANDLoop_lt leftBits rightBits 64⟩

theorem binaryOr_returns (left : u ∈ r) (right : v ∈ s) (leftBits : r.Within n) (rightBits : s.Within n) :
    Returns (fun out => u ||| v ∈ out ∧ out.Within n) (r.binaryOr s) := by
  unfold binaryOr
  rw [check_bind ⟨not_isEmpty left, not_isEmpty right⟩]
  split
  · rename_i fixed
    rw [← eq_of_isFixed fixed.1 left, ← eq_of_isFixed fixed.2 right]
    exact ⟨mem_single.mpr rfl, toNat_or_lt (leftBits.of_mem left) (rightBits.of_mem right)⟩
  · exact ⟨⟨minOR_le left.1 left.2 right.1 right.2, le_maxOR left.1 left.2 right.1 right.2⟩,
      maxORLoop_lt leftBits rightBits 64 (Nat.le_refl 64)⟩

/-! ## Exclusive disjunctions -/

theorem withoutRightmostBit_bit {t : BitVec 64} {k : Nat} (low : 2 ^ k < t.toNat)
    (high : t.toNat < 2 ^ (k + 1)) : (withoutRightmostBit t).getLsbD k = true := by
  have before : (t - 1#64).toNat = t.toNat - 1 := by
    have one : 1#64 ≤ t := by
      exact Nat.one_le_of_lt low
    rw [toNat_sub_of_le one]
    rfl
  unfold withoutRightmostBit
  rw [getLsbD_and, Bool.and_eq_true]
  constructor
  · exact Nat.testBit_of_two_pow_le_and_two_pow_add_one_gt (Nat.le_of_lt low) high
  · unfold BitVec.getLsbD
    exact Nat.testBit_of_two_pow_le_and_two_pow_add_one_gt (by omega) (by omega)

theorem leadingBit_eq {t : BitVec 64} {k : Nat} (low : 2 ^ k ≤ t.toNat)
    (high : t.toNat < 2 ^ (k + 1)) : leadingBit t = .ok (1#64 <<< k) := by
  have within : k < 64 := by
    by_contra outside
    have wide : 2 ^ 64 ≤ 2 ^ k := Nat.pow_le_pow_right (by decide) (Nat.le_of_not_lt outside)
    omega
  have power : (1#64 <<< k).toNat = 2 ^ k := by
    rw [← twoPow_eq, toNat_twoPow_of_lt within]
  induction t using leadingBit.induct with
  | case1 => simp at low
  | case2 t nonzero single =>
    rw [leadingBit, if_neg nonzero, if_pos single]
    have same : t.toNat = 2 ^ k := by
      rcases Nat.lt_or_eq_of_le low with above | equal
      · have bit := withoutRightmostBit_bit above high
        unfold Bits64.isPowerOfTwo at single
        rw [decide_eq_true_eq] at single
        unfold withoutRightmostBit at bit
        rw [single.2] at bit
        simp at bit
      · exact equal.symm
    have word : t = 1#64 <<< k := eq_of_toNat_eq (same.trans power.symm)
    rw [word]
    rfl
  | case3 t nonzero several ih =>
    rw [leadingBit, if_neg nonzero, if_neg several]
    have above : 2 ^ k < t.toNat := by
      rcases Nat.lt_or_eq_of_le low with above | equal
      · exact above
      · have word : t = 1#64 <<< k := eq_of_toNat_eq (equal.symm.trans power.symm)
        rw [word] at several nonzero
        exfalso
        apply several
        unfold Bits64.isPowerOfTwo
        rw [decide_eq_true_eq]
        refine ⟨nonzero, ?_⟩
        rw [← not_neg, BitVec.and_comm, and_single_eq_zero_iff _ within, getLsbD_not, getLsbD_neg_single within within]
        simp
    apply ih
    · exact Nat.ge_two_pow_of_testBit (withoutRightmostBit_bit above high)
    · exact Nat.lt_trans (withoutRightmostBit_lt nonzero) high

theorem toNat_single_sub_one {k : Nat} (bound : k ≤ 64) : (1#64 <<< k - 1#64).toNat = 2 ^ k - 1 := by
  rcases Nat.lt_or_eq_of_le bound with within | equal
  · have power : (1#64 <<< k).toNat = 2 ^ k := by
      rw [← twoPow_eq, toNat_twoPow_of_lt within]
    have one : 1#64 ≤ 1#64 <<< k := by
      rw [le_def, power]
      exact Nat.one_le_two_pow
    rw [toNat_sub_of_le one, power]
    rfl
  · rw [equal]
    rfl

theorem binaryXor_returns (left : u ∈ r) (right : v ∈ s) (leftBits : r.Within n) (rightBits : s.Within n) :
    Returns (fun out => u ^^^ v ∈ out ∧ out.Within n) (r.binaryXor s) := by
  unfold binaryXor
  have small : (u ^^^ v).toNat < 2 ^ n := by
    exact Nat.xor_lt_two_pow (leftBits.of_mem left) (rightBits.of_mem right)
  split
  · rename_i fixed
    rw [← eq_of_isFixed fixed.1 left, ← eq_of_isFixed fixed.2 right]
    exact ⟨mem_single.mpr rfl, small⟩
  · rename_i open_
    have upper : (r.mMax ||| s.mMax).toNat < 2 ^ n := toNat_or_lt leftBits rightBits
    have whole : (r.mMax ||| s.mMax).toNat = r.mMax.toNat ||| s.mMax.toNat := toNat_or ..
    have nonzero : (r.mMax ||| s.mMax).toNat ≠ 0 := by
      intro zero
      rw [whole, Nat.or_eq_zero_iff] at zero
      apply open_
      unfold isFixed
      rw [decide_eq_true_eq, decide_eq_true_eq]
      rw [mem_iff] at left right
      constructor <;> bv_omega
    have low := Nat.log2_self_le nonzero
    have high : (r.mMax ||| s.mMax).toNat < 2 ^ ((r.mMax ||| s.mMax).toNat.log2 + 1) := Nat.lt_log2_self
    generalize (r.mMax ||| s.mMax).toNat.log2 = k at low high
    have narrow : k < n := (Nat.pow_lt_pow_iff_right (by decide)).mp (Nat.lt_of_le_of_lt low upper)
    have within : k < 64 := by
      apply (Nat.pow_lt_pow_iff_right (a := 2) (by decide)).mp
      exact Nat.lt_of_le_of_lt low (BitVec.isLt _)
    rw [leadingBit_eq low high]
    have last : (1#64 <<< k <<< 1 - 1#64).toNat = 2 ^ (k + 1) - 1 := by
      rw [← shiftLeft_add, toNat_single_sub_one within]
    have leftLess : u.toNat < 2 ^ (k + 1) := by
      apply Nat.lt_of_le_of_lt (Nat.le_trans left.2 _) high
      exact Nat.left_le_or
    have rightLess : v.toNat < 2 ^ (k + 1) := by
      apply Nat.lt_of_le_of_lt (Nat.le_trans right.2 _) high
      exact Nat.right_le_or
    have result := Nat.xor_lt_two_pow leftLess rightLess
    refine ⟨⟨Nat.zero_le _, ?_⟩, ?_⟩
    · rw [le_def, last, toNat_xor]
      exact Nat.le_sub_one_of_lt result
    · unfold Within
      rw [last]
      have wider : 2 ^ (k + 1) ≤ 2 ^ n := Nat.pow_le_pow_right (by decide) narrow
      exact Nat.lt_of_lt_of_le (Nat.sub_lt (Nat.two_pow_pos _) (by decide)) wider

/-! ## Shifts -/

theorem toNat_shiftLeft_eight (small : u.toNat < 2 ^ 56) : (u <<< 8).toNat = u.toNat * 2 ^ 8 := by
  rw [toNat_shiftLeft, Nat.shiftLeft_eq, Nat.mod_eq_of_lt]
  omega

theorem concat_returns (left : u ∈ r) (right : v ∈ s) (leftBits : r.Within m)
    (rightBits : s.Within n) (room : m + 8 ≤ n) (narrow : m + 8 ≤ 64) :
    Returns (fun out => u <<< 8 ||| v ∈ out ∧ out.Within n) (r.concat s 8) := by
  have fits : 2 ^ m ≤ 2 ^ 56 := Nat.pow_le_pow_right (by decide) (by omega)
  have upper : r.mMax.toNat < 2 ^ 56 := Nat.lt_of_lt_of_le leftBits fits
  have middle : u.toNat < 2 ^ 56 := Nat.lt_of_le_of_lt left.2 upper
  have lower : r.mMin.toNat < 2 ^ 56 := Nat.lt_of_le_of_lt left.1 middle
  unfold concat binaryShiftLeft
  apply @binaryOr_returns ⟨r.mMin <<< 8, r.mMax <<< 8⟩ _ _ _ _ _ right _ rightBits
  · have above := left.1
    have below := left.2
    constructor
    · rw [le_def, toNat_shiftLeft_eight lower, toNat_shiftLeft_eight middle]
      exact Nat.mul_le_mul_right _ above
    · rw [le_def, toNat_shiftLeft_eight middle, toNat_shiftLeft_eight upper]
      exact Nat.mul_le_mul_right _ below
  · have wider : 2 ^ (m + 8) ≤ 2 ^ n := Nat.pow_le_pow_right (by decide) room
    unfold Within
    rw [toNat_shiftLeft_eight upper]
    rw [Nat.pow_add] at wider
    exact Nat.lt_of_lt_of_le (Nat.mul_lt_mul_of_pos_right leftBits (by decide)) wider

theorem concat_zero_returns (right : v ∈ s) (rightBits : s.Within n) :
    Returns (fun out => v ∈ out ∧ out.Within n) ((single 0#64).concat s 8) := by
  have zero : 0#64 ||| v = v := zero_or
  have returned := @binaryOr_returns (single 0#64) s 0#64 v n (mem_single.mpr rfl) right (.single (Nat.two_pow_pos n)) rightBits
  rw [zero] at returned
  exact returned

theorem concat_single : (single u).concat (single v) 8 = .ok (single (u <<< 8 ||| v)) := by
  have full : ∀ x : BitVec 64, ¬ (single x).isEmpty := fun x => not_isEmpty (mem_single.mpr rfl)
  have fixed : ∀ x : BitVec 64, (single x).isFixed := fun x => decide_eq_true rfl
  unfold concat binaryShiftLeft
  show (single (u <<< 8)).binaryOr (single v) = _
  unfold binaryOr
  rw [check_bind ⟨full _, full _⟩, if_pos ⟨fixed _, fixed _⟩]
  rfl

theorem isFullRange_eq (bound : n ≤ 64) : r.isFullRange n = .ok (decide (r.mMin = 0#64 ∧ r.mMax = lastWord n)) := by
  unfold isFullRange maxValueOfNBits
  rw [check_bind bound]
  rfl

theorem mem_of_full (bound : n ≤ 64) (full : r.mMin = 0#64 ∧ r.mMax = lastWord n) (small : v.toNat < 2 ^ n) : v ∈ r := by
  rw [mem_iff, full.1, full.2, le_def, le_def, lastWord_toNat bound]
  exact ⟨Nat.zero_le _, Nat.le_sub_one_of_lt small⟩

theorem fullRange_returns (bound : n ≤ 64) :
    Returns (fun out => (∀ v : BitVec 64, v.toNat < 2 ^ n → v ∈ out) ∧ out.Within n) (fullRange n) := by
  unfold fullRange maxValueOfNBits
  rw [check_bind bound]
  constructor
  · intro v small
    exact mem_of_full bound ⟨rfl, rfl⟩ small
  · unfold Within
    rw [lastWord_toNat bound]
    exact Nat.sub_lt (Nat.two_pow_pos n) (by decide)

/-! ## Signed bounds -/

theorem sext_eq (positive : 0 < n) (bound : n ≤ 64) : sext u 64 n = (u.setWidth n).signExtend 64 := by
  apply eq_of_getLsbD_eq
  intro i inside
  unfold sext Bits64.truncateToNBits
  rw [Nat.sub_self, ushiftRight_zero, and_allOnes, getLsbD_sshiftRight, getLsbD_signExtend, msb_eq_getLsbD_last, msb_eq_getLsbD_last]
  simp only [getLsbD_shiftLeft, getLsbD_setWidth, inside, decide_true, Bool.true_and, Nat.not_le.mpr inside, decide_false, Bool.not_false]
  by_cases low : i < n
  · simp [low, show 64 - n + i < 64 by omega]
  · simp [low, show ¬ 64 - n + i < 64 by omega, show 63 - (64 - n) = n - 1 by omega,
      show ¬ 63 < 64 - n by omega, show n - 1 < n by omega]

theorem sext_toInt (positive : 0 < n) (bound : n ≤ 64) : (sext u 64 n).toInt = (u.setWidth n).toInt := by
  rw [sext_eq positive bound, toInt_signExtend_of_le bound]

theorem toInt_setWidth (small : u.toNat < 2 ^ n) :
    (u.setWidth n).toInt = if 2 * u.toNat < 2 ^ n then (u.toNat : Int) else (u.toNat : Int) - (2 ^ n : Nat) := by
  rw [toInt_eq_toNat_cond, toNat_setWidth, Nat.mod_eq_of_lt small]

theorem toInt_of_half (half : 2 * u.toNat < 2 ^ 64) : u.toInt = u.toNat := by
  rw [toInt_eq_toNat_cond, if_pos half]

theorem withinBits_returns (positive : 0 < n) (bound : n < 64) (inside : r.Within n) (member : v ∈ r) : r.withinBits n = .ok () := by
  have zero : ∀ word : BitVec 64, word.toNat < 2 ^ n → word >>> n = 0#64 := by
    intro word small
    apply eq_of_toNat_eq
    rw [toNat_ushiftRight, Nat.shiftRight_eq_div_pow, Nat.div_eq_of_lt small]
    rfl
  have lower : r.mMin.toNat < 2 ^ n := inside.of_mem ⟨BitVec.le_refl _, BitVec.le_trans member.1 member.2⟩
  unfold withinBits
  rw [check_bind ⟨positive, bound⟩]
  unfold check
  rw [if_pos ⟨zero _ lower, zero _ inside⟩]
  rfl

theorem smallest_toNat (positive : 0 < n) (bound : n ≤ 64) : (1#64 <<< (n - 1)).toNat = 2 ^ (n - 1) := by
  rw [← twoPow_eq, toNat_twoPow_of_lt (by omega)]

theorem minSigned_returns (positive : 0 < n) (bound : n < 64) (inside : r.Within n) (member : v ∈ r) :
    Returns (fun least => least.toInt ≤ (v.setWidth n).toInt) (r.minSigned n) := by
  unfold minSigned
  rw [withinBits_returns positive bound inside member]
  have halves : 2 ^ n = 2 * 2 ^ (n - 1) := by
    rw [← Nat.pow_succ', Nat.succ_eq_add_one, Nat.sub_add_cancel positive]
  have room : 2 ^ n ≤ 2 ^ 63 := Nat.pow_le_pow_right (by decide) (by omega)
  have small := inside.of_mem member
  have smallest := smallest_toNat positive (Nat.le_of_lt bound)
  have above := member.1
  have below := member.2
  rw [le_def] at above below
  show (if 1#64 <<< (n - 1) ≤ r.mMax then sext (1#64 <<< (n - 1)) 64 n else r.mMin).toInt ≤ _
  rw [toInt_setWidth small]
  split
  · rw [sext_toInt positive (Nat.le_of_lt bound), toInt_setWidth (by omega), smallest]
    split <;> split <;> omega
  · rename_i low
    rw [le_def, smallest] at low
    rw [toInt_of_half (by omega), if_pos (by omega)]
    omega

theorem maxSigned_returns (positive : 0 < n) (bound : n < 64) (inside : r.Within n) (member : v ∈ r) :
    Returns (fun greatest => (v.setWidth n).toInt ≤ greatest.toInt) (r.maxSigned n) := by
  unfold maxSigned
  rw [withinBits_returns positive bound inside member]
  have halves : 2 ^ n = 2 * 2 ^ (n - 1) := by
    rw [← Nat.pow_succ', Nat.succ_eq_add_one, Nat.sub_add_cancel positive]
  have room : 2 ^ n ≤ 2 ^ 63 := Nat.pow_le_pow_right (by decide) (by omega)
  have small := inside.of_mem member
  have smallest := smallest_toNat positive (Nat.le_of_lt bound)
  have above := member.1
  have below := member.2
  rw [le_def] at above below
  show _ ≤ (if r.mMin < 1#64 <<< (n - 1) ∧ 1#64 <<< (n - 1) ≤ r.mMax then
    1#64 <<< (n - 1) - 1#64 else sext r.mMax 64 n).toInt
  rw [toInt_setWidth small]
  have last : (1#64 <<< (n - 1) - 1#64).toNat = 2 ^ (n - 1) - 1 := toNat_single_sub_one (by omega)
  by_cases across : r.mMin < 1#64 <<< (n - 1) ∧ 1#64 <<< (n - 1) ≤ r.mMax
  · rw [if_pos across, toInt_of_half (by omega), last]
    split <;> omega
  · rw [if_neg across]
    rw [lt_def, le_def, smallest] at across
    rw [sext_toInt positive (Nat.le_of_lt bound), toInt_setWidth inside]
    split <;> split <;> omega

end ValueRange

end NeuroMerge.FastCex
