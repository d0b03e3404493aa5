import Mathlib.Algebra.Order.Ring.Abs
import NeuroMerge.Foundations.BitVector
import NeuroMerge.Foundations.WideArithmetic

/-!
# Arithmetic intrinsics

`IntrinsicCleanerPass` replaces the intrinsics with overflow and the saturating ones
by instructions. What it builds is a term over the two operands of the call; it
has the value that the intrinsic stands for, at every width.
-/

namespace NeuroMerge.Module.IntrinsicCleaner

open BitVec WideArithmetic

inductive BinaryOps where
  | add | sub | mul | and | or | xor
  deriving DecidableEq, Repr

inductive Predicate where
  | ugt | ult | sgt | slt
  deriving DecidableEq, Repr

/-- A `Value` of integer type that the pass gets from the builder, over the operands
`op1` and `op2` of `bw` bits. -/
inductive IntegerValue (bw : Nat) : Nat → Type where
  | op1 : IntegerValue bw bw
  | op2 : IntegerValue bw bw
  | constantInt {w : Nat} (value : BitVec w) : IntegerValue bw w
  | zext {w : Nat} (value : IntegerValue bw w) (destTy : Nat) : IntegerValue bw destTy
  | sext {w : Nat} (value : IntegerValue bw w) (destTy : Nat) : IntegerValue bw destTy
  | trunc {w : Nat} (value : IntegerValue bw w) (destTy : Nat) : IntegerValue bw destTy
  | binary {w : Nat} (op : BinaryOps) (lhs rhs : IntegerValue bw w) : IntegerValue bw w
  | icmp {w : Nat} (pred : Predicate) (lhs rhs : IntegerValue bw w) : IntegerValue bw 1
  | select {w : Nat} (cond : IntegerValue bw 1) (ifTrue ifFalse : IntegerValue bw w) :
      IntegerValue bw w

def BinaryOps.apply {w : Nat} : BinaryOps → BitVec w → BitVec w → BitVec w
  | .add, a, b => a + b
  | .sub, a, b => a - b
  | .mul, a, b => a * b
  | .and, a, b => a &&& b
  | .or, a, b => a ||| b
  | .xor, a, b => a ^^^ b

def Predicate.apply {w : Nat} : Predicate → BitVec w → BitVec w → Bool
  | .ugt, a, b => b.ult a
  | .ult, a, b => a.ult b
  | .sgt, a, b => b.slt a
  | .slt, a, b => a.slt b

namespace IntegerValue

/-- The instructions as LLVM defines them. -/
def eval {bw : Nat} (a b : BitVec bw) : {w : Nat} → IntegerValue bw w → BitVec w
  | _, .op1 => a
  | _, .op2 => b
  | _, .constantInt value => value
  | _, .zext value destTy => (value.eval a b).setWidth destTy
  | _, .sext value destTy => (value.eval a b).signExtend destTy
  | _, .trunc value destTy => (value.eval a b).setWidth destTy
  | _, .binary op lhs rhs => op.apply (lhs.eval a b) (rhs.eval a b)
  | _, .icmp pred lhs rhs => BitVec.ofBool (pred.apply (lhs.eval a b) (rhs.eval a b))
  | _, .select cond ifTrue ifFalse =>
    if cond.eval a b = 1#1 then ifTrue.eval a b else ifFalse.eval a b

def not {bw w : Nat} (value : IntegerValue bw w) : IntegerValue bw w :=
  .binary .xor value (.constantInt (BitVec.allOnes w))

end IntegerValue

inductive OverflowIntrinsic where
  | saddWithOverflow | ssubWithOverflow | smulWithOverflow
  | uaddWithOverflow | usubWithOverflow | umulWithOverflow
  deriving DecidableEq, Repr

inductive SaturatingIntrinsic where
  | saddSat | ssubSat | uaddSat | usubSat
  deriving DecidableEq, Repr

def OverflowIntrinsic.lower (intrinsic : OverflowIntrinsic) (bw : Nat) :
    IntegerValue bw bw × IntegerValue bw 1 :=
  let bw2 := bw * 2
  let (resultExt, overflow) : IntegerValue bw bw2 × IntegerValue bw 1 :=
    match intrinsic with
    | .uaddWithOverflow | .usubWithOverflow | .umulWithOverflow =>
      let op1ext := .zext .op1 bw2
      let op2ext := .zext .op2 bw2
      let intMax := .zext (.constantInt (BitVec.allOnes bw)) bw2
      let resultExt := match intrinsic with
        | .uaddWithOverflow => .binary .add op1ext op2ext
        | .usubWithOverflow => .binary .sub op1ext op2ext
        | _ => .binary .mul op1ext op2ext
      (resultExt, .icmp .ugt resultExt intMax)
    | .saddWithOverflow | .ssubWithOverflow | .smulWithOverflow =>
      let op1ext := .sext .op1 bw2
      let op2ext := .sext .op2 bw2
      let intMax := .sext (.constantInt (BitVec.intMax bw)) bw2
      let intMin := .sext (.constantInt (BitVec.intMin bw)) bw2
      let resultExt := match intrinsic with
        | .saddWithOverflow => .binary .add op1ext op2ext
        | .ssubWithOverflow => .binary .sub op1ext op2ext
        | _ => .binary .mul op1ext op2ext
      (resultExt, .binary .or (.icmp .sgt resultExt intMax) (.icmp .slt resultExt intMin))
  (.trunc resultExt bw, overflow)

def SaturatingIntrinsic.lower (intrinsic : SaturatingIntrinsic) (bw : Nat) :
    IntegerValue bw bw :=
  let (result, overflow, saturated) :
      IntegerValue bw bw × IntegerValue bw 1 × IntegerValue bw bw :=
    match intrinsic with
    | .usubSat =>
      (.binary .sub .op1 .op2, .icmp .ult .op1 .op2, .constantInt 0#(bw))
    | .uaddSat =>
      let result := .binary .add .op1 .op2
      (result, .icmp .ult result .op1, .constantInt (BitVec.allOnes bw))
    | .ssubSat | .saddSat =>
      let result := match intrinsic with
        | .ssubSat => .binary .sub .op1 .op2
        | _ => .binary .add .op1 .op2
      let zero := .constantInt 0#(bw)
      let smin := .constantInt (BitVec.intMin bw)
      let smax := .constantInt (BitVec.intMax bw)
      let sign1 := .icmp .slt .op1 zero
      let sign2 := .icmp .slt .op2 zero
      let signR := .icmp .slt result zero
      let saturated := match intrinsic with
        | .ssubSat => .select sign2 smax smin
        | _ => .select sign2 smin smax
      let overflow := .binary .xor sign1 signR
      let overflow := match intrinsic with
        | .ssubSat => .binary .and overflow (.binary .xor sign1 sign2)
        | _ => .binary .and overflow (IntegerValue.not (.binary .xor sign1 sign2))
      (result, overflow, saturated)
  .select overflow saturated result

section Meaning

variable {bw : Nat}

def interpret (signed : Bool) (a : BitVec bw) : Int :=
  if signed then a.toInt else a.toNat

def least (signed : Bool) (bw : Nat) : Int :=
  if signed then -2 ^ (bw - 1) else 0

def greatest (signed : Bool) (bw : Nat) : Int :=
  if signed then 2 ^ (bw - 1) - 1 else 2 ^ bw - 1

def OverflowIntrinsic.signed : OverflowIntrinsic → Bool
  | .saddWithOverflow | .ssubWithOverflow | .smulWithOverflow => true
  | .uaddWithOverflow | .usubWithOverflow | .umulWithOverflow => false

def OverflowIntrinsic.exact : OverflowIntrinsic → Int → Int → Int
  | .saddWithOverflow, x, y | .uaddWithOverflow, x, y => x + y
  | .ssubWithOverflow, x, y | .usubWithOverflow, x, y => x - y
  | .smulWithOverflow, x, y | .umulWithOverflow, x, y => x * y

def SaturatingIntrinsic.signed : SaturatingIntrinsic → Bool
  | .saddSat | .ssubSat => true
  | .uaddSat | .usubSat => false

def SaturatingIntrinsic.exact : SaturatingIntrinsic → Int → Int → Int
  | .saddSat, x, y | .uaddSat, x, y => x + y
  | .ssubSat, x, y | .usubSat, x, y => x - y

section

variable (positive : 0 < bw)
include positive

theorem unsigned_overflow {r : Int} (above : -2 ^ bw < r) (below : r < 2 ^ (bw * 2)) :
    ((BitVec.allOnes bw).setWidth (bw * 2)).ult (BitVec.ofInt (bw * 2) r) = true ↔ ¬ (least false bw ≤ r ∧ r ≤ greatest false bw) := by
  have wide := toNat_wide positive above below
  have limit : (((BitVec.allOnes bw).setWidth (bw * 2)).toNat : Int) = 2 ^ bw - 1 := by
    rw [toNat_setWidth_of_le (by omega), toNat_allOnes, Nat.cast_sub Nat.one_le_two_pow]
    rfl
  rw [ult_iff_toNat_lt, ← Int.ofNat_lt, limit, wide]
  simp only [least, greatest, Bool.false_eq_true, if_false]
  omega

theorem signed_overflow {r : Int} (above : -2 ^ (bw * 2 - 1) ≤ r) (below : r < 2 ^ (bw * 2 - 1)) :
    (((BitVec.intMax bw).signExtend (bw * 2)).slt (BitVec.ofInt (bw * 2) r) ||
      (BitVec.ofInt (bw * 2) r).slt ((BitVec.intMin bw).signExtend (bw * 2))) = true ↔ ¬ (least true bw ≤ r ∧ r ≤ greatest true bw) := by
  rw [Bool.or_eq_true, slt_iff_toInt_lt, slt_iff_toInt_lt, toInt_wide positive above below, toInt_signExtend_of_le (by omega),
    toInt_signExtend_of_le (by omega), toInt_intMax, toInt_intMin_of_pos positive]
  simp only [least, greatest, if_true]
  omega

theorem unsigned_bounds (intrinsic : OverflowIntrinsic) (a b : BitVec bw) :
    -2 ^ bw < intrinsic.exact a.toNat b.toNat ∧ intrinsic.exact a.toNat b.toNat < 2 ^ (bw * 2) := by
  have boundsA := toNat_bounds a
  have boundsB := toNat_bounds b
  have two : (2 : Int) ≤ 2 ^ bw := by
    rw [period_double positive]
    have half : (1 : Int) ≤ 2 ^ (bw - 1) := half_positive
    omega
  have square : (2 : Int) ^ bw * 2 ≤ 2 ^ bw * 2 ^ bw := by gcongr
  have product : (a.toNat : Int) * b.toNat < 2 ^ bw * 2 ^ bw := mul_lt_mul'' boundsA.2 boundsB.2 boundsA.1 boundsB.1
  have nonnegative : 0 ≤ (a.toNat : Int) * b.toNat := Int.mul_nonneg boundsA.1 boundsB.1
  rw [period_wide]
  cases intrinsic <;>
  · simp only [OverflowIntrinsic.exact]
    omega

theorem signed_bounds (intrinsic : OverflowIntrinsic) (a b : BitVec bw) :
    -2 ^ (bw * 2 - 1) ≤ intrinsic.exact a.toInt b.toInt ∧ intrinsic.exact a.toInt b.toInt < 2 ^ (bw * 2 - 1) := by
  have boundsA := toInt_bounds a
  have boundsB := toInt_bounds b
  have half : (1 : Int) ≤ 2 ^ (bw - 1) := half_positive
  have square : (2 : Int) ^ (bw - 1) * 1 ≤ 2 ^ (bw - 1) * 2 ^ (bw - 1) := by gcongr
  have product : |a.toInt * b.toInt| ≤ 2 ^ (bw - 1) * 2 ^ (bw - 1) := by
    rw [abs_mul]
    have absA : |a.toInt| ≤ 2 ^ (bw - 1) := abs_le.mpr ⟨boundsA.1, by omega⟩
    have absB : |b.toInt| ≤ 2 ^ (bw - 1) := abs_le.mpr ⟨boundsB.1, by omega⟩
    gcongr
  rw [abs_le] at product
  rw [half_wide positive]
  cases intrinsic <;>
  · simp only [OverflowIntrinsic.exact]
    omega

theorem unsigned_checked {r : Int} {wide : BitVec (bw * 2)} (exact : wide = BitVec.ofInt (bw * 2) r)
    (bounds : -2 ^ bw < r ∧ r < 2 ^ (bw * 2)) :
    wide.setWidth bw = BitVec.ofInt bw r ∧
      (BitVec.ofBool (((BitVec.allOnes bw).setWidth (bw * 2)).ult wide) = 1#1 ↔ ¬ (least false bw ≤ r ∧ r ≤ greatest false bw)) := by
  subst exact
  constructor
  · exact setWidth_ofInt (by omega) r
  · rw [BitVector.ofBool_eq_one]
    exact unsigned_overflow positive bounds.1 bounds.2

theorem signed_checked {r : Int} {wide : BitVec (bw * 2)} (exact : wide = BitVec.ofInt (bw * 2) r)
    (bounds : -2 ^ (bw * 2 - 1) ≤ r ∧ r < 2 ^ (bw * 2 - 1)) :
    wide.setWidth bw = BitVec.ofInt bw r ∧
      (BitVec.ofBool (((BitVec.intMax bw).signExtend (bw * 2)).slt wide) |||
          BitVec.ofBool (wide.slt ((BitVec.intMin bw).signExtend (bw * 2))) = 1#1 ↔ ¬ (least true bw ≤ r ∧ r ≤ greatest true bw)) := by
  subst exact
  constructor
  · exact setWidth_ofInt (by omega) r
  · rw [ofBool_or_ofBool, BitVector.ofBool_eq_one]
    exact signed_overflow positive bounds.1 bounds.2

theorem OverflowIntrinsic.lower_exact (intrinsic : OverflowIntrinsic) (a b : BitVec bw) :
    let exact := intrinsic.exact (interpret intrinsic.signed a) (interpret intrinsic.signed b)
    (intrinsic.lower bw).1.eval a b = BitVec.ofInt bw exact ∧
      ((intrinsic.lower bw).2.eval a b = 1#1 ↔ ¬ (least intrinsic.signed bw ≤ exact ∧ exact ≤ greatest intrinsic.signed bw)) := by
  have unsigned := unsigned_bounds positive intrinsic a b
  have signed := signed_bounds positive intrinsic a b
  cases intrinsic with
  | uaddWithOverflow =>
    have wide : a.setWidth (bw * 2) + b.setWidth (bw * 2) = BitVec.ofInt (bw * 2) (a.toNat + b.toNat) := by
      rw [ofInt_add, ofInt_toNat, ofInt_toNat]
    exact unsigned_checked positive wide unsigned
  | usubWithOverflow =>
    have wide : a.setWidth (bw * 2) - b.setWidth (bw * 2) = BitVec.ofInt (bw * 2) (a.toNat - b.toNat) := by
      rw [ofInt_sub, ofInt_toNat, ofInt_toNat]
    exact unsigned_checked positive wide unsigned
  | umulWithOverflow =>
    have wide : a.setWidth (bw * 2) * b.setWidth (bw * 2) = BitVec.ofInt (bw * 2) (a.toNat * b.toNat) := by
      rw [ofInt_mul, ofInt_toNat, ofInt_toNat]
    exact unsigned_checked positive wide unsigned
  | saddWithOverflow =>
    have wide : a.signExtend (bw * 2) + b.signExtend (bw * 2) = BitVec.ofInt (bw * 2) (a.toInt + b.toInt) := by
      rw [ofInt_add]
      rfl
    exact signed_checked positive wide signed
  | ssubWithOverflow =>
    have wide : a.signExtend (bw * 2) - b.signExtend (bw * 2) = BitVec.ofInt (bw * 2) (a.toInt - b.toInt) := by
      rw [ofInt_sub]
      rfl
    exact signed_checked positive wide signed
  | smulWithOverflow =>
    have wide : a.signExtend (bw * 2) * b.signExtend (bw * 2) = BitVec.ofInt (bw * 2) (a.toInt * b.toInt) := by
      rw [ofInt_mul]
      rfl
    exact signed_checked positive wide signed

/-- The signs of the operands and of their sum or difference show on which side the
range is left. -/
theorem signed_saturates {r : Int} {result bound : BitVec bw} {overflow : Bool}
    (exact : result = BitVec.ofInt bw r) (bounds : -2 ^ bw ≤ r ∧ r < 2 ^ bw)
    (low : r < -2 ^ (bw - 1) → overflow = true ∧ bound = BitVec.intMin bw)
    (high : 2 ^ (bw - 1) ≤ r → overflow = true ∧ bound = BitVec.intMax bw)
    (within : -2 ^ (bw - 1) ≤ r → r < 2 ^ (bw - 1) → overflow = false) :
    (if BitVec.ofBool overflow = 1#1 then bound else result).toInt = max (least true bw) (min (greatest true bw) r) := by
  have half : (1 : Int) ≤ 2 ^ (bw - 1) := half_positive
  simp only [least, greatest, if_true, BitVector.ofBool_eq_one]
  by_cases below : r < -2 ^ (bw - 1)
  · obtain ⟨rfl, rfl⟩ := low below
    rw [if_pos rfl, toInt_intMin_of_pos positive]
    omega
  · by_cases above : 2 ^ (bw - 1) ≤ r
    · obtain ⟨rfl, rfl⟩ := high above
      rw [if_pos rfl, toInt_intMax]
      omega
    · obtain rfl := within (by omega) (by omega)
      rw [if_neg (by simp), exact, toInt_wraps positive bounds.1 bounds.2, if_neg below, if_pos (by omega)]
      omega

end

theorem sign_eq (a : BitVec bw) : a.slt 0#(bw) = decide (a.toInt < 0) := by
  rw [slt_eq_decide, toInt_zero]

theorem ofInt_sum (a b : BitVec bw) : a + b = BitVec.ofInt bw (a.toInt + b.toInt) := by
  rw [ofInt_add, ofInt_toInt, ofInt_toInt]

theorem ofInt_difference (a b : BitVec bw) : a - b = BitVec.ofInt bw (a.toInt - b.toInt) := by
  rw [ofInt_sub, ofInt_toInt, ofInt_toInt]

theorem SaturatingIntrinsic.lower_clamps (positive : 0 < bw) (intrinsic : SaturatingIntrinsic) (a b : BitVec bw) :
    interpret intrinsic.signed ((intrinsic.lower bw).eval a b) =
      max (least intrinsic.signed bw) (min (greatest intrinsic.signed bw)
        (intrinsic.exact (interpret intrinsic.signed a) (interpret intrinsic.signed b))) := by
  have double := period_double positive
  have signedA := toInt_bounds a
  have signedB := toInt_bounds b
  have period : ((2 ^ bw : Nat) : Int) = 2 ^ bw := by push_cast; rfl
  cases intrinsic with
  | uaddSat =>
    simp only [SaturatingIntrinsic.lower, SaturatingIntrinsic.signed, interpret, least, greatest,
      SaturatingIntrinsic.exact, IntegerValue.eval, BinaryOps.apply, Predicate.apply,
      Bool.false_eq_true, if_false, BitVector.ofBool_eq_one, ult_iff_toNat_lt, toNat_add]
    by_cases overflows : 2 ^ bw ≤ a.toNat + b.toNat
    · have wrapped : (a.toNat + b.toNat) % 2 ^ bw = a.toNat + b.toNat - 2 ^ bw := by
        rw [Nat.mod_eq_sub_mod overflows, Nat.mod_eq_of_lt (by omega)]
      rw [wrapped, if_pos (by omega), toNat_allOnes]
      omega
    · rw [Nat.mod_eq_of_lt (by omega), if_neg (by omega), toNat_add, Nat.mod_eq_of_lt (by omega)]
      omega
  | usubSat =>
    simp only [SaturatingIntrinsic.lower, SaturatingIntrinsic.signed, interpret, least, greatest,
      SaturatingIntrinsic.exact, IntegerValue.eval, BinaryOps.apply, Predicate.apply,
      Bool.false_eq_true, if_false, BitVector.ofBool_eq_one, ult_iff_toNat_lt]
    by_cases below : a.toNat < b.toNat
    · rw [if_pos below, toNat_zero]
      omega
    · rw [if_neg below, toNat_sub_of_le (le_def.mpr (by omega))]
      omega
  | saddSat =>
    have wraps := toInt_wraps positive (r := a.toInt + b.toInt) (by omega) (by omega)
    simp only [SaturatingIntrinsic.lower, SaturatingIntrinsic.signed, interpret,
      SaturatingIntrinsic.exact, IntegerValue.eval, IntegerValue.not, BinaryOps.apply,
      Predicate.apply, sign_eq, xor_allOnes, ofBool_xor_ofBool, not_ofBool,
      ofBool_and_ofBool, if_true]
    rw [← ofInt_sum] at wraps
    apply signed_saturates positive (ofInt_sum a b) ⟨by omega, by omega⟩
    · intro low
      simp [-toInt_add, show a.toInt < 0 by omega, show b.toInt < 0 by omega,
        show ¬ (a + b).toInt < 0 by omega]
    · intro high
      simp [-toInt_add, show ¬ a.toInt < 0 by omega, show ¬ b.toInt < 0 by omega,
        show (a + b).toInt < 0 by omega]
    · intro above below
      rw [if_neg (by omega), if_pos below] at wraps
      simp only [wraps]
      by_cases signA : a.toInt < 0 <;> by_cases signB : b.toInt < 0
      · simp [signA, signB, show a.toInt + b.toInt < 0 by omega]
      · simp [signA, signB]
      · simp [signA, signB]
      · simp [signA, signB, show ¬ a.toInt + b.toInt < 0 by omega]
  | ssubSat =>
    have wraps := toInt_wraps positive (r := a.toInt - b.toInt) (by omega) (by omega)
    simp only [SaturatingIntrinsic.lower, SaturatingIntrinsic.signed, interpret,
      SaturatingIntrinsic.exact, IntegerValue.eval, BinaryOps.apply,
      Predicate.apply, sign_eq, ofBool_xor_ofBool, ofBool_and_ofBool, if_true]
    rw [← ofInt_difference] at wraps
    apply signed_saturates positive (ofInt_difference a b) ⟨by omega, by omega⟩
    · intro low
      simp [-toInt_sub, show a.toInt < 0 by omega, show ¬ b.toInt < 0 by omega,
        show ¬ (a - b).toInt < 0 by omega]
    · intro high
      simp [-toInt_sub, show ¬ a.toInt < 0 by omega, show b.toInt < 0 by omega,
        show (a - b).toInt < 0 by omega]
    · intro above below
      rw [if_neg (by omega), if_pos below] at wraps
      simp only [wraps]
      by_cases signA : a.toInt < 0 <;> by_cases signB : b.toInt < 0
      · simp [signA, signB]
      · simp [signA, signB, show a.toInt - b.toInt < 0 by omega]
      · simp [signA, signB, show ¬ a.toInt - b.toInt < 0 by omega]
      · simp [signA, signB]

/-- The instructions that replace a call return what the intrinsic is defined to
return: the wrapped result with the flag that the exact one does not fit, or the
exact result moved to the nearest value of the type. -/
theorem lower_intrinsics (positive : 0 < bw) (a b : BitVec bw) :
    (∀ intrinsic : OverflowIntrinsic,
      let exact :=
        intrinsic.exact (interpret intrinsic.signed a) (interpret intrinsic.signed b)
      (intrinsic.lower bw).1.eval a b = BitVec.ofInt bw exact ∧
        ((intrinsic.lower bw).2.eval a b = 1#1 ↔
          ¬ (least intrinsic.signed bw ≤ exact ∧ exact ≤ greatest intrinsic.signed bw))) ∧
    ∀ intrinsic : SaturatingIntrinsic,
      interpret intrinsic.signed ((intrinsic.lower bw).eval a b) =
        max (least intrinsic.signed bw) (min (greatest intrinsic.signed bw)
          (intrinsic.exact (interpret intrinsic.signed a) (interpret intrinsic.signed b))) := by
  constructor
  · intro intrinsic
    exact intrinsic.lower_exact positive a b
  · intro intrinsic
    exact intrinsic.lower_clamps positive a b

/-- The least number times minus one, and minus one doubled at one bit. -/
theorem lower_intrinsics_sample :
    ((OverflowIntrinsic.smulWithOverflow.lower 8).1.eval 128#8 255#8 = 128#8 ∧
      (OverflowIntrinsic.smulWithOverflow.lower 8).2.eval 128#8 255#8 = 1#1) ∧
    interpret true ((SaturatingIntrinsic.saddSat.lower 1).eval 1#1 1#1) = -1 := by
  have product := (lower_intrinsics (by decide) 128#8 255#8).1 .smulWithOverflow
  have sum := (lower_intrinsics (by decide) 1#1 1#1).2 .saddSat
  refine ⟨⟨product.1.trans (by decide), product.2.mpr (by decide)⟩, sum.trans (by decide)⟩

end Meaning

end NeuroMerge.Module.IntrinsicCleaner
