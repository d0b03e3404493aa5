import NeuroMerge.Solver.BuilderConstants

/-!
# Built operators

What the terms for the operators mean when the operands have their values. Where
a shift is too far the term may have another value than the shift.
-/

namespace NeuroMerge.Builder

open BitVec BitVectorTerm ConstantDivision
open Symbolic (Array Expr ConstantExpr BinaryKind CmpKind Assignment)

def Represents (env : Environment Array) (t : Handle) {w : Nat} (v : BitVec w) : Prop :=
  if w = 1 then Decides env t (v.getLsbD 0) else Means env t v

def isBitwise : BinaryKind → Bool
  | .and | .or | .xor => true
  | .add | .sub | .mul | .udiv | .sdiv | .urem | .srem | .shl | .lshr | .ashr => false

/-- The shift of `x` by `a` is not too far, or it makes no difference; a constant amount is cut. -/
def ShiftsAlike {w : Nat} (kind : BinaryKind) (x a : BitVec w) (constant : Option ConstantExpr) :
    Prop :=
  match kind, constant with
  | .shl, some ce => a.toNat < w ∨ x <<< shiftAmount ce = 0#w
  | .lshr, some ce => a.toNat < w ∨ x >>> shiftAmount ce = 0#w
  | .ashr, some ce =>
    a.toNat < w ∨ w ≤ shiftAmount ce ∧ x.msb = false ∨
      shiftAmount ce < w ∧ x.sshiftRight (shiftAmount ce) = x.sshiftRight w
  | .ashr, none => a.toNat < w ∨ x.msb = false
  | _, _ => True

section Values

variable {env : Environment Array} {w : Nat} {t : Handle} {v : BitVec w}

theorem Represents.means (represents : Represents env t v) (bits : w ≠ 1) : Means env t v := by
  rwa [Represents, if_neg bits] at represents

theorem Represents.of_means (means : Means env t v) (bits : w ≠ 1) : Represents env t v := by
  rwa [Represents, if_neg bits]

theorem Represents.decides (represents : Represents env t v) (bit : w = 1) : Decides env t (v.getLsbD 0) := by
  rwa [Represents, if_pos bit] at represents

theorem Represents.of_decides {value : Bool} (decides : Decides env t value) (bit : w = 1)
    (same : value = v.getLsbD 0) : Represents env t v := by
  rwa [Represents, if_pos bit, ← same]

theorem Represents.unique {v' : BitVec w} (first : Represents env t v) (second : Represents env t v') : v = v' := by
  by_cases bit : w = 1
  · subst bit
    have same := (first.decides rfl).unique (second.decides rfl)
    refine eq_of_getLsbD_eq fun i bound => ?_
    rwa [show i = 0 by omega]
  · exact (first.means bit).unique (second.means bit)

end Values

variable {env : Environment Array} {ρ : Assignment} {backend : Backend} {w : Nat} {l r : Expr} {s t : Handle} {x a : BitVec w}

/-! ## Constant operands -/

variable (ρ) in
theorem constant?_eval {ce : ConstantExpr} (constant : r.constant? = some ce) (same : r.width = w) :
    ce.width = w ∧ ce.value.toNat = (r.eval ρ w).toNat := by
  rw [Symbolic.Expr.constant?_eq_some] at constant
  subst constant
  obtain rfl : ce.width = w := same
  exact ⟨rfl, by rw [Symbolic.Expr.eval, setWidth_eq]⟩

variable (ρ) in
theorem narrowConstant_eval {c : BitVec 64} (constant : narrowConstant r = some c)
    (same : r.width = w) : w ≤ 64 ∧ c.toNat = (r.eval ρ w).toNat := by
  rw [narrowConstant] at constant
  split at constant
  · rename_i ce isConstant
    obtain ⟨width, value⟩ := constant?_eval ρ isConstant same
    split at constant
    · rename_i narrow
      rw [Option.some.injEq] at constant
      subst constant
      rw [width] at narrow
      refine ⟨narrow, ?_⟩
      rw [toNat_setWidth, Nat.mod_eq_of_lt, value]
      exact ce.value.isLt.trans_le (Nat.pow_le_pow_right (by omega) (by omega))
    · cases constant
  · cases constant

/-! ## Multiplication and division -/

theorem smtUDiv_eq_udiv (x : BitVec w) (notZero : a ≠ 0#w) : x.smtUDiv a = x.udiv a := by
  rw [smtUDiv_eq, if_neg notZero, udiv_eq]

theorem smtSDiv_eq_sdiv (x : BitVec w) (notZero : a ≠ 0#w) : x.smtSDiv a = x.sdiv a := by
  have negated : -a ≠ 0#w := by
    rwa [Ne, neg_eq_zero_iff]
  rw [BitVec.smtSDiv, BitVec.sdiv]
  split
  · exact smtUDiv_eq_udiv x notZero
  · exact congrArg _ (smtUDiv_eq_udiv x negated)
  · exact congrArg _ (smtUDiv_eq_udiv (-x) notZero)
  · exact smtUDiv_eq_udiv (-x) negated

theorem one_lt_divisor {c : BitVec 64} (value : c.toNat = a.toNat)
    (notPower : ¬ Bits64.isPowerOfTwo c = true) (notZero : a ≠ 0#w) : 1 < a.toNat := by
  have positive : a.toNat ≠ 0 := fun zero => notZero (eq_of_toNat_eq (by simp [zero]))
  have notOne : a.toNat ≠ 1 := by
    intro one
    have isOne : c = 1#64 := eq_of_toNat_eq (by rw [value, one]; rfl)
    exact notPower (isOne ▸ isPowerOfTwo_one)
  omega

theorem one_lt_signedDivisor {d : BitVec 32} (notZero : d ≠ 0#32) (notOne : d ≠ 1#32)
    (notMinusOne : d ≠ BitVec.allOnes 32) : 1 < d.toInt.natAbs := by
  have apart : ∀ c : BitVec 32, d ≠ c → d.toInt ≠ c.toInt := fun c differs same =>
    differs (eq_of_toInt_eq same)
  have zero : d.toInt ≠ 0 := apart 0#32 notZero
  have one : d.toInt ≠ 1 := apart 1#32 notOne
  have minusOne : d.toInt ≠ -1 := apart (BitVec.allOnes 32) notMinusOne
  omega

section Operands

variable (left : Means env s (l.eval ρ w)) (right : Means env t (r.eval ρ w))
  (widthLeft : l.width = w) (widthRight : r.width = w)

include left right

variable (backend) in
include widthLeft in
theorem means_constructMul : ∃ res, constructMul backend l s t w = .ok res ∧ Means env res (l.eval ρ w * r.eval ρ w) := by
  rw [constructMul.eq_def]
  split
  · rename_i c constant
    obtain ⟨narrow, value⟩ := narrowConstant_eval ρ constant widthLeft
    obtain ⟨res, built, means⟩ := means_constructMulByConstant right narrow c
    refine ⟨res, built, means.of_eq ?_⟩
    have same : c.setWidth w = l.eval ρ w := eq_of_toNat_eq (by
      rw [toNat_setWidth, value, Nat.mod_eq_of_lt (BitVec.isLt _)])
    rw [same, BitVec.mul_comm]
  · exact ⟨_, rfl, .arith .mul left right⟩

include widthRight

variable (backend) in
theorem means_constructUDiv (notZero : r.eval ρ w ≠ 0#w) :
    ∃ res, constructUDiv backend r s t w = .ok res ∧ Means env res ((l.eval ρ w).udiv (r.eval ρ w)) := by
  have plain : Means env (.arith .udiv s t) ((l.eval ρ w).udiv (r.eval ρ w)) :=
    (Means.arith .udiv left right).of_eq (smtUDiv_eq_udiv _ notZero)
  rw [constructUDiv.eq_def]
  split
  · rename_i c constant
    obtain ⟨narrow, value⟩ := narrowConstant_eval ρ constant widthRight
    split
    · rename_i power
      obtain ⟨k, bound, index, number⟩ := isPowerOfTwo_toNat power
      rw [index]
      exact ⟨_, rfl, means_shiftedQuotient left (value ▸ number)⟩
    · rename_i notPower
      split
      · rename_i optimized
        obtain ⟨-, rfl⟩ := optimized
        have same : c.setWidth 32 = r.eval ρ 32 := eq_of_toNat_eq (by
          rw [toNat_setWidth, value, Nat.mod_eq_of_lt (BitVec.isLt _)])
        rw [same]
        exact means_constructUDivByConstant backend left (Nat.zero_lt_of_lt (one_lt_divisor value notPower notZero))
      · exact ⟨_, rfl, plain⟩
  · exact ⟨_, rfl, plain⟩

variable (backend) in
theorem means_constructSDiv (notZero : r.eval ρ w ≠ 0#w) :
    ∃ res, constructSDiv backend r s t w = .ok res ∧ Means env res ((l.eval ρ w).sdiv (r.eval ρ w)) := by
  have plain : Means env (.arith .sdiv s t) ((l.eval ρ w).sdiv (r.eval ρ w)) :=
    (Means.arith .sdiv left right).of_eq (smtSDiv_eq_sdiv _ notZero)
  rw [constructSDiv.eq_def]
  split
  · rename_i ce constant
    split
    · rename_i optimized
      obtain ⟨rfl, notOne, notMinusOne, rfl⟩ := optimized
      rw [Symbolic.Expr.constant?_eq_some] at constant
      subst constant
      obtain ⟨width, value⟩ := ce
      obtain rfl : width = 32 := widthRight
      exact means_constructSDivByConstant true left (one_lt_signedDivisor notZero notOne notMinusOne)
    · exact ⟨_, rfl, plain⟩
  · exact ⟨_, rfl, plain⟩

variable (backend) in
theorem means_constructURem (notZero : r.eval ρ w ≠ 0#w) :
    ∃ res, constructURem backend r s t w = .ok res ∧ Means env res ((l.eval ρ w).umod (r.eval ρ w)) := by
  have plain : Means env (.arith .urem s t) ((l.eval ρ w).umod (r.eval ρ w)) := .arith .urem left right
  rw [constructURem.eq_def]
  split
  · rename_i c constant
    obtain ⟨narrow, value⟩ := narrowConstant_eval ρ constant widthRight
    split
    · rename_i power
      obtain ⟨k, bound, index, number⟩ := isPowerOfTwo_toNat power
      rw [value] at number
      simp only [index]
      split
      · rename_i zero
        rw [zero, Nat.pow_zero] at number
        exact ⟨_, rfl, (means_bvZero w).of_eq (umod_one _ number).symm⟩
      · rename_i positive
        exact ⟨_, rfl, means_lowerRemainder left number positive⟩
    · rename_i notPower
      split
      · rename_i optimized
        obtain ⟨-, rfl⟩ := optimized
        have same : c.setWidth 32 = r.eval ρ 32 := eq_of_toNat_eq (by
          rw [toNat_setWidth, value, Nat.mod_eq_of_lt (BitVec.isLt _)])
        obtain ⟨quotient, divided, means⟩ := means_constructUDivByConstant backend left
          (Nat.zero_lt_of_lt (one_lt_divisor value notPower notZero))
        obtain ⟨product, multiplied, meansProduct⟩ := means_constructMulByConstant means narrow c
        rw [same] at meansProduct
        refine ⟨.arith .sub s product, ?_, ?_⟩
        · rw [same, divided, ok_bind, multiplied]
          rfl
        · exact (Means.arith .sub left meansProduct).of_eq (umod_eq_sub _ _).symm
      · exact ⟨_, rfl, plain⟩
  · exact ⟨_, rfl, plain⟩

end Operands

/-! ## Shifts -/

section Shifts

variable {ce : ConstantExpr}

theorem shiftAmount_eq (value : ce.value.toNat = a.toNat) (narrow : w < 2 ^ 32) (inside : a.toNat < w) : shiftAmount ce = a.toNat := by
  rw [shiftAmount, value, Nat.min_eq_left (by omega), Nat.mod_eq_of_lt (by omega)]

theorem leftShift_eq_iff (x : BitVec w) (value : ce.value.toNat = a.toNat) (narrow : w < 2 ^ 32) :
    x <<< shiftAmount ce = x <<< a ↔ a.toNat < w ∨ x <<< shiftAmount ce = 0#w := by
  by_cases inside : a.toNat < w
  · simp [inside, shiftAmount_eq value narrow inside]
  · simp [inside, shiftLeft_eq_zero (Nat.le_of_not_lt inside)]

theorem rightShift_eq_iff (x : BitVec w) (value : ce.value.toNat = a.toNat) (narrow : w < 2 ^ 32) :
    x >>> shiftAmount ce = x >>> a ↔ a.toNat < w ∨ x >>> shiftAmount ce = 0#w := by
  by_cases inside : a.toNat < w
  · simp [inside, shiftAmount_eq value narrow inside]
  · simp [inside, ushiftRight_eq_zero (Nat.le_of_not_lt inside)]

theorem sshiftRight_of_le (x : BitVec w) {n : Nat} (le : w ≤ n) : x.sshiftRight n = if x.msb then BitVec.allOnes w else 0#w := by
  refine eq_of_getLsbD_eq fun i bound => ?_
  rw [getLsbD_sshiftRight]
  cases x.msb <;> simp [bound, show ¬ n + i < w by omega, show ¬ w ≤ i by omega]

theorem zero_eq_sshiftRight_iff (x : BitVec w) {n : Nat} (le : w ≤ n) (positive : 0 < w) : 0#w = x.sshiftRight n ↔ x.msb = false := by
  rw [sshiftRight_of_le x le]
  cases x.msb with
  | false => simp
  | true =>
    refine iff_of_false (fun same => ?_) (by decide)
    have bit := congrArg (fun y => y.getLsbD 0) same
    simp [positive] at bit

theorem arithShift_eq_iff (x : BitVec w) (value : ce.value.toNat = a.toNat) (narrow : w < 2 ^ 32) (positive : 0 < w) :
    (if shiftAmount ce < w then x.sshiftRight (shiftAmount ce) else 0#w) = x.sshiftRight' a ↔ ShiftsAlike .ashr x a (some ce) := by
  rw [sshiftRight_eq', ShiftsAlike]
  by_cases inside : a.toNat < w
  · rw [shiftAmount_eq value narrow inside, if_pos inside]
    simp [inside]
  · have far : x.sshiftRight a.toNat = x.sshiftRight w := by
      rw [sshiftRight_of_le x (Nat.le_of_not_lt inside), sshiftRight_of_le x le_rfl]
    rw [far]
    split
    · rename_i less
      simp [inside, less]
    · rename_i notLess
      rw [zero_eq_sshiftRight_iff x le_rfl positive]
      simp [inside, notLess, Nat.le_of_not_lt notLess]

theorem varArithShift_eq_iff (x a : BitVec w) (positive : 0 < w) :
    (if a.toNat < w then x.sshiftRight' a else 0#w) = x.sshiftRight' a ↔ ShiftsAlike .ashr x a none := by
  rw [ShiftsAlike]
  by_cases inside : a.toNat < w
  · simp [inside]
  · rw [if_neg inside, sshiftRight_eq', zero_eq_sshiftRight_iff x (Nat.le_of_not_lt inside) positive]
    simp [inside]

end Shifts

/-! ## Binary operators -/

/-- The value of a built operator is that of the operator exactly if nothing is shifted too far. -/
def BuildsOperator (backend : Backend) (env : Environment Array) (ρ : Assignment)
    (kind : BinaryKind) (l r : Expr) (s t : Handle) (w : Nat) : Prop :=
  ∃ res, ∃ y : BitVec w, constructBinary backend kind l r s t w = .ok res ∧ Represents env res y ∧
    (y = kind.apply (l.eval ρ w) (r.eval ρ w) ↔
      ShiftsAlike kind (l.eval ρ w) (r.eval ρ w) r.constant?)

theorem BuildsOperator.of_same {kind : BinaryKind} {res : Handle} {y : BitVec w}
    (built : constructBinary backend kind l r s t w = .ok res) (represents : Represents env res y)
    (same : y = kind.apply (l.eval ρ w) (r.eval ρ w)) (alike : ShiftsAlike kind (l.eval ρ w) (r.eval ρ w) r.constant?) :
    BuildsOperator backend env ρ kind l r s t w :=
  ⟨res, y, built, represents, iff_of_true same alike⟩

theorem represents_bitwise (connective : Connective) (op : Arithmetic) (left : Represents env s x) (right : Represents env t a)
    (same : w = 1 → (op.apply x a).getLsbD 0 = connective.apply (x.getLsbD 0) (a.getLsbD 0)) :
    Represents env (constructBitwise connective op s t w) (op.apply x a) := by
  by_cases bit : w = 1
  · rw [constructBitwise, if_pos bit]
    exact .of_decides (Decides.connect connective (left.decides bit) (right.decides bit)) bit (same bit).symm
  · rw [constructBitwise, if_neg bit]
    exact .of_means (.arith op (left.means bit) (right.means bit)) bit

theorem canonicalized_eq (bits : w ≠ 1) : canonicalized w = .ok () := by
  rw [canonicalized, if_neg bits]
  rfl

section Kinds

variable (left : Represents env s (l.eval ρ w)) (right : Represents env t (r.eval ρ w))

include left right

theorem buildsOperator_xor : BuildsOperator backend env ρ .xor l r s t w := by
  by_cases bit : w = 1
  · have decides := Decides.ite (left.decides bit) (right.decides bit).not (right.decides bit)
    refine .of_same (by rw [constructBinary, if_pos bit]; rfl) (.of_decides decides bit ?_) rfl trivial
    rw [BinaryKind.apply, getLsbD_xor]
    cases (l.eval ρ w).getLsbD 0 <;> simp
  · refine .of_same (by rw [constructBinary, if_neg bit]; rfl)
      (.of_means (.arith .xor (left.means bit) (right.means bit)) bit) rfl trivial

variable (bits : w ≠ 1) (positive : 0 < w) (narrow : w < 2 ^ 32) (widthLeft : l.width = w) (widthRight : r.width = w)

include bits

theorem buildsOperator_arith {kind : BinaryKind} (op : Arithmetic) (built : constructBinary backend kind l r s t w = .ok (.arith op s t))
    (same : op.apply (l.eval ρ w) (r.eval ρ w) = kind.apply (l.eval ρ w) (r.eval ρ w))
    (alike : ShiftsAlike kind (l.eval ρ w) (r.eval ρ w) r.constant?) : BuildsOperator backend env ρ kind l r s t w :=
  .of_same built (.of_means (.arith op (left.means bits) (right.means bits)) bits) same alike

include widthLeft in
theorem buildsOperator_mul : BuildsOperator backend env ρ .mul l r s t w := by
  obtain ⟨res, built, means⟩ := means_constructMul backend (left.means bits) (right.means bits) widthLeft
  exact .of_same (by rw [constructBinary, canonicalized_eq bits, ok_bind, built]) (.of_means means bits) rfl trivial

include narrow widthRight

theorem buildsOperator_shl : BuildsOperator backend env ρ .shl l r s t w := by
  cases constant : r.constant? with
  | some ce =>
    obtain ⟨-, value⟩ := constant?_eval ρ constant widthRight
    refine ⟨_, _, ?_, .of_means (means_bvLeftShift (left.means bits) (shiftAmount ce)) bits, ?_⟩
    · rw [constructBinary, canonicalized_eq bits, ok_bind, constant]
      rfl
    · rw [constant]
      exact leftShift_eq_iff _ value narrow
  | none =>
    have means := means_bvVarLeftShift (left.means bits) (right.means bits) (amountFits_self backend w) narrow
    refine .of_same ?_ (.of_means means bits) rfl ?_
    · rw [constructBinary, canonicalized_eq bits, ok_bind, constant]
      rfl
    · rw [constant]
      trivial

theorem buildsOperator_lshr : BuildsOperator backend env ρ .lshr l r s t w := by
  cases constant : r.constant? with
  | some ce =>
    obtain ⟨-, value⟩ := constant?_eval ρ constant widthRight
    refine ⟨_, _, ?_, .of_means (means_bvRightShift (left.means bits) (shiftAmount ce)) bits, ?_⟩
    · rw [constructBinary, canonicalized_eq bits, ok_bind, constant]
      rfl
    · rw [constant]
      exact rightShift_eq_iff _ value narrow
  | none =>
    have means := means_bvVarRightShift (left.means bits) (right.means bits) (amountFits_self backend w) narrow
    refine .of_same ?_ (.of_means means bits) rfl ?_
    · rw [constructBinary, canonicalized_eq bits, ok_bind, constant]
      rfl
    · rw [constant]
      trivial

include positive

theorem buildsOperator_ashr : BuildsOperator backend env ρ .ashr l r s t w := by
  cases constant : r.constant? with
  | some ce =>
    obtain ⟨-, value⟩ := constant?_eval ρ constant widthRight
    have signed : Decides env (bvBoolExtract s (w - 1)) (l.eval ρ w).msb := by
      rw [msb_eq_getLsbD_last]
      exact decides_bvBoolExtract (left.means bits) (by omega)
    have means := means_constructAShrByConstant backend (left.means bits) signed (shiftAmount ce)
    refine ⟨_, _, ?_, .of_means means bits, ?_⟩
    · rw [constructBinary, canonicalized_eq bits, ok_bind, constant]
      rfl
    · rw [constant]
      exact arithShift_eq_iff _ value narrow positive
  | none =>
    have means := means_bvVarArithRightShift (left.means bits) (right.means bits) (amountFits_self backend w) narrow positive
    refine ⟨_, _, ?_, .of_means means bits, ?_⟩
    · rw [constructBinary, canonicalized_eq bits, ok_bind, constant]
      rfl
    · rw [constant]
      exact varArithShift_eq_iff _ _ positive

end Kinds

variable (backend) in
theorem buildsOperator {kind : BinaryKind} (left : Represents env s (l.eval ρ w))
    (right : Represents env t (r.eval ρ w)) (widthLeft : l.width = w) (widthRight : r.width = w)
    (operands : isBitwise kind = true ∨ w ≠ 1) (positive : 0 < w) (narrow : w < 2 ^ 32)
    (division : kind.isDivision = true → r.eval ρ w ≠ 0#w) : BuildsOperator backend env ρ kind l r s t w := by
  cases kind with
  | and =>
    exact .of_same rfl (represents_bitwise .and .and left right fun _ => getLsbD_and) rfl trivial
  | or =>
    exact .of_same rfl (represents_bitwise .or .or left right fun _ => getLsbD_or) rfl trivial
  | xor => exact buildsOperator_xor left right
  | add =>
    have bits := operands.resolve_left (by decide)
    exact buildsOperator_arith left right bits .add (by rw [constructBinary, canonicalized_eq bits]; rfl) rfl trivial
  | sub =>
    have bits := operands.resolve_left (by decide)
    exact buildsOperator_arith left right bits .sub (by rw [constructBinary, canonicalized_eq bits]; rfl) rfl trivial
  | mul => exact buildsOperator_mul left right (operands.resolve_left (by decide)) widthLeft
  | udiv =>
    have bits := operands.resolve_left (by decide)
    obtain ⟨res, built, means⟩ := means_constructUDiv backend (left.means bits) (right.means bits) widthRight (division rfl)
    exact .of_same (by rw [constructBinary, canonicalized_eq bits, ok_bind, built]) (.of_means means bits) rfl trivial
  | sdiv =>
    have bits := operands.resolve_left (by decide)
    obtain ⟨res, built, means⟩ := means_constructSDiv backend (left.means bits) (right.means bits) widthRight (division rfl)
    exact .of_same (by rw [constructBinary, canonicalized_eq bits, ok_bind, built]) (.of_means means bits) rfl trivial
  | urem =>
    have bits := operands.resolve_left (by decide)
    obtain ⟨res, built, means⟩ := means_constructURem backend (left.means bits) (right.means bits) widthRight (division rfl)
    exact .of_same (by rw [constructBinary, canonicalized_eq bits, ok_bind, built]) (.of_means means bits) rfl trivial
  | srem =>
    have bits := operands.resolve_left (by decide)
    exact buildsOperator_arith left right bits .srem (by rw [constructBinary, canonicalized_eq bits]; rfl) rfl trivial
  | shl => exact buildsOperator_shl left right (operands.resolve_left (by decide)) narrow widthRight
  | lshr =>
    exact buildsOperator_lshr left right (operands.resolve_left (by decide)) narrow widthRight
  | ashr =>
    exact buildsOperator_ashr left right (operands.resolve_left (by decide)) positive narrow widthRight

/-! ## Comparisons -/

theorem bit_beq : ∀ x a : BitVec 1, (x == a) = (x.getLsbD 0 == a.getLsbD 0) := by decide

section

variable (left : Represents env s (l.eval ρ w)) (right : Represents env t (r.eval ρ w)) (widthLeft : l.width = w)
include left right widthLeft

theorem decides_constructEq : Decides env (constructEq l s t w) (l.eval ρ w == r.eval ρ w) := by
  by_cases bit : w = 1
  · subst bit
    have decidesLeft := left.decides rfl
    have decidesRight := right.decides rfl
    rw [constructEq, if_pos rfl, bit_beq]
    split
    · rename_i ce constant
      rw [Symbolic.Expr.constant?_eq_some] at constant
      subst constant
      obtain ⟨width, value⟩ := ce
      obtain rfl : width = 1 := widthLeft
      rw [Symbolic.Expr.eval]
      rw [setWidth_eq, isTrue_bit]
      cases value.getLsbD 0 with
      | true => simpa using decidesRight
      | false => simpa using decidesRight.not
    · exact Decides.connect .iff decidesLeft decidesRight
  · rw [constructEq, if_neg bit]
    exact Means.compare .eq (left.means bit) (right.means bit)

theorem decides_constructCmp {kind : CmpKind} (operands : kind = .eq ∨ kind ∈ [CmpKind.ult, .ule, .slt, .sle] ∧ w ≠ 1) :
    ∃ res, constructCmp kind l s t w = .ok res ∧ Decides env res (kind.apply (l.eval ρ w) (r.eval ρ w)) := by
  have compared : ∀ op : Comparison, w ≠ 1 → ∃ res, constructCompare op s t w = .ok res ∧
      Decides env res (op.apply (l.eval ρ w) (r.eval ρ w)) := fun op bits =>
    ⟨_, by rw [constructCompare, canonicalized_eq bits]; rfl, Means.compare op (left.means bits) (right.means bits)⟩
  obtain rfl | ⟨used, bits⟩ := operands
  · exact ⟨_, rfl, decides_constructEq left right widthLeft⟩
  · cases kind with
    | eq => exact ⟨_, rfl, decides_constructEq left right widthLeft⟩
    | ult => exact compared .ult bits
    | ule => exact compared .ule bits
    | slt => exact compared .slt bits
    | sle => exact compared .sle bits
    | ne | ugt | uge | sgt | sge => simp at used

end

end NeuroMerge.Builder
