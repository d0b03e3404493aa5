import NeuroMerge.Symbolic.CreateProperties

/-!
# Operators, reads and selections preserve meaning

The constructors that are built over equality: exclusive or, sums and
differences, divisions, shifts, comparisons, array reads and selections.
-/

namespace NeuroMerge.Symbolic

open BitVector

variable {guards : Guards} {ρ : Assignment} {o : Options} {fuel : Nat} {w : Nat} {l r : Expr} {a b : BitVec w}

section Xor

theorem xorExprCreatePartialR_builds (allowed : o.Allows guards ρ) (a : BitVec w) (denotes : Denotes guards ρ r b) :
    Builds guards ρ (a ^^^ b) (xorExprCreatePartialR o fuel ⟨w, a⟩ r) := by
  rw [xorExprCreatePartialR]
  by_cases zero : a = 0#w
  · subst zero
    simpa using .pure denotes
  by_cases boolean : w = 1
  · subst boolean
    rw [ne_zero_iff_eq_one] at zero
    subst zero
    rw [one_xor]
    exact (EqBuilds.of_allows allowed fuel).partialR 0#1 denotes
  simpa [zero, boolean] using Builds.pure ((Denotes.constant ⟨w, a⟩).binary .xor denotes nofun)

theorem xorExprCreate_builds (denotesLeft : Denotes guards ρ l a) (denotesRight : Denotes guards ρ r b) :
    Builds guards ρ (a ^^^ b) (xorExprCreate l r) :=
  denotesLeft.binary .xor denotesRight nofun

theorem XorExpr.create_builds (allowed : o.Allows guards ρ) (denotesLeft : Denotes guards ρ l a) (denotesRight : Denotes guards ρ r b) :
    Builds guards ρ (a ^^^ b) (XorExpr.create o fuel l r) := by
  apply bcreateR_builds .xor denotesLeft denotesRight nofun
  · exact (xorExprCreatePartialR_builds allowed b denotesLeft).of_eq (BitVec.xor_comm b a)
  · exact xorExprCreatePartialR_builds allowed a denotesRight
  · exact xorExprCreate_builds denotesLeft denotesRight

end Xor

section Sum

/-- What is known of the constructors of sums and differences, and of the
helpers they are mutually recursive with, at some fuel. -/
structure SumBuilds (o : Options) (guards : Guards) (ρ : Assignment)
    (fuel : Nat) : Prop where
  add : ∀ {w : Nat} {l r : Expr} {a b : BitVec w}, Denotes guards ρ l a →
    Denotes guards ρ r b → Builds guards ρ (a + b) (AddExpr.create o fuel l r)
  addPartialR : ∀ {w : Nat} {r : Expr} (a : BitVec w) {b : BitVec w}, Denotes guards ρ r b →
    Builds guards ρ (a + b) (addExprCreatePartialR o fuel ⟨w, a⟩ r)
  addGeneral : ∀ {w : Nat} {l r : Expr} {a b : BitVec w}, Denotes guards ρ l a →
    Denotes guards ρ r b → Builds guards ρ (a + b) (addExprCreate o fuel l r)
  sub : ∀ {w : Nat} {l r : Expr} {a b : BitVec w}, Denotes guards ρ l a →
    Denotes guards ρ r b → Builds guards ρ (a - b) (SubExpr.create o fuel l r)
  subPartialR : ∀ {w : Nat} {r : Expr} (a : BitVec w) {b : BitVec w}, Denotes guards ρ r b →
    Builds guards ρ (a - b) (subExprCreatePartialR o fuel ⟨w, a⟩ r)
  subGeneral : ∀ {w : Nat} {l r : Expr} {a b : BitVec w}, Denotes guards ρ l a →
    Denotes guards ρ r b → Builds guards ρ (a - b) (subExprCreate o fuel l r)

namespace SumBuilds

variable (ih : SumBuilds o guards ρ fuel)
include ih

theorem add_succ (denotesLeft : Denotes guards ρ l a) (denotesRight : Denotes guards ρ r b) :
    Builds guards ρ (a + b) (AddExpr.create o (fuel + 1) l r) := by
  apply bcreateR_builds .add denotesLeft denotesRight nofun
  · exact (ih.addPartialR b denotesLeft).of_eq (BitVec.add_comm b a)
  · exact ih.addPartialR a denotesRight
  · exact ih.addGeneral denotesLeft denotesRight

theorem sub_succ (denotesLeft : Denotes guards ρ l a) (denotesRight : Denotes guards ρ r b) :
    Builds guards ρ (a - b) (SubExpr.create o (fuel + 1) l r) := by
  apply bcreateR_builds .sub denotesLeft denotesRight nofun
  · apply Satisfies.bind (ConstantExpr.sub_builds 0#w b)
    intro negated folded
    cases folded
    exact (ih.addPartialR (0#w - b) denotesLeft).of_eq (show 0#w - b + a = a - b by grind)
  · exact ih.subPartialR a denotesRight
  · exact ih.subGeneral denotesLeft denotesRight

theorem addPartialR_succ (allowed : o.Allows guards ρ) (a : BitVec w) (denotes : Denotes guards ρ r b) :
    Builds guards ρ (a + b) (addExprCreatePartialR o (fuel + 1) ⟨w, a⟩ r) := by
  rw [addExprCreatePartialR.eq_def]
  dsimp only
  by_cases boolean : w = 1
  · subst boolean
    rw [if_pos rfl, add_eq_xor]
    exact xorExprCreatePartialR_builds allowed a denotes
  rw [if_neg boolean]
  by_cases zero : a = 0#w
  · subst zero
    simpa using .pure denotes
  rw [if_neg (by simpa using zero)]
  split
  · obtain ⟨x, y, denotesC, denotesB, -, rfl⟩ := denotes.of_binary
    apply Builds.bind (ih.add (.constant ⟨w, a⟩) denotesC)
    intro sum denotesSum
    exact (ih.add denotesSum denotesB).of_eq (show a + x + y = a + (x + y) by grind)
  · obtain ⟨x, y, denotesC, denotesB, -, rfl⟩ := denotes.of_binary
    apply Builds.bind (ih.add (.constant ⟨w, a⟩) denotesC)
    intro sum denotesSum
    exact (ih.sub denotesSum denotesB).of_eq (show a + x - y = a + (x - y) by grind)
  · exact (Denotes.constant ⟨w, a⟩).binary .add denotes nofun

theorem subPartialR_succ (allowed : o.Allows guards ρ) (a : BitVec w) (denotes : Denotes guards ρ r b) :
    Builds guards ρ (a - b) (subExprCreatePartialR o (fuel + 1) ⟨w, a⟩ r) := by
  rw [subExprCreatePartialR.eq_def]
  dsimp only
  by_cases boolean : w = 1
  · subst boolean
    rw [if_pos rfl, sub_eq_xor]
    exact xorExprCreatePartialR_builds allowed a denotes
  rw [if_neg boolean]
  split
  · obtain ⟨x, y, denotesC, denotesB, -, rfl⟩ := denotes.of_binary
    apply Builds.bind (ih.sub (.constant ⟨w, a⟩) denotesC)
    intro difference denotesDifference
    exact (ih.sub denotesDifference denotesB).of_eq (show a - x - y = a - (x + y) by grind)
  · obtain ⟨x, y, denotesC, denotesB, -, rfl⟩ := denotes.of_binary
    apply Builds.bind (ih.sub (.constant ⟨w, a⟩) denotesC)
    intro difference denotesDifference
    exact (ih.add denotesDifference denotesB).of_eq (show a - x + y = a - (x - y) by grind)
  · exact (Denotes.constant ⟨w, a⟩).binary .sub denotes nofun

theorem addGeneral_succ (denotesLeft : Denotes guards ρ l a) (denotesRight : Denotes guards ρ r b) :
    Builds guards ρ (a + b) (addExprCreate o (fuel + 1) l r) := by
  rw [addExprCreate.eq_def]
  dsimp only
  rw [denotesLeft.width]
  by_cases boolean : w = 1
  · subst boolean
    rw [if_pos rfl, add_eq_xor]
    exact xorExprCreate_builds denotesLeft denotesRight
  rw [if_neg boolean]
  split
  · obtain ⟨k, x, denotesK, denotesX, -, rfl⟩ := denotesLeft.of_binary
    apply Builds.bind (ih.add denotesX denotesRight)
    intro sum denotesSum
    exact (ih.add denotesK denotesSum).of_eq (show k + (x + b) = k + x + b by grind)
  · obtain ⟨k, x, denotesK, denotesX, -, rfl⟩ := denotesLeft.of_binary
    apply Builds.bind (ih.sub denotesRight denotesX)
    intro difference denotesDifference
    exact (ih.add denotesK denotesDifference).of_eq (show k + (b - x) = k - x + b by grind)
  · split
    · obtain ⟨k, y, denotesK, denotesY, -, rfl⟩ := denotesRight.of_binary
      apply Builds.bind (ih.add denotesLeft denotesY)
      intro sum denotesSum
      exact (ih.add denotesK denotesSum).of_eq (show k + (a + y) = a + (k + y) by grind)
    · obtain ⟨k, y, denotesK, denotesY, -, rfl⟩ := denotesRight.of_binary
      apply Builds.bind (ih.sub denotesLeft denotesY)
      intro difference denotesDifference
      exact (ih.add denotesK denotesDifference).of_eq (show k + (a - y) = a + (k - y) by grind)
    · exact denotesLeft.binary .add denotesRight nofun

theorem subGeneral_succ (denotesLeft : Denotes guards ρ l a) (denotesRight : Denotes guards ρ r b) :
    Builds guards ρ (a - b) (subExprCreate o (fuel + 1) l r) := by
  rw [subExprCreate.eq_def]
  dsimp only
  rw [denotesLeft.width]
  by_cases boolean : w = 1
  · subst boolean
    rw [if_pos rfl, sub_eq_xor]
    exact xorExprCreate_builds denotesLeft denotesRight
  rw [if_neg boolean]
  by_cases same : l = r
  · subst same
    cases denotesLeft.unique denotesRight
    rw [if_pos rfl, BitVec.sub_self]
    exact .alloc 0
  rw [if_neg same]
  split
  · obtain ⟨k, x, denotesK, denotesX, -, rfl⟩ := denotesLeft.of_binary
    apply Builds.bind (ih.sub denotesX denotesRight)
    intro difference denotesDifference
    exact (ih.add denotesK denotesDifference).of_eq (show k + (x - b) = k + x - b by grind)
  · obtain ⟨k, x, denotesK, denotesX, -, rfl⟩ := denotesLeft.of_binary
    apply Builds.bind (ih.add denotesX denotesRight)
    intro sum denotesSum
    exact (ih.sub denotesK denotesSum).of_eq (show k - (x + b) = k - x - b by grind)
  · split
    · obtain ⟨k, y, denotesK, denotesY, -, rfl⟩ := denotesRight.of_binary
      apply Builds.bind (ih.sub denotesLeft denotesY)
      intro difference denotesDifference
      exact (ih.sub denotesDifference denotesK).of_eq (show a - y - k = a - (k + y) by grind)
    · obtain ⟨k, y, denotesK, denotesY, -, rfl⟩ := denotesRight.of_binary
      apply Builds.bind (ih.add denotesLeft denotesY)
      intro sum denotesSum
      exact (ih.sub denotesSum denotesK).of_eq (show a + y - k = a - (k - y) by grind)
    · exact denotesLeft.binary .sub denotesRight nofun

omit ih in
theorem of_allows (allowed : o.Allows guards ρ) (fuel : Nat) : SumBuilds o guards ρ fuel := by
  induction fuel with
  | zero =>
    exact ⟨fun _ _ => .outOfFuel, fun _ _ _ => .outOfFuel, fun _ _ => .outOfFuel,
      fun _ _ => .outOfFuel, fun _ _ _ => .outOfFuel, fun _ _ => .outOfFuel⟩
  | succ fuel ih =>
    exact ⟨ih.add_succ, fun a => ih.addPartialR_succ allowed a, ih.addGeneral_succ,
      ih.sub_succ, fun a => ih.subPartialR_succ allowed a, ih.subGeneral_succ⟩

end SumBuilds

section

variable (allowed : o.Allows guards ρ) (denotesLeft : Denotes guards ρ l a) (denotesRight : Denotes guards ρ r b)
include allowed denotesLeft denotesRight

theorem AddExpr.create_builds : Builds guards ρ (a + b) (AddExpr.create o fuel l r) :=
  (SumBuilds.of_allows allowed fuel).add denotesLeft denotesRight

theorem SubExpr.create_builds : Builds guards ρ (a - b) (SubExpr.create o fuel l r) :=
  (SumBuilds.of_allows allowed fuel).sub denotesLeft denotesRight

end

end Sum

section Division

/-! The boolean case of these constructors takes the divisor to be one. -/

section

variable (denotesLeft : Denotes guards ρ l a) (denotesRight : Denotes guards ρ r b)
  (divisible : guards.divisible r) (defined : w = 1 → b ≠ 0#w)
include denotesLeft denotesRight divisible defined

theorem UDivExpr.create_builds : Builds guards ρ (a.udiv b) (UDivExpr.create l r) := by
  apply bcreate_builds .udiv denotesLeft denotesRight fun _ => divisible
  rintro rfl
  rw [BinaryKind.apply, udiv_eq_self a b (defined rfl)]
  exact denotesLeft

theorem SDivExpr.create_builds : Builds guards ρ (a.sdiv b) (SDivExpr.create l r) := by
  apply bcreate_builds .sdiv denotesLeft denotesRight fun _ => divisible
  rintro rfl
  rw [BinaryKind.apply, sdiv_eq_self a b (defined rfl)]
  exact denotesLeft

theorem URemExpr.create_builds : Builds guards ρ (a.umod b) (URemExpr.create l r) := by
  apply bcreate_builds .urem denotesLeft denotesRight fun _ => divisible
  rintro rfl
  rw [BinaryKind.apply, umod_eq_zero a b (defined rfl)]
  exact .alloc 0

theorem SRemExpr.create_builds : Builds guards ρ (a.srem b) (SRemExpr.create l r) := by
  apply bcreate_builds .srem denotesLeft denotesRight fun _ => divisible
  rintro rfl
  rw [BinaryKind.apply, srem_eq_zero a b (defined rfl)]
  exact .alloc 0

end

end Division

section Shift

section

variable (allowed : o.Allows guards ρ) (denotesLeft : Denotes guards ρ l a) (denotesRight : Denotes guards ρ r b)
include allowed denotesLeft denotesRight

theorem ShlExpr.create_builds : Builds guards ρ (a <<< b) (ShlExpr.create o fuel l r) := by
  apply bcreate_builds .shl denotesLeft denotesRight nofun
  rintro rfl
  rw [BinaryKind.apply, shiftLeft_eq_and_not]
  apply Builds.bind (createIsZero_builds allowed denotesRight)
  intro isZero denotesIsZero
  exact AndExpr.create_builds denotesLeft denotesIsZero

theorem LShrExpr.create_builds : Builds guards ρ (a >>> b) (LShrExpr.create o fuel l r) := by
  apply bcreate_builds .lshr denotesLeft denotesRight nofun
  rintro rfl
  rw [BinaryKind.apply, ushiftRight_eq_and_not]
  apply Builds.bind (createIsZero_builds allowed denotesRight)
  intro isZero denotesIsZero
  exact AndExpr.create_builds denotesLeft denotesIsZero

end

theorem AShrExpr.create_builds (denotesLeft : Denotes guards ρ l a) (denotesRight : Denotes guards ρ r b) :
    Builds guards ρ (a.sshiftRight' b) (AShrExpr.create l r) := by
  apply bcreate_builds .ashr denotesLeft denotesRight nofun
  rintro rfl
  rw [BinaryKind.apply, sshiftRight_eq_self]
  exact denotesLeft

end Shift

section Comparison

section

variable (allowed : o.Allows guards ρ) (denotesLeft : Denotes guards ρ l a) (denotesRight : Denotes guards ρ r b)
include allowed denotesLeft denotesRight

theorem NeExpr.create_builds : Builds guards ρ (BitVec.ofBool (a != b)) (NeExpr.create o fuel l r) := by
  apply Builds.bind (EqExpr.create_builds allowed denotesLeft denotesRight)
  intro equal denotesEqual
  apply (EqExpr.create_builds allowed (.alloc 0) denotesEqual).of_eq
  cases same : a == b <;> simp [bne, same]

theorem UltExpr.create_builds : Builds guards ρ (BitVec.ofBool (a.ult b)) (UltExpr.create o fuel l r) := by
  apply cmpcreate_builds .ult denotesLeft denotesRight
  rintro rfl
  rw [CmpKind.apply, ofBool_ult]
  apply Builds.bind (createIsZero_builds allowed denotesLeft)
  intro isZero denotesIsZero
  exact AndExpr.create_builds denotesIsZero denotesRight

theorem UleExpr.create_builds : Builds guards ρ (BitVec.ofBool (a.ule b)) (UleExpr.create o fuel l r) := by
  apply cmpcreate_builds .ule denotesLeft denotesRight
  rintro rfl
  rw [CmpKind.apply, ofBool_ule]
  apply Builds.bind (createIsZero_builds allowed denotesLeft)
  intro isZero denotesIsZero
  exact OrExpr.create_builds denotesIsZero denotesRight

theorem SltExpr.create_builds : Builds guards ρ (BitVec.ofBool (a.slt b)) (SltExpr.create o fuel l r) := by
  apply cmpcreate_builds .slt denotesLeft denotesRight
  rintro rfl
  rw [CmpKind.apply, ofBool_slt]
  apply Builds.bind (createIsZero_builds allowed denotesRight)
  intro isZero denotesIsZero
  exact AndExpr.create_builds denotesLeft denotesIsZero

theorem SleExpr.create_builds : Builds guards ρ (BitVec.ofBool (a.sle b)) (SleExpr.create o fuel l r) := by
  apply cmpcreate_builds .sle denotesLeft denotesRight
  rintro rfl
  rw [CmpKind.apply, ofBool_sle]
  apply Builds.bind (createIsZero_builds allowed denotesRight)
  intro isZero denotesIsZero
  exact OrExpr.create_builds denotesLeft denotesIsZero

end

end Comparison

section Read

variable {root : Array} {index : Expr} {i : BitVec root.domain}

/-- The loop either finds the value at the index or stops at updates that give
the same value there. -/
def RollsBack (guards : Guards) (ρ : Assignment) (root : Array)
    (value : BitVec root.range) (i : BitVec root.domain) : Expr ⊕ UpdateNode → Prop
  | .inl found => Denotes guards ρ found value
  | .inr rest => rest.WellFormed guards root ∧ rest.eval ρ root i = value

theorem readExprRollback_satisfies (allowed : o.Allows guards ρ) (denotes : Denotes guards ρ index i) :
    ∀ {head : UpdateNode}, head.WellFormed guards root →
      Satisfies (Excused guards ρ) (RollsBack guards ρ root (head.eval ρ root i) i)
        (readExprRollback o fuel index head)
  | .null, wellFormed => ⟨wellFormed, rfl⟩
  | .node position value next, wellFormed => by
    obtain ⟨positionWellFormed, positionWidth, valueWellFormed, valueWidth, rest⟩ := wellFormed
    have denotesPosition : Denotes guards ρ position (position.eval ρ root.domain) := ⟨positionWellFormed, positionWidth, rfl⟩
    apply Satisfies.bind (EqExpr.create_builds allowed denotes denotesPosition)
    intro cond denotesCond
    cases isConstant : cond.constant? with
    | none =>
      exact ⟨⟨positionWellFormed, positionWidth, valueWellFormed, valueWidth, rest⟩, rfl⟩
    | some c =>
      cases denotesCond.constant? isConstant
      by_cases same : position.eval ρ root.domain = i
      · simp only [UpdateNode.eval, same, beq_self_eq_true, BitVec.ofBool_true, ConstantExpr.isTrue_iff, if_true]
        exact ⟨valueWellFormed, valueWidth, rfl⟩
      · have different : (i == position.eval ρ root.domain) = false := beq_eq_false_iff_ne.mpr (Ne.symm same)
        simp only [UpdateNode.eval, same, different, BitVec.ofBool_false, ConstantExpr.isTrue_iff, if_false]
        exact readExprRollback_satisfies allowed denotes rest

theorem ReadExpr.create_builds (allowed : o.Allows guards ρ) {head : UpdateNode}
    (wellFormed : head.WellFormed guards root) (denotes : Denotes guards ρ index i)
    (narrow : root.domain ≤ 64) (within : root.isConstantArray → guards.readable root index) :
    Builds guards ρ (head.eval ρ root i) (ReadExpr.create o fuel root head index) := by
  apply Satisfies.bind (readExprRollback_satisfies allowed denotes wellFormed)
  intro result rolledBack
  cases result with
  | inl value => exact rolledBack
  | inr rest =>
    obtain ⟨restWellFormed, sameValue⟩ := rolledBack
    cases isConstant : index.constant? with
    | none => exact .read wellFormed denotes narrow within
    | some c =>
      cases denotes.constant? isConstant
      apply Builds.require narrow
      split
      case isFalse => exact .read wellFormed denotes narrow within
      case isTrue =>
        rw [← sameValue]
        split
        · rename_i value stored
          rw [UpdateNode.eval, Array.initial, stored]
          exact .constant ⟨root.range, value⟩
        · exact .read restWellFormed denotes narrow within

end Read

section Select

theorem SelectExpr.create_builds (allowed : o.Allows guards ρ) {bit : BitVec 1}
    {c t f : Expr} (denotesCond : Denotes guards ρ c bit) (denotesTrue : Denotes guards ρ t a)
    (denotesFalse : Denotes guards ρ f b) : Builds guards ρ (if bit = 1#1 then a else b) (SelectExpr.create o fuel c t f) := by
  have general := denotesCond.select denotesTrue denotesFalse
  apply Builds.require denotesCond.width
  apply Builds.require (by rw [denotesTrue.width, denotesFalse.width])
  cases condConstant : c.constant? with
  | some value =>
    cases denotesCond.constant? condConstant
    dsimp only
    by_cases holds : bit = 1#1
    · rw [if_pos holds, if_pos (ConstantExpr.isTrue_iff.mpr holds)]
      exact denotesTrue
    · rw [if_neg holds, if_neg (mt ConstantExpr.isTrue_iff.mp holds)]
      exact denotesFalse
  | none =>
    by_cases same : t = f
    · subst same
      cases denotesTrue.unique denotesFalse
      rw [if_pos rfl, ite_self]
      exact denotesTrue
    rw [if_neg same, denotesTrue.width]
    by_cases boolean : w = 1
    · subst boolean
      cases trueConstant : t.constant? with
      | some value =>
        cases denotesTrue.constant? trueConstant
        dsimp only
        by_cases holds : a = 1#1
        · subst holds
          rw [if_pos (ConstantExpr.isTrue_iff.mpr rfl), ite_one_left]
          exact OrExpr.create_builds denotesCond denotesFalse
        · rw [if_neg (mt ConstantExpr.isTrue_iff.mp holds)]
          rw [ne_one_iff_eq_zero] at holds
          subst holds
          rw [ite_zero_left]
          apply Builds.bind (createIsZero_builds allowed denotesCond)
          intro isZero denotesIsZero
          exact AndExpr.create_builds denotesIsZero denotesFalse
      | none =>
        cases falseConstant : f.constant? with
        | some value =>
          cases denotesFalse.constant? falseConstant
          dsimp only
          by_cases holds : b = 1#1
          · subst holds
            rw [if_pos (ConstantExpr.isTrue_iff.mpr rfl), ite_one_right]
            apply Builds.bind (createIsZero_builds allowed denotesCond)
            intro isZero denotesIsZero
            exact OrExpr.create_builds denotesIsZero denotesTrue
          · rw [if_neg (mt ConstantExpr.isTrue_iff.mp holds)]
            rw [ne_one_iff_eq_zero] at holds
            subst holds
            rw [ite_zero_right]
            exact AndExpr.create_builds denotesCond denotesTrue
        | none => exact general
    · rw [if_neg boolean]
      exact general

end Select

end NeuroMerge.Symbolic
