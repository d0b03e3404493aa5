import NeuroMerge.Foundations.Fuel
import NeuroMerge.Symbolic.Create

/-!
# Expression constructors terminate

On any operands each `create` function ends in the same way from some fuel on.
The operands need not be well formed: a failed assertion is an end as well.
-/

namespace NeuroMerge.Symbolic

variable {α : Type} {o : Options} {l r e : Expr}

abbrev Ends (family : Nat → Except Fault α) : Prop := Halts Fault.outOfFuel family

theorem Ends.require {condition : Prop} [Decidable condition] {failed : Assertion} {family : Nat → Except Fault α} (halts : Ends family) :
    Ends fun fuel => Symbolic.require condition failed >>= fun _ => family fuel := by
  by_cases holds : condition
  · simpa [Symbolic.require, holds] using halts
  · exact .congr (fun _ => by simp [Symbolic.require, holds]; rfl) (.error (Fault.assertion failed) nofun)

theorem ConstantExpr.binary_ends (kind : BinaryKind) (c rhs : ConstantExpr) : Ends fun _ => binary kind c rhs :=
  .ite (fun _ => .error Fault.divisionByZero nofun) fun _ => .pure _

section Macros

variable {kind : BinaryKind} {compare : CmpKind} {createPartial : Nat → Expr → ConstantExpr → Except Fault Expr}
  {createPartialR : Nat → ConstantExpr → Expr → Except Fault Expr} {create : Nat → Expr → Expr → Except Fault Expr}

theorem bcreateR_ends (createPartial : Nat → Expr → ConstantExpr → Except Fault Expr)
    (partialLeft : ∀ cr, r = .constant cr → Ends fun fuel => createPartial fuel l cr)
    (partialRight : ∀ cl, l = .constant cl → Ends fun fuel => createPartialR fuel cl r)
    (general : l.constant? = none → r.constant? = none → Ends fun fuel => create fuel l r) :
    Ends fun fuel => bcreateR kind (createPartial fuel) (createPartialR fuel) (create fuel) l r := by
  apply Ends.require
  cases leftConstant : l.constant? with
  | some cl =>
    cases r.constant? with
    | some cr => exact (ConstantExpr.binary_ends kind cl cr).map
    | none => exact partialRight cl (Expr.constant?_eq_some.mp leftConstant)
  | none =>
    cases rightConstant : r.constant? with
    | some cr => exact partialLeft cr (Expr.constant?_eq_some.mp rightConstant)
    | none => exact general leftConstant rightConstant

theorem bcreate_ends (onBits : Ends fun fuel => create fuel l r) :
    Ends fun fuel => bcreate kind (fun l r => if l.width = 1 then create fuel l r else pure (.binary kind l r)) l r := by
  have general : Ends fun fuel =>
      if l.width = 1 then create fuel l r else pure (.binary kind l r) :=
    .ite (fun _ => onBits) fun _ => .pure _
  apply Ends.require
  cases l.constant? with
  | some cl =>
    cases r.constant? with
    | some cr => exact (ConstantExpr.binary_ends kind cl cr).map
    | none => exact general
  | none => exact general

theorem cmpcreateT_ends
    (partialLeft : ∀ cr, r = .constant cr → Ends fun fuel => createPartial fuel l cr)
    (partialRight : ∀ cl, l = .constant cl → Ends fun fuel => createPartialR fuel cl r) (general : Ends fun fuel => create fuel l r) :
    Ends fun fuel => cmpcreateT compare (createPartial fuel) (createPartialR fuel) (create fuel) l r := by
  apply Ends.require
  cases leftConstant : l.constant? with
  | some cl =>
    cases r.constant? with
    | some cr => exact .pure _
    | none => exact partialRight cl (Expr.constant?_eq_some.mp leftConstant)
  | none =>
    cases rightConstant : r.constant? with
    | some cr => exact partialLeft cr (Expr.constant?_eq_some.mp rightConstant)
    | none => exact general

theorem cmpcreate_ends (onBits : Ends fun fuel => create fuel l r) :
    Ends fun fuel => cmpcreate compare (fun l r => if l.width = 1 then create fuel l r else pure (.cmp compare l r)) l r := by
  have general : Ends fun fuel =>
      if l.width = 1 then create fuel l r else pure (.cmp compare l r) :=
    .ite (fun _ => onBits) fun _ => .pure _
  apply Ends.require
  cases l.constant? with
  | some cl =>
    cases r.constant? with
    | some cr => exact .pure _
    | none => exact general
  | none => exact general

end Macros

section Bitwise

theorem andExprCreatePartial_ends (cr : ConstantExpr) : Ends fun _ => andExprCreatePartial l cr :=
  .ite (fun _ => .pure _) fun _ => .ite (fun _ => .pure _) fun _ =>
    .pure _

theorem orExprCreatePartial_ends (cr : ConstantExpr) : Ends fun _ => orExprCreatePartial l cr :=
  .ite (fun _ => .pure _) fun _ => .ite (fun _ => .pure _) fun _ =>
    .pure _

theorem mulExprCreatePartialR_ends (cl : ConstantExpr) : Ends fun _ => mulExprCreatePartialR cl r :=
  .ite (fun _ => andExprCreatePartial_ends cl) fun _ =>
    .ite (fun _ => .pure _) fun _ => .ite (fun _ => .pure _) fun _ =>
      .pure _

theorem AndExpr.create_ends (l r : Expr) : Ends fun _ => AndExpr.create l r :=
  bcreateR_ends (fun _ => andExprCreatePartial) (fun cr _ => andExprCreatePartial_ends cr) (fun cl _ => andExprCreatePartial_ends cl)
    fun _ _ => .pure _

theorem OrExpr.create_ends (l r : Expr) : Ends fun _ => OrExpr.create l r :=
  bcreateR_ends (fun _ => orExprCreatePartial) (fun cr _ => orExprCreatePartial_ends cr) (fun cl _ => orExprCreatePartial_ends cl)
    fun _ _ => .pure _

theorem MulExpr.create_ends (l r : Expr) : Ends fun _ => MulExpr.create l r :=
  bcreateR_ends (fun _ => mulExprCreatePartial) (fun cr _ => mulExprCreatePartialR_ends cr) (fun cl _ => mulExprCreatePartialR_ends cl)
    fun _ _ => .ite (fun _ => .pure _) fun _ => .pure _

end Bitwise

section Equality

theorem eqExprCreate_ends (l r : Expr) : Ends fun _ => eqExprCreate l r :=
  .ite (fun _ => .pure _) fun _ => .pure _

theorem EqExpr.create_ends_of (left : ∀ cr, Ends fun fuel => eqExprCreatePartialR o fuel cr l)
    (right : ∀ cl, Ends fun fuel => eqExprCreatePartialR o fuel cl r) : Ends fun fuel => EqExpr.create o fuel l r := by
  apply Halts.succ
  simp only [EqExpr.create]
  exact cmpcreateT_ends (fun cr _ => left cr) (fun cl _ => right cl) (eqExprCreate_ends l r)

theorem eqExprCreatePartialR_constant_ends (cl c : ConstantExpr) : Ends fun fuel => eqExprCreatePartialR o fuel cl (.constant c) := by
  apply Halts.succ
  exact .ite (fun _ => .ite (fun _ => .pure _) fun _ => eqExprCreate_ends _ _) fun _ => eqExprCreate_ends _ _

theorem tryConstArrayOptLoop_ends {isMatch : Nat → Bool} {mayBe : Nat → Nat → Except Fault Expr} {unchanged : Except Fault Expr}
    (equality : ∀ i, Ends fun fuel => mayBe fuel i) (same : Ends fun _ => unchanged)
    (positions : List Nat) : ∀ (numMatches : Nat) (res : Expr), Ends fun fuel =>
      tryConstArrayOptLoop isMatch (mayBe fuel) unchanged positions numMatches res := by
  induction positions with
  | nil =>
    intro numMatches res
    exact .pure res
  | cons i rest ih =>
    intro numMatches res
    apply Halts.ite
    · intro found
      apply Halts.ite (fun _ => same)
      intro few
      apply (equality i).bind
      intro equal returned
      apply (OrExpr.create_ends res equal).bind
      intro disjunction returned
      exact ih (numMatches + 1) disjunction
    · intro skipped
      exact ih numMatches res

theorem equality_with_constant_ends (c : ConstantExpr) (inner : ∀ cl, Ends fun fuel => eqExprCreatePartialR o fuel cl e) :
    Ends fun fuel => EqExpr.create o fuel e (.constant c) :=
  EqExpr.create_ends_of inner fun cl => eqExprCreatePartialR_constant_ends cl c

/-- The recursion is on the expression that the constant is compared with. -/
theorem eqExprCreatePartialR_ends : ∀ (r : Expr) (cl : ConstantExpr),
    Ends fun fuel => eqExprCreatePartialR o fuel cl r
  | r, cl => by
    apply Halts.succ
    apply Halts.ite
    · intro boolean
      apply Halts.ite (fun _ => .pure _)
      intro fails
      cases r with
      | cmp kind left right =>
        cases kind with
        | eq =>
          cases left with
          | constant value =>
            exact .ite (fun _ => .pure _) fun _ => eqExprCreate_ends _ _
          | _ => exact eqExprCreate_ends _ _
        | _ => exact eqExprCreate_ends _ _
      | binary kind left right =>
        cases kind with
        | or =>
          apply (equality_with_constant_ends _ (eqExprCreatePartialR_ends left)).bind
          intro notLeft returned
          apply (equality_with_constant_ends _ (eqExprCreatePartialR_ends right)).bind
          intro notRight returned
          exact AndExpr.create_ends notLeft notRight
        | _ => exact eqExprCreate_ends _ _
      | _ => exact eqExprCreate_ends _ _
    · intro wide
      cases r with
      | sext src width =>
        exact .ite (fun _ => equality_with_constant_ends _ (eqExprCreatePartialR_ends src)) fun _ => .pure _
      | zext src width =>
        exact .ite (fun _ => equality_with_constant_ends _ (eqExprCreatePartialR_ends src)) fun _ => .pure _
      | binary kind left right =>
        cases kind with
        | add =>
          cases left with
          | constant value =>
            apply Ends.require
            apply (ConstantExpr.binary_ends _ _ _).bind
            intro difference returned
            exact eqExprCreatePartialR_ends right difference
          | _ => exact eqExprCreate_ends _ _
        | sub =>
          cases left with
          | constant value =>
            apply Ends.require
            apply (ConstantExpr.binary_ends _ _ _).bind
            intro difference returned
            exact eqExprCreatePartialR_ends right difference
          | _ => exact eqExprCreate_ends _ _
        | _ => exact eqExprCreate_ends _ _
      | read root head index =>
        apply Halts.ite
        · intro enabled
          apply Halts.succ
          apply Halts.ite (fun _ => eqExprCreate_ends _ _)
          intro constant
          apply tryConstArrayOptLoop_ends
          · intro i
            exact equality_with_constant_ends _ (eqExprCreatePartialR_ends index)
          · exact eqExprCreate_ends _ _
        · intro disabled
          exact eqExprCreate_ends _ _
      | _ => exact eqExprCreate_ends _ _
  termination_by r => sizeOf r

theorem EqExpr.create_ends (l r : Expr) : Ends fun fuel => EqExpr.create o fuel l r :=
  EqExpr.create_ends_of (eqExprCreatePartialR_ends l) (eqExprCreatePartialR_ends r)

theorem createIsZero_ends (e : Expr) : Ends fun fuel => createIsZero o fuel e :=
  EqExpr.create_ends e _

end Equality

section Sum

theorem xorExprCreatePartialR_ends (cl : ConstantExpr) (r : Expr) : Ends fun fuel => xorExprCreatePartialR o fuel cl r :=
  .ite (fun _ => .pure _) fun _ =>
    .ite (fun _ => eqExprCreatePartialR_ends r _) fun _ => .pure _

theorem XorExpr.create_ends (l r : Expr) : Ends fun fuel => XorExpr.create o fuel l r :=
  bcreateR_ends (xorExprCreatePartial o) (fun cr _ => xorExprCreatePartialR_ends cr l)
    (fun cl _ => xorExprCreatePartialR_ends cl r) fun _ _ => .pure _

section

variable (left : ∀ cr, Ends fun fuel => addExprCreatePartialR o fuel cr l)
include left

theorem AddExpr.create_ends_of (right : ∀ cl, Ends fun fuel => addExprCreatePartialR o fuel cl r)
    (general : l.constant? = none → r.constant? = none →
      Ends fun fuel => addExprCreate o fuel l r) : Ends fun fuel => AddExpr.create o fuel l r := by
  apply Halts.succ
  simp only [AddExpr.create]
  exact bcreateR_ends _ (fun cr _ => left cr) (fun cl _ => right cl) general

theorem SubExpr.create_ends_of (right : ∀ cl, Ends fun fuel => subExprCreatePartialR o fuel cl r)
    (general : l.constant? = none → r.constant? = none →
      Ends fun fuel => subExprCreate o fuel l r) : Ends fun fuel => SubExpr.create o fuel l r := by
  apply Halts.succ
  simp only [SubExpr.create]
  refine bcreateR_ends _ ?_ (fun cl _ => right cl) general
  intro cr same
  apply (ConstantExpr.binary_ends _ _ _).bind
  intro negated returned
  exact left negated

end

theorem AddExpr.create_constants {cl c : ConstantExpr} {fuel : Nat}
    (created : AddExpr.create o fuel (.constant cl) (.constant c) = .ok e) : ∃ folded, e = .constant folded := by
  cases fuel with
  | zero => simp [AddExpr.create] at created
  | succ fuel =>
    obtain ⟨_, _, created⟩ := bind_eq_ok_iff.mp created
    obtain ⟨folded, -, same⟩ := map_eq_ok_iff.mp created
    exact ⟨folded, same.symm⟩

theorem SubExpr.create_constants {cl c : ConstantExpr} {fuel : Nat}
    (created : SubExpr.create o fuel (.constant cl) (.constant c) = .ok e) : ∃ folded, e = .constant folded := by
  cases fuel with
  | zero => simp [SubExpr.create] at created
  | succ fuel =>
    obtain ⟨_, _, created⟩ := bind_eq_ok_iff.mp created
    obtain ⟨folded, -, same⟩ := map_eq_ok_iff.mp created
    exact ⟨folded, same.symm⟩

theorem addExprCreatePartialR_constant_ends (cl c : ConstantExpr) : Ends fun fuel => addExprCreatePartialR o fuel cl (.constant c) := by
  apply Halts.succ
  exact .ite (fun _ => xorExprCreatePartialR_ends _ _) fun _ =>
    .ite (fun _ => .pure _) fun _ => .pure _

theorem subExprCreatePartialR_constant_ends (cl c : ConstantExpr) : Ends fun fuel => subExprCreatePartialR o fuel cl (.constant c) := by
  apply Halts.succ
  exact .ite (fun _ => xorExprCreatePartialR_ends _ _) fun _ => .pure _

theorem AddExpr.create_constant_ends (c : ConstantExpr) (right : ∀ cl, Ends fun fuel => addExprCreatePartialR o fuel cl e) :
    Ends fun fuel => AddExpr.create o fuel (.constant c) e :=
  AddExpr.create_ends_of (fun cr => addExprCreatePartialR_constant_ends cr c) right nofun

theorem SubExpr.create_constant_ends (c : ConstantExpr) (right : ∀ cl, Ends fun fuel => subExprCreatePartialR o fuel cl e) :
    Ends fun fuel => SubExpr.create o fuel (.constant c) e :=
  SubExpr.create_ends_of (fun cr => addExprCreatePartialR_constant_ends cr c) right nofun

/-- The recursion is on the operand that is not constant. -/
theorem sumPartialR_ends (r : Expr) :
    (∀ cl, Ends fun fuel => addExprCreatePartialR o fuel cl r) ∧ ∀ cl, Ends fun fuel => subExprCreatePartialR o fuel cl r := by
  constructor
  · intro cl
    apply Halts.succ
    apply Halts.ite (fun _ => xorExprCreatePartialR_ends _ _)
    intro wide
    apply Halts.ite (fun _ => .pure _)
    intro nonzero
    cases r with
    | binary kind left right =>
      cases left with
      | constant c =>
        cases kind with
        | add =>
          apply (AddExpr.create_constant_ends cl fun cr =>
            addExprCreatePartialR_constant_ends cr c).bind
          intro sum returned
          obtain ⟨fuel, created⟩ := returned.some_fuel
          obtain ⟨folded, rfl⟩ := AddExpr.create_constants created
          exact AddExpr.create_constant_ends folded (sumPartialR_ends right).1
        | sub =>
          apply (AddExpr.create_constant_ends cl fun cr =>
            addExprCreatePartialR_constant_ends cr c).bind
          intro sum returned
          obtain ⟨fuel, created⟩ := returned.some_fuel
          obtain ⟨folded, rfl⟩ := AddExpr.create_constants created
          exact SubExpr.create_constant_ends folded (sumPartialR_ends right).2
        | _ => exact .pure _
      | _ => cases kind <;> exact .pure _
    | _ => exact .pure _
  · intro cl
    apply Halts.succ
    apply Halts.ite (fun _ => xorExprCreatePartialR_ends _ _)
    intro wide
    cases r with
    | binary kind left right =>
      cases left with
      | constant c =>
        cases kind with
        | add =>
          apply (SubExpr.create_constant_ends cl fun cr =>
            subExprCreatePartialR_constant_ends cr c).bind
          intro difference returned
          obtain ⟨fuel, created⟩ := returned.some_fuel
          obtain ⟨folded, rfl⟩ := SubExpr.create_constants created
          exact SubExpr.create_constant_ends folded (sumPartialR_ends right).2
        | sub =>
          apply (SubExpr.create_constant_ends cl fun cr =>
            subExprCreatePartialR_constant_ends cr c).bind
          intro difference returned
          obtain ⟨fuel, created⟩ := returned.some_fuel
          obtain ⟨folded, rfl⟩ := SubExpr.create_constants created
          exact AddExpr.create_constant_ends folded (sumPartialR_ends right).1
        | _ => exact .pure _
      | _ => cases kind <;> exact .pure _
    | _ => exact .pure _
termination_by sizeOf r

theorem AddExpr.create_constant_left_ends (c : ConstantExpr) (e : Expr) : Ends fun fuel => AddExpr.create o fuel (.constant c) e :=
  AddExpr.create_constant_ends c (sumPartialR_ends e).1

theorem SubExpr.create_constant_left_ends (c : ConstantExpr) (e : Expr) : Ends fun fuel => SubExpr.create o fuel (.constant c) e :=
  SubExpr.create_constant_ends c (sumPartialR_ends e).2

theorem SubExpr.create_constant_right_ends (c : ConstantExpr) (e : Expr) : Ends fun fuel => SubExpr.create o fuel e (.constant c) :=
  SubExpr.create_ends_of (sumPartialR_ends e).1 (fun cl => subExprCreatePartialR_constant_ends cl c) nofun

section

variable {a r : Expr}
  (smaller : ∀ b, sizeOf b < sizeOf r → (Ends fun fuel => AddExpr.create o fuel a b) ∧ Ends fun fuel => SubExpr.create o fuel a b)
include smaller

theorem addExprGeneral_ends :
    Ends fun fuel =>
      match r with
      | .binary .add (.constant k) b => do
        AddExpr.create o fuel (.constant k) (← AddExpr.create o fuel a b)
      | .binary .sub (.constant k) b => do
        AddExpr.create o fuel (.constant k) (← SubExpr.create o fuel a b)
      | r => pure (.binary .add a r) := by
  cases r with
  | binary kind left right =>
    cases left with
    | constant k =>
      cases kind with
      | add =>
        apply (smaller right (by rw [Expr.binary.sizeOf_spec]; omega)).1.bind
        intro sum returned
        exact AddExpr.create_constant_left_ends k sum
      | sub =>
        apply (smaller right (by rw [Expr.binary.sizeOf_spec]; omega)).2.bind
        intro difference returned
        exact AddExpr.create_constant_left_ends k difference
      | _ => exact .pure _
    | _ => cases kind <;> exact .pure _
  | _ => exact .pure _

theorem subExprGeneral_ends :
    Ends fun fuel =>
      match r with
      | .binary .add (.constant k) b => do
        SubExpr.create o fuel (← SubExpr.create o fuel a b) (.constant k)
      | .binary .sub (.constant k) b => do
        SubExpr.create o fuel (← AddExpr.create o fuel a b) (.constant k)
      | r => pure (.binary .sub a r) := by
  cases r with
  | binary kind left right =>
    cases left with
    | constant k =>
      cases kind with
      | add =>
        apply (smaller right (by rw [Expr.binary.sizeOf_spec]; omega)).2.bind
        intro difference returned
        exact SubExpr.create_constant_right_ends k difference
      | sub =>
        apply (smaller right (by rw [Expr.binary.sizeOf_spec]; omega)).1.bind
        intro sum returned
        exact SubExpr.create_constant_right_ends k sum
      | _ => exact .pure _
    | _ => cases kind <;> exact .pure _
  | _ => exact .pure _

end

/-- Pulling a constant out of an operand leaves smaller operands, and combining
the constant with the result is a partial case. -/
theorem sum_ends (l r : Expr) : (Ends fun fuel => AddExpr.create o fuel l r) ∧ Ends fun fuel => SubExpr.create o fuel l r := by
  have smaller : ∀ b, sizeOf b < sizeOf r → (Ends fun fuel => AddExpr.create o fuel l b) ∧
      Ends fun fuel => SubExpr.create o fuel l b := fun b _ => sum_ends l b
  constructor
  · apply AddExpr.create_ends_of (sumPartialR_ends l).1 (sumPartialR_ends r).1
    intro leftGeneral rightGeneral
    apply Halts.succ
    apply Halts.ite (fun _ => .pure _)
    intro wide
    cases l with
    | binary kind left right =>
      cases left with
      | constant k =>
        cases kind with
        | add =>
          apply (sum_ends right r).1.bind
          intro sum returned
          exact AddExpr.create_constant_left_ends k sum
        | sub =>
          apply (sum_ends r right).2.bind
          intro difference returned
          exact AddExpr.create_constant_left_ends k difference
        | _ => exact addExprGeneral_ends smaller
      | _ => cases kind <;> exact addExprGeneral_ends smaller
    | _ => exact addExprGeneral_ends smaller
  · apply SubExpr.create_ends_of (sumPartialR_ends l).1 (sumPartialR_ends r).2
    intro leftGeneral rightGeneral
    apply Halts.succ
    apply Halts.ite (fun _ => .pure _)
    intro wide
    apply Halts.ite (fun _ => .pure _)
    intro different
    cases l with
    | binary kind left right =>
      cases left with
      | constant k =>
        cases kind with
        | add =>
          apply (sum_ends right r).2.bind
          intro difference returned
          exact AddExpr.create_constant_left_ends k difference
        | sub =>
          apply (sum_ends right r).1.bind
          intro sum returned
          exact SubExpr.create_constant_left_ends k sum
        | _ => exact subExprGeneral_ends smaller
      | _ => cases kind <;> exact subExprGeneral_ends smaller
    | _ => exact subExprGeneral_ends smaller
termination_by sizeOf l + sizeOf r

theorem AddExpr.create_ends (l r : Expr) : Ends fun fuel => AddExpr.create o fuel l r :=
  (sum_ends l r).1

theorem SubExpr.create_ends (l r : Expr) : Ends fun fuel => SubExpr.create o fuel l r :=
  (sum_ends l r).2

end Sum

section Slices

theorem slices_shrink (fuel : Nat) :
    (∀ {l r source : Expr} {off w : Nat}, ConcatExpr.create fuel l r = .ok (.extract source off w) →
      ∃ inner off' w', l = .extract inner off' w' ∧ sizeOf source ≤ sizeOf inner) ∧
    (∀ {e source : Expr} {off w off' w' : Nat},
      ExtractExpr.create fuel e off w = .ok (.extract source off' w') → sizeOf source ≤ sizeOf e) := by
  induction fuel with
  | zero => exact ⟨nofun, nofun⟩
  | succ fuel ih =>
    obtain ⟨concat, extract⟩ := ih
    constructor
    · intro l r source off w created
      rw [ConcatExpr.create.eq_def] at created
      dsimp only at created
      split at created
      · cases created
      · rename_i leftExpr leftOffset leftWidth rightExpr rightOffset rightWidth
        split at created
        · exact ⟨leftExpr, leftOffset, leftWidth, rfl, extract created⟩
        · cases created
      · cases created
    · intro e source off w off' w' created
      obtain ⟨_, _, created⟩ := bind_eq_ok_iff.mp created
      split at created
      · cases created
        simp only [Expr.extract.sizeOf_spec]
        omega
      · split at created
        · cases created
        · rename_i left right
          split at created
          · have smaller := extract created
            simp only [Expr.concat.sizeOf_spec]
            omega
          · split at created
            · have smaller := extract created
              simp only [Expr.concat.sizeOf_spec]
              omega
            · obtain ⟨extractedLeft, createdLeft, created⟩ := bind_eq_ok_iff.mp created
              obtain ⟨extractedRight, createdRight, created⟩ := bind_eq_ok_iff.mp created
              obtain ⟨inner, innerOffset, innerWidth, rfl, smaller⟩ := concat created
              have smallerLeft := extract createdLeft
              simp only [Expr.concat.sizeOf_spec]
              omega
        · cases created
          exact Nat.le_refl _

theorem ConcatExpr.create_ends_of
    (inner : ∀ source off w, l = .extract source off w →
      ∀ off' w', Ends fun fuel => ExtractExpr.create fuel source off' w') : Ends fun fuel => ConcatExpr.create fuel l r := by
  apply Halts.succ
  cases l with
  | constant c => cases r <;> exact .pure _
  | extract leftExpr leftOffset leftWidth =>
    cases r with
    | extract rightExpr rightOffset rightWidth =>
      apply Halts.ite
      · intro contiguous
        exact inner leftExpr leftOffset leftWidth rfl rightOffset (leftWidth + rightWidth)
      · intro apart
        exact .pure _
    | _ => exact .pure _
  | _ => cases r <;> exact .pure _

theorem ExtractExpr.create_ends (e : Expr) (off w : Nat) : Ends fun fuel => ExtractExpr.create fuel e off w := by
  apply Halts.succ
  apply Ends.require
  apply Halts.ite (fun _ => .pure _)
  intro part
  cases e with
  | concat left right =>
    apply Halts.ite (fun _ => ExtractExpr.create_ends left _ w)
    intro reachesRight
    apply Halts.ite (fun _ => ExtractExpr.create_ends right off w)
    intro straddles
    apply (ExtractExpr.create_ends left _ _).bind
    intro extractedLeft returned
    obtain ⟨fuel, created⟩ := returned.some_fuel
    apply (ExtractExpr.create_ends right _ _).bind
    intro extractedRight returnedRight
    apply ConcatExpr.create_ends_of
    intro source off' w' same off'' w''
    subst same
    have smaller := (slices_shrink fuel).2 created
    exact ExtractExpr.create_ends source off'' w''
  | _ => exact .pure _
termination_by sizeOf e

theorem ConcatExpr.create_ends (l r : Expr) : Ends fun fuel => ConcatExpr.create fuel l r :=
  ConcatExpr.create_ends_of fun source _ _ _ => ExtractExpr.create_ends source

theorem ZExtExpr.create_ends (e : Expr) (w : Nat) : Ends fun fuel => ZExtExpr.create fuel e w := by
  apply Halts.ite (fun _ => .pure _)
  intro resized
  apply Halts.ite (fun _ => ExtractExpr.create_ends e 0 w)
  intro wider
  cases e.constant? <;> exact .pure _

theorem SExtExpr.create_ends (e : Expr) (w : Nat) : Ends fun fuel => SExtExpr.create fuel e w := by
  apply Halts.ite (fun _ => .pure _)
  intro resized
  apply Halts.ite (fun _ => ExtractExpr.create_ends e 0 w)
  intro wider
  cases e.constant? <;> exact .pure _

end Slices

section Operators

theorem UDivExpr.create_ends (l r : Expr) : Ends fun _ => UDivExpr.create l r :=
  bcreate_ends (.pure _)

theorem SDivExpr.create_ends (l r : Expr) : Ends fun _ => SDivExpr.create l r :=
  bcreate_ends (.pure _)

theorem URemExpr.create_ends (l r : Expr) : Ends fun _ => URemExpr.create l r :=
  bcreate_ends (.pure _)

theorem SRemExpr.create_ends (l r : Expr) : Ends fun _ => SRemExpr.create l r :=
  bcreate_ends (.pure _)

theorem AShrExpr.create_ends (l r : Expr) : Ends fun _ => AShrExpr.create l r :=
  bcreate_ends (.pure _)

theorem ShlExpr.create_ends (l r : Expr) : Ends fun fuel => ShlExpr.create o fuel l r :=
  bcreate_ends ((createIsZero_ends r).bind fun isZero _ => AndExpr.create_ends l isZero)

theorem LShrExpr.create_ends (l r : Expr) : Ends fun fuel => LShrExpr.create o fuel l r :=
  bcreate_ends ((createIsZero_ends r).bind fun isZero _ => AndExpr.create_ends l isZero)

theorem NeExpr.create_ends (l r : Expr) : Ends fun fuel => NeExpr.create o fuel l r :=
  (EqExpr.create_ends l r).bind fun equal _ => EqExpr.create_ends _ equal

theorem UltExpr.create_ends (l r : Expr) : Ends fun fuel => UltExpr.create o fuel l r :=
  cmpcreate_ends ((createIsZero_ends l).bind fun isZero _ => AndExpr.create_ends isZero r)

theorem UleExpr.create_ends (l r : Expr) : Ends fun fuel => UleExpr.create o fuel l r :=
  cmpcreate_ends ((createIsZero_ends l).bind fun isZero _ => OrExpr.create_ends isZero r)

theorem SltExpr.create_ends (l r : Expr) : Ends fun fuel => SltExpr.create o fuel l r :=
  cmpcreate_ends ((createIsZero_ends r).bind fun isZero _ => AndExpr.create_ends l isZero)

theorem SleExpr.create_ends (l r : Expr) : Ends fun fuel => SleExpr.create o fuel l r :=
  cmpcreate_ends ((createIsZero_ends r).bind fun isZero _ => OrExpr.create_ends l isZero)

end Operators

section Read

theorem readExprRollback_ends (index : Expr) : ∀ head : UpdateNode,
    Ends fun fuel => readExprRollback o fuel index head
  | .null => .pure _
  | .node position value next => by
    apply (EqExpr.create_ends index position).bind
    intro cond returned
    cases cond.constant? with
    | none => exact .pure _
    | some c => exact .ite (fun _ => .pure _) fun _ => readExprRollback_ends index next

theorem ReadExpr.create_ends (root : Array) (head : UpdateNode) (index : Expr) :
    Ends fun fuel => ReadExpr.create o fuel root head index := by
  apply (readExprRollback_ends index head).bind
  intro result returned
  cases result with
  | inl value => exact .pure _
  | inr rest =>
    cases index.constant? with
    | none => exact .pure _
    | some c =>
      apply Ends.require
      apply Halts.ite _ fun _ => .pure _
      intro within
      cases root.constantValues[c.value.toNat]? <;> cases rest <;> exact .pure _

theorem SelectExpr.create_ends (c t f : Expr) : Ends fun fuel => SelectExpr.create o fuel c t f := by
  apply Ends.require
  apply Ends.require
  cases c.constant? with
  | some value => exact .ite (fun _ => .pure _) fun _ => .pure _
  | none =>
    apply Halts.ite (fun _ => .pure _)
    intro different
    apply Halts.ite _ fun _ => .pure _
    intro boolean
    cases t.constant? with
    | some value =>
      exact .ite (fun _ => OrExpr.create_ends c f) fun _ =>
        (createIsZero_ends c).bind fun isZero _ => AndExpr.create_ends isZero f
    | none =>
      cases f.constant? with
      | none => exact .pure _
      | some value =>
        exact .ite (fun _ => (createIsZero_ends c).bind fun isZero _ => OrExpr.create_ends isZero t) fun _ => AndExpr.create_ends c t

end Read

end NeuroMerge.Symbolic
