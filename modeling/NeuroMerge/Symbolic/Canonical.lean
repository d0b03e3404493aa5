import NeuroMerge.Symbolic.Denotes

/-!
# Canonical expressions

The constructors keep the first rule of canonicalization, that no expression has
all constant arguments, for sums: adding a constant to what is not a constant
never makes a constant.
-/

namespace NeuroMerge.Symbolic

variable {o : Options} {fuel : Nat} {l r e : Expr}

def Expr.Folded : Expr → Prop
  | .binary _ left right =>
    ¬ (left.constant?.isSome ∧ right.constant?.isSome) ∧ left.Folded ∧ right.Folded
  | .concat left right => left.Folded ∧ right.Folded
  | .extract expr _ _ => expr.Folded
  | _ => True

theorem Expr.Folded.right_compound {kind : BinaryKind} {c : ConstantExpr}
    (folded : (Expr.binary kind (.constant c) r).Folded) : r.constant? = none := by
  obtain ⟨notBoth, -, -⟩ := folded
  simpa [Expr.constant?] using notBoth

section Slices

theorem slices_folded (fuel : Nat) :
    (∀ l r : Expr, l.Folded → r.Folded →
      Satisfies (fun _ => True) Expr.Folded (ConcatExpr.create fuel l r)) ∧
    (∀ (e : Expr) (off w : Nat), e.Folded → Satisfies (fun _ => True) Expr.Folded (ExtractExpr.create fuel e off w)) := by
  induction fuel with
  | zero => exact ⟨fun _ _ _ _ => trivial, fun _ _ _ _ => trivial⟩
  | succ fuel ih =>
    obtain ⟨concat, extract⟩ := ih
    constructor
    · intro l r foldedLeft foldedRight
      rw [ConcatExpr.create.eq_def]
      dsimp only
      split
      · trivial
      · split
        · exact extract _ _ _ foldedLeft
        · exact ⟨foldedLeft, foldedRight⟩
      · exact ⟨foldedLeft, foldedRight⟩
    · intro e off w folded
      apply require_satisfies _ fun _ => trivial
      intro _
      split
      · exact folded
      split
      · trivial
      · rename_i left right _ _
        obtain ⟨foldedLeft, foldedRight⟩ := folded
        split
        · exact extract left _ w foldedLeft
        split
        · exact extract right off w foldedRight
        · apply Satisfies.bind (extract left _ _ foldedLeft)
          intro extractedLeft foldedExtractedLeft
          apply Satisfies.bind (extract right _ _ foldedRight)
          intro extractedRight foldedExtractedRight
          exact concat extractedLeft extractedRight foldedExtractedLeft foldedExtractedRight
      · exact folded

theorem ZExtExpr.create_folded (folded : e.Folded) (w : Nat) : Satisfies (fun _ => True) Expr.Folded (ZExtExpr.create fuel e w) := by
  rw [ZExtExpr.create]
  split
  · exact folded
  split
  · exact (slices_folded fuel).2 e 0 w folded
  · cases e.constant? with
    | some value => trivial
    | none => trivial

end Slices

section Sums

def Compound (computation : Except Fault Expr) : Prop :=
  Satisfies (fun _ => True) (fun e => e.constant? = none) computation

theorem bcreateR_constants {kind : BinaryKind} (division : kind.isDivision = false)
    {createPartial : Expr → ConstantExpr → Except Fault Expr} {createPartialR : ConstantExpr → Expr → Except Fault Expr}
    {create : Expr → Expr → Except Fault Expr} (cl cr : ConstantExpr) :
    Satisfies (fun _ => True) (fun e => ∃ k, e = .constant k ∧ k.width = cl.width)
      (bcreateR kind createPartial createPartialR create (.constant cl) (.constant cr)) := by
  apply require_satisfies _ fun _ => trivial
  intro _
  have folds : cl.binary kind cr =
      pure ⟨cl.width, kind.apply cl.value (cr.value.setWidth cl.width)⟩ := by
    rw [ConstantExpr.binary, if_neg]
    simp [division]
  simp only [Expr.constant?, folds, map_pure]
  exact ⟨_, rfl, rfl⟩

/-- A constant and an expression that is none make no constant. -/
structure SumCompound (o : Options) (fuel : Nat) : Prop where
  add : ∀ (c : ConstantExpr) (r : Expr), c.width ≠ 1 → r.Folded → r.constant? = none →
    Compound (AddExpr.create o fuel (.constant c) r)
  sub : ∀ (c : ConstantExpr) (r : Expr), c.width ≠ 1 → r.Folded → r.constant? = none →
    Compound (SubExpr.create o fuel (.constant c) r)
  addPartialR : ∀ (c : ConstantExpr) (r : Expr), c.width ≠ 1 → r.Folded → r.constant? = none →
    Compound (addExprCreatePartialR o fuel c r)
  subPartialR : ∀ (c : ConstantExpr) (r : Expr), c.width ≠ 1 → r.Folded → r.constant? = none →
    Compound (subExprCreatePartialR o fuel c r)

namespace SumCompound

theorem add_constants (fuel : Nat) (cl cr : ConstantExpr) :
    Satisfies (fun _ => True) (fun e => ∃ k, e = .constant k ∧ k.width = cl.width)
      (AddExpr.create o fuel (.constant cl) (.constant cr)) := by
  cases fuel with
  | zero => trivial
  | succ fuel =>
    rw [AddExpr.create]
    exact bcreateR_constants rfl cl cr

theorem sub_constants (fuel : Nat) (cl cr : ConstantExpr) :
    Satisfies (fun _ => True) (fun e => ∃ k, e = .constant k ∧ k.width = cl.width)
      (SubExpr.create o fuel (.constant cl) (.constant cr)) := by
  cases fuel with
  | zero => trivial
  | succ fuel =>
    rw [SubExpr.create]
    exact bcreateR_constants rfl cl cr

variable (ih : SumCompound o fuel) {c : ConstantExpr}

include ih

theorem addPartialR_succ (wide : c.width ≠ 1) (folded : r.Folded) (compound : r.constant? = none) :
    Compound (addExprCreatePartialR o (fuel + 1) c r) := by
  rw [addExprCreatePartialR.eq_def]
  dsimp only
  split
  · contradiction
  split
  · exact compound
  split
  · rename_i k b
    apply Satisfies.bind (add_constants fuel c k)
    intro sum isConstant
    obtain ⟨s, rfl, width⟩ := isConstant
    exact ih.add s b (width ▸ wide) folded.2.2 folded.right_compound
  · rename_i k b
    apply Satisfies.bind (add_constants fuel c k)
    intro sum isConstant
    obtain ⟨s, rfl, width⟩ := isConstant
    exact ih.sub s b (width ▸ wide) folded.2.2 folded.right_compound
  · rfl

theorem subPartialR_succ (wide : c.width ≠ 1) (folded : r.Folded) (compound : r.constant? = none) :
    Compound (subExprCreatePartialR o (fuel + 1) c r) := by
  rw [subExprCreatePartialR.eq_def]
  dsimp only
  split
  · contradiction
  split
  · rename_i k b
    apply Satisfies.bind (sub_constants fuel c k)
    intro difference isConstant
    obtain ⟨s, rfl, width⟩ := isConstant
    exact ih.sub s b (width ▸ wide) folded.2.2 folded.right_compound
  · rename_i k b
    apply Satisfies.bind (sub_constants fuel c k)
    intro difference isConstant
    obtain ⟨s, rfl, width⟩ := isConstant
    exact ih.add s b (width ▸ wide) folded.2.2 folded.right_compound
  · rfl

omit ih in
theorem of_fuel (fuel : Nat) : SumCompound o fuel := by
  induction fuel with
  | zero =>
    exact ⟨fun _ _ _ _ _ => trivial, fun _ _ _ _ _ => trivial, fun _ _ _ _ _ => trivial, fun _ _ _ _ _ => trivial⟩
  | succ fuel ih =>
    constructor
    · intro c r wide folded compound
      apply require_satisfies _ fun _ => trivial
      intro _
      rw [compound]
      exact ih.addPartialR c r wide folded compound
    · intro c r wide folded compound
      apply require_satisfies _ fun _ => trivial
      intro _
      rw [compound]
      exact ih.subPartialR c r wide folded compound
    · intro c r wide folded compound
      exact ih.addPartialR_succ wide folded compound
    · intro c r wide folded compound
      exact ih.subPartialR_succ wide folded compound

end SumCompound

theorem AddExpr.create_compound {c : ConstantExpr} (wide : c.width ≠ 1) (folded : l.Folded)
    (compound : l.constant? = none) : Compound (AddExpr.create o fuel l (.constant c)) := by
  cases fuel with
  | zero => trivial
  | succ fuel =>
    apply require_satisfies _ fun _ => trivial
    intro _
    rw [compound]
    exact (SumCompound.of_fuel fuel).addPartialR c l wide folded compound

end Sums

end NeuroMerge.Symbolic
