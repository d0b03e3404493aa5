import NeuroMerge.Symbolic.Reads

/-!
# Normal forms of compositions

What is composed of calls of the constructors has the documented form, unless a
conjunction or a disjunction is built from a constant that stays in it: these two
put the constant on the right.
-/

namespace NeuroMerge.Symbolic

/-- The expressions that the constructors build, by conjunctions and disjunctions
whose operands are `joined`. -/
inductive Composed (o : Options) (joined : Expr → Expr → Prop) : Expr → Prop
  | constant (c : ConstantExpr) : Composed o joined (.constant c)
  | notOptimized {src : Expr} : Composed o joined src →
      Composed o joined (NotOptimizedExpr.create src)
  | read (root : Array) {fuel : Nat} {head : UpdateNode} {index e : Expr} :
      (∀ kid ∈ head.kids, Composed o joined kid) → Composed o joined index →
      ReadExpr.create o fuel root head index = .ok e → Composed o joined e
  | select {fuel : Nat} {c t f e : Expr} : Composed o joined c → Composed o joined t →
      Composed o joined f → SelectExpr.create o fuel c t f = .ok e → Composed o joined e
  | concat {fuel : Nat} {l r e : Expr} : Composed o joined l → Composed o joined r →
      ConcatExpr.create fuel l r = .ok e → Composed o joined e
  | extract {fuel off w : Nat} {expr e : Expr} : Composed o joined expr →
      ExtractExpr.create fuel expr off w = .ok e → Composed o joined e
  | not {expr : Expr} : Composed o joined expr → Composed o joined (NotExpr.create expr)
  | zext {fuel w : Nat} {src e : Expr} : Composed o joined src →
      ZExtExpr.create fuel src w = .ok e → Composed o joined e
  | sext {fuel w : Nat} {src e : Expr} : Composed o joined src →
      SExtExpr.create fuel src w = .ok e → Composed o joined e
  | binary (kind : BinaryKind) {fuel : Nat} {l r e : Expr} : Composed o joined l →
      Composed o joined r → (kind = .and ∨ kind = .or → joined l r) →
      kind.create o fuel l r = .ok e → Composed o joined e
  | cmp (kind : CmpKind) {fuel : Nat} {l r e : Expr} : Composed o joined l →
      Composed o joined r → kind.create o fuel l r = .ok e → Composed o joined e

variable {o : Options} {fuel : Nat} {l r e : Expr}

theorem UpdateNode.all_of_kids {p : Expr → Prop} : ∀ {head : UpdateNode},
    (∀ kid ∈ head.kids, kid.All p) → head.All p
  | .null, _ => trivial
  | .node _ _ _, all => ⟨all _ (.head _), all _ (.tail _ (.head _)), all_of_kids fun kid member => all kid (.tail _ (.tail _ member))⟩

theorem Composed.normal (composed : Composed o Joins e) : e.All Expr.Normal := by
  have kept {e : Expr} (normal : e.All Expr.Normal) : e.Kept True := fun _ => normal
  have made {computation : Except Fault Expr} {e : Expr} {bound : Nat}
      (made : Made True True bound computation) (returned : computation = .ok e) :
      e.All Expr.Normal := (Satisfies.elim made returned).1 trivial
  induction composed with
  | constant c => exact trivial
  | notOptimized _ ih => exact ⟨trivial, ih⟩
  | read root _ _ returned heads ih =>
    exact made (ReadExpr.create_made root (fun _ => UpdateNode.all_of_kids heads) (kept ih)) returned
  | select _ _ _ returned cond trueExpr falseExpr =>
    exact made (SelectExpr.create_made (kept cond) (kept trueExpr) (kept falseExpr)) returned
  | concat _ _ returned left right =>
    exact made ((slices_made _).1 (kept left) (kept right)) returned
  | extract _ returned ih => exact made ((slices_made _).2 _ _ (kept ih)) returned
  | not _ ih =>
    rw [NotExpr.create]
    split
    · exact trivial
    · exact ⟨trivial, ih⟩
  | zext _ returned ih => exact made (ZExtExpr.create_made (kept ih) _) returned
  | sext _ returned ih => exact made (SExtExpr.create_made (kept ih) _) returned
  | binary kind _ _ joins returned left right =>
    exact made (kind.create_made (kept left) (kept right) (fun _ _ _ _ => trivial) fun junction _ => joins junction) returned
  | cmp kind _ _ returned left right =>
    exact made (CmpKind.create_made (kept left) (kept right) kind) returned

theorem junction_stays {kind : BinaryKind} {c : ConstantExpr} (junction : kind = .and ∨ kind = .or)
    (compound : e.constant? = none) (stays : ¬ (Expr.constant c).Absorbed)
    (operands : l = e ∧ r = .constant c ∨ l = .constant c ∧ r = e) :
    Satisfies (fun _ => True) (fun e' => ¬ e'.Normal) (kind.create o fuel l r) := by
  have notAllOnes : ¬ c.isAllOnes := fun allOnes => stays ⟨c, rfl, .inl allOnes⟩
  have notZero : ¬ c.isZero := fun zero => stays ⟨c, rfl, .inr zero⟩
  rcases junction with rfl | rfl <;> rcases operands with ⟨rfl, rfl⟩ | ⟨rfl, rfl⟩
  all_goals
    apply require_satisfies _ fun _ => trivial
    intro _
    rw [compound]
    simp [Expr.constant?, andExprCreatePartialR, andExprCreatePartial, orExprCreatePartialR,
      orExprCreatePartial, notAllOnes, notZero, Expr.Normal, BinaryKind.movesConstant]

theorem joins_of_normal {kind : BinaryKind} (junction : kind = .and ∨ kind = .or)
    (returned : kind.create o fuel l r = .ok e) (normal : e.Normal) : Joins l r := by
  have absorbed {c : ConstantExpr} {e : Expr} (compound : e.constant? = none)
      (operands : l = e ∧ r = .constant c ∨ l = .constant c ∧ r = e) :
      (Expr.constant c).Absorbed := by
    by_contra stays
    exact (junction_stays junction compound stays operands).elim returned normal
  constructor
  · intro compound apart
    cases isConstant : r.constant? with
    | none => rfl
    | some c =>
      obtain rfl := Expr.constant?_eq_some.mp isConstant
      exact absurd (absorbed compound (.inl ⟨rfl, rfl⟩)) apart
  · intro compound apart
    cases isConstant : l.constant? with
    | none => rfl
    | some c =>
      obtain rfl := Expr.constant?_eq_some.mp isConstant
      exact absurd (absorbed compound (.inr ⟨rfl, rfl⟩)) apart

/-- Whatever is composed is normal if constants do not stay in conjunctions and
disjunctions; one in which a constant stays is not. -/
theorem composed_normal (o : Options) : (∀ e, Composed o Joins e → e.All Expr.Normal) ∧
    ∀ kind : BinaryKind, kind = .and ∨ kind = .or → ∀ fuel l r e, kind.create o fuel l r = .ok e →
      e.Normal → Joins l r :=
  ⟨fun _ => Composed.normal, fun _ junction _ _ _ _ => joins_of_normal junction⟩

def firstByte : Expr := .read (.symbolic 0 "x" 1) .null (.constant ⟨32, 0⟩)

theorem firstByte_composed (o : Options) (joined : Expr → Expr → Prop) : Composed o joined firstByte := by
  have returned : ReadExpr.create o 0 (.symbolic 0 "x" 1) .null (.constant ⟨32, 0⟩) =
      .ok firstByte := rfl
  exact .read _ (by simp [UpdateNode.kids]) (.constant _) returned

theorem composed_normal_sum : (Expr.binary .add (.constant ⟨8, 5⟩) firstByte).All Expr.Normal ∧
    Joins firstByte (.constant ⟨8, 255⟩) := by
  have returned : BinaryKind.add.create ⟨true, true⟩ 2 firstByte (.constant ⟨8, 5⟩) =
      .ok (.binary .add (.constant ⟨8, 5⟩) firstByte) := rfl
  have composed : Composed ⟨true, true⟩ Joins (.binary .add (.constant ⟨8, 5⟩) firstByte) :=
    .binary .add (firstByte_composed _ _) (.constant _) nofun returned
  exact ⟨(composed_normal ⟨true, true⟩).1 _ composed,
    (composed_normal ⟨true, true⟩).2 .and (.inl rfl) 0 firstByte (.constant ⟨8, 255⟩) firstByte rfl
      trivial⟩

/-- `And` of a byte and five has the five on the right. -/
theorem mask_not_normal : ∃ e, Composed ⟨true, true⟩ (fun _ _ => True) e ∧
    e = .binary .and firstByte (.constant ⟨8, 5⟩) ∧ ¬ e.Normal := by
  have returned : BinaryKind.and.create ⟨true, true⟩ 0 firstByte (.constant ⟨8, 5⟩) =
      .ok (.binary .and firstByte (.constant ⟨8, 5⟩)) := rfl
  refine ⟨_, .binary .and (firstByte_composed _ _) (.constant _) (fun _ => trivial) returned, rfl, ?_⟩
  simp [Expr.Normal, BinaryKind.movesConstant, Expr.constant?]

end NeuroMerge.Symbolic
