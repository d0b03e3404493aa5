import NeuroMerge.Symbolic.Visitor

/-!
# Constraint sets

`ConstraintManager`: a path condition is a list of boolean expressions, in which
`addConstraint` uses every equality with a constant to simplify the others.
-/

namespace NeuroMerge.Symbolic

namespace ConstraintManager

/-- The loop of `rewriteConstraints`, with `addConstraintInternal` for the
constraints that the visitor changes. -/
def rewriteConstraints (o : Options) (fuel : Nat) (visitor : ExprVisitor)
    (addConstraintInternal : List Expr → Expr → Except Fault (List Expr))
    (old : List Expr) : Except Fault (List Expr) :=
  old.foldlM (fun constraints ce => do
    let e ← visitor.visit o fuel ce
    if e ≠ ce then addConstraintInternal constraints e
    else pure (constraints ++ [ce])) []

def addConstraintInternal (o : Options) :
    Nat → List Expr → Expr → Except Fault (List Expr)
  | 0, _, _ => throw .outOfFuel
  | fuel + 1, constraints, e =>
    match e with
    | .constant value => do
      require value.isTrue .invalidConstraint
      pure constraints
    | .binary .and left right => do
      let constraints ← addConstraintInternal o fuel constraints left
      addConstraintInternal o fuel constraints right
    | .cmp .eq (.constant value) right => do
      let constraints ←
        if o.rewriteEqualities then
          rewriteConstraints o fuel (ExprReplaceVisitor right (.constant value))
            (addConstraintInternal o fuel) constraints
        else pure constraints
      pure (constraints ++ [.cmp .eq (.constant value) right])
    | e => pure (constraints ++ [e])

/-- What `simplifyExpr` replaces because of a constraint, and by what. -/
def equality : Expr → Expr × Expr
  | .cmp .eq (.constant value) right => (right, .constant value)
  | constraint => (constraint, .constant (.alloc 1 1))

def simplifyExpr (o : Options) (fuel : Nat) (constraints : List Expr) (e : Expr) :
    Except Fault Expr :=
  match e.constant? with
  | some _ => pure e
  | none => (ExprReplaceVisitor2 (constraints.map equality)).visit o fuel e

def addConstraint (o : Options) (fuel : Nat) (constraints : List Expr) (e : Expr) :
    Except Fault (List Expr) := do
  let e ← simplifyExpr o fuel constraints e
  addConstraintInternal o fuel constraints e

end ConstraintManager

end NeuroMerge.Symbolic
