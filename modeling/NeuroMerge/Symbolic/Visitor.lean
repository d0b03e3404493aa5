import NeuroMerge.Symbolic.Constructors

/-!
# Expression visitors

`ExprVisitor` and the two visitors by which constraints are simplified. A visit
depends on nothing but the expression; the cache of visited expressions is a
matter of its own.
-/

namespace NeuroMerge.Symbolic

/-- `getKid`, in order. The updates of a read are not among them. -/
def Expr.kids : Expr → List Expr
  | .constant _ => []
  | .notOptimized src => [src]
  | .read _ _ index => [index]
  | .select cond trueExpr falseExpr => [cond, trueExpr, falseExpr]
  | .concat left right => [left, right]
  | .extract expr _ _ => [expr]
  | .not expr => [expr]
  | .zext src _ => [src]
  | .sext src _ => [src]
  | .binary _ left right => [left, right]
  | .cmp _ left right => [left, right]

def Expr.rebuild (o : Options) (fuel : Nat) : Expr → List Expr → Except Fault Expr
  | .notOptimized _, [src] => pure (NotOptimizedExpr.create src)
  | .read root head _, [index] => ReadExpr.create o fuel root head index
  | .select _ _ _, [cond, trueExpr, falseExpr] =>
    SelectExpr.create o fuel cond trueExpr falseExpr
  | .concat _ _, [left, right] => ConcatExpr.create fuel left right
  | .extract _ offset width, [expr] => ExtractExpr.create fuel expr offset width
  | .not _, [expr] => pure (NotExpr.create expr)
  | .zext _ width, [src] => ZExtExpr.create fuel src width
  | .sext _ width, [src] => SExtExpr.create fuel src width
  | .binary kind _ _, [left, right] => kind.create o fuel left right
  | .cmp kind _ _, [left, right] => kind.create o fuel left right
  | _, _ => throw (.assertion .invalidKind)

/-- What the two visit functions change an expression to, if anything. -/
structure ExprVisitor where
  recursive : Bool
  visitExpr : Expr → Option Expr
  visitExprPost : Expr → Option Expr

def ExprVisitor.post (visitor : ExprVisitor) (e : Expr) : Expr :=
  match e.constant? with
  | some _ => e
  | none => (visitor.visitExprPost e).getD e

def ExprVisitor.visit (o : Options) (visitor : ExprVisitor) : Nat → Expr → Except Fault Expr
  | 0, _ => throw .outOfFuel
  | fuel + 1, e =>
    match e.constant?, visitor.visitExpr e with
    | some _, _ => pure e
    | none, some argument => pure argument
    | none, none => do
      let kids ← e.kids.mapM (visitor.visit o fuel)
      if kids = e.kids then pure (visitor.post e)
      else do
        let rebuilt ← e.rebuild o fuel kids
        if visitor.recursive then visitor.post <$> visitor.visit o fuel rebuilt
        else pure (visitor.post rebuilt)

def ExprReplaceVisitor (src dst : Expr) : ExprVisitor where
  recursive := false
  visitExpr e := if e = src then some dst else none
  visitExprPost e := if e = src then some dst else none

/-- Replaces by a map, whose first entry for an expression counts. -/
def ExprReplaceVisitor2 (replacements : List (Expr × Expr)) : ExprVisitor where
  recursive := true
  visitExpr _ := none
  visitExprPost e := replacements.lookup e

end NeuroMerge.Symbolic
