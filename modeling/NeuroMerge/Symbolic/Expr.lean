import Mathlib.Algebra.Ring.Nat
import Mathlib.Data.List.Basic

/-!
# Expressions

The `Expr` hierarchy and the update lists of array reads, with the bit vector
that an expression denotes once every symbolic array has its bytes. Sharing is
not represented: `Expr::compare` identifies exactly the structurally equal
expressions.
-/

namespace NeuroMerge.Symbolic

structure ConstantExpr where
  width : Nat
  value : BitVec width
  deriving DecidableEq

/-- `Array`: `id` is its address, which `UpdateList::compare` looks at after
the name. An array without constant values is symbolic. -/
structure Array where
  id : Nat
  name : String
  size : Nat
  domain : Nat
  range : Nat
  constantValues : List (BitVec range)
  validSize : constantValues = [] ∨ constantValues.length = size
  deriving DecidableEq

@[simp] def Array.symbolic (id : Nat) (name : String) (size : Nat) : Array :=
  ⟨id, name, size, 32, 8, [], .inl rfl⟩

def Array.isSymbolicArray (root : Array) : Bool := root.constantValues.isEmpty

def Array.isConstantArray (root : Array) : Bool := !root.isSymbolicArray

inductive BinaryKind where
  | add | sub | mul | udiv | sdiv | urem | srem
  | and | or | xor | shl | lshr | ashr
  deriving DecidableEq, Repr

inductive CmpKind where
  | eq | ne | ult | ule | ugt | uge | slt | sle | sgt | sge
  deriving DecidableEq, Repr

mutual

inductive Expr where
  | constant (value : ConstantExpr)
  | notOptimized (src : Expr)
  | read (root : Array) (head : UpdateNode) (index : Expr)
  | select (cond trueExpr falseExpr : Expr)
  | concat (left right : Expr)
  | extract (expr : Expr) (offset : Nat) (width : Nat)
  | not (expr : Expr)
  | zext (src : Expr) (width : Nat)
  | sext (src : Expr) (width : Nat)
  | binary (kind : BinaryKind) (left right : Expr)
  | cmp (kind : CmpKind) (left right : Expr)
  deriving DecidableEq

/-- The writes of an update list, the most recent one first. -/
inductive UpdateNode where
  | null
  | node (index value : Expr) (next : UpdateNode)
  deriving DecidableEq

end

@[simp] def Expr.width : Expr → Nat
  | .constant value => value.width
  | .notOptimized src => src.width
  | .read root _ _ => root.range
  | .select _ trueExpr _ => trueExpr.width
  | .concat left right => left.width + right.width
  | .extract _ _ width => width
  | .not expr => expr.width
  | .zext _ width => width
  | .sext _ width => width
  | .binary _ left _ => left.width
  | .cmp _ _ _ => 1

/-- The kinds that `klee_div_zero_check` guards. -/
def BinaryKind.isDivision : BinaryKind → Bool
  | .udiv | .sdiv | .urem | .srem => true
  | .add | .sub | .mul | .and | .or | .xor | .shl | .lshr | .ashr => false

/-- What `APInt` computes. Dividing by zero is undefined there; nothing below
depends on the value it has here. -/
@[simp] def BinaryKind.apply {w : Nat} : BinaryKind → BitVec w → BitVec w → BitVec w
  | .add, a, b => a + b
  | .sub, a, b => a - b
  | .mul, a, b => a * b
  | .udiv, a, b => a.udiv b
  | .sdiv, a, b => a.sdiv b
  | .urem, a, b => a.umod b
  | .srem, a, b => a.srem b
  | .and, a, b => a &&& b
  | .or, a, b => a ||| b
  | .xor, a, b => a ^^^ b
  | .shl, a, b => a <<< b
  | .lshr, a, b => a >>> b
  | .ashr, a, b => a.sshiftRight' b

@[simp] def CmpKind.apply {w : Nat} : CmpKind → BitVec w → BitVec w → Bool
  | .eq, a, b => a == b
  | .ne, a, b => a != b
  | .ult, a, b => a.ult b
  | .ule, a, b => a.ule b
  | .ugt, a, b => b.ult a
  | .uge, a, b => b.ule a
  | .slt, a, b => a.slt b
  | .sle, a, b => a.sle b
  | .sgt, a, b => b.slt a
  | .sge, a, b => b.sle a

/-- The bytes of the symbolic arrays, and what lies outside a constant one. -/
abbrev Assignment := (root : Array) → Nat → BitVec root.range

def Array.initial (ρ : Assignment) (root : Array) (index : Nat) : BitVec root.range :=
  root.constantValues[index]?.getD (ρ root index)

mutual

/-- The value of an expression as a bit vector of width `w`, which is meant to
be the width of the expression. -/
def Expr.eval (ρ : Assignment) : Expr → (w : Nat) → BitVec w
  | .constant value, w => value.value.setWidth w
  | .notOptimized src, w => src.eval ρ w
  | .read root head index, w =>
    (head.eval ρ root (index.eval ρ root.domain)).setWidth w
  | .select cond trueExpr falseExpr, w =>
    if cond.eval ρ 1 = 1#1 then trueExpr.eval ρ w else falseExpr.eval ρ w
  | .concat left right, w =>
    (left.eval ρ left.width ++ right.eval ρ right.width).setWidth w
  | .extract expr offset width, w =>
    ((expr.eval ρ expr.width).extractLsb' offset width).setWidth w
  | .not expr, w => ~~~ expr.eval ρ w
  | .zext src width, w => ((src.eval ρ src.width).setWidth width).setWidth w
  | .sext src width, w => ((src.eval ρ src.width).signExtend width).setWidth w
  | .binary kind left right, w => kind.apply (left.eval ρ w) (right.eval ρ w)
  | .cmp kind left right, w =>
    (BitVec.ofBool (kind.apply (left.eval ρ left.width) (right.eval ρ left.width))).setWidth w

def UpdateNode.eval (ρ : Assignment) :
    UpdateNode → (root : Array) → BitVec root.domain → BitVec root.range
  | .null, root, index => root.initial ρ index.toNat
  | .node position value next, root, index =>
    if position.eval ρ root.domain = index then value.eval ρ root.range
    else next.eval ρ root index

end

attribute [simp] Expr.eval UpdateNode.eval

/-- Which indices a constant array may be read at, and what may be divided by. -/
structure Guards where
  readable : Array → Expr → Prop
  divisible : Expr → Prop

mutual

/-- What every constructor of an expression asserts or its callers ensure:
operand widths agree, divisions are wider than a boolean, and constant arrays
and divisors are as the guards say. -/
def Expr.WellFormed (guards : Guards) : Expr → Prop
  | .constant _ => True
  | .notOptimized src => src.WellFormed guards
  | .read root head index =>
    head.WellFormed guards root ∧ index.WellFormed guards ∧
      index.width = root.domain ∧ root.domain ≤ 64 ∧
      (root.isConstantArray → guards.readable root index)
  | .select cond trueExpr falseExpr =>
    cond.WellFormed guards ∧ trueExpr.WellFormed guards ∧
      falseExpr.WellFormed guards ∧ cond.width = 1 ∧ falseExpr.width = trueExpr.width
  | .concat left right => left.WellFormed guards ∧ right.WellFormed guards
  | .extract expr offset width =>
    expr.WellFormed guards ∧ 0 < width ∧ offset + width ≤ expr.width
  | .not expr => expr.WellFormed guards
  | .zext src width => src.WellFormed guards ∧ src.width ≤ width
  | .sext src width => src.WellFormed guards ∧ src.width ≤ width
  | .binary kind left right =>
    left.WellFormed guards ∧ right.WellFormed guards ∧ right.width = left.width ∧
      (kind.isDivision → left.width ≠ 1 ∧ guards.divisible right)
  | .cmp _ left right =>
    left.WellFormed guards ∧ right.WellFormed guards ∧ right.width = left.width

def UpdateNode.WellFormed (guards : Guards) :
    UpdateNode → (root : Array) → Prop
  | .null, _ => True
  | .node position value next, root =>
    position.WellFormed guards ∧ position.width = root.domain ∧
      value.WellFormed guards ∧ value.width = root.range ∧ next.WellFormed guards root

end

attribute [simp] Expr.WellFormed UpdateNode.WellFormed

mutual

def Expr.All (p : Expr → Prop) : Expr → Prop
  | .constant value => p (.constant value)
  | .notOptimized src => p (.notOptimized src) ∧ src.All p
  | .read root head index => p (.read root head index) ∧ head.All p ∧ index.All p
  | .select cond trueExpr falseExpr =>
    p (.select cond trueExpr falseExpr) ∧ cond.All p ∧ trueExpr.All p ∧ falseExpr.All p
  | .concat left right => p (.concat left right) ∧ left.All p ∧ right.All p
  | .extract expr offset width => p (.extract expr offset width) ∧ expr.All p
  | .not expr => p (.not expr) ∧ expr.All p
  | .zext src width => p (.zext src width) ∧ src.All p
  | .sext src width => p (.sext src width) ∧ src.All p
  | .binary kind left right => p (.binary kind left right) ∧ left.All p ∧ right.All p
  | .cmp kind left right => p (.cmp kind left right) ∧ left.All p ∧ right.All p

def UpdateNode.All (p : Expr → Prop) : UpdateNode → Prop
  | .null => True
  | .node index value next => index.All p ∧ value.All p ∧ next.All p

end

theorem Expr.All.here {p : Expr → Prop} {e : Expr} (all : e.All p) : p e := by
  cases e with
  | constant value => exact all
  | notOptimized _ | read _ _ _ | select _ _ _ | concat _ _ | extract _ _ _ | not _ | zext _ _
  | sext _ _ | binary _ _ _ | cmp _ _ _ => exact all.1

/-- `e` is a well-formed expression of width `w` whose value is `v`. -/
structure Denotes (guards : Guards) (ρ : Assignment) {w : Nat}
    (e : Expr) (v : BitVec w) : Prop where
  wellFormed : e.WellFormed guards
  width : e.width = w
  value : e.eval ρ w = v

end NeuroMerge.Symbolic
