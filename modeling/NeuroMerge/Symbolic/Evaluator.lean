import Mathlib.Data.Finmap
import NeuroMerge.Symbolic.Reads

/-!
# Evaluating expressions under concrete bytes

`Assignment`, which has bytes for some arrays, and the `ExprEvaluator` that it is
evaluated by. What divides by zero is left as it is.
-/

namespace NeuroMerge.Symbolic

abbrev Bindings := Finmap fun _ : Array => List (BitVec 8)

structure PartialAssignment where
  allowFreeValues : Bool
  bindings : Bindings

def Bindings.ofValues (objects : List Array) (values : List (List (BitVec 8))) : Bindings :=
  (objects.zip values).foldl
    (fun bindings (os, arr) =>
      if (bindings.lookup os).isSome then bindings else bindings.insert os arr)
    ∅

namespace PartialAssignment

def byte? (a : PartialAssignment) (array : Array) (index : Nat) : Option (BitVec 8) :=
  (a.bindings.lookup array).bind fun bytes => bytes[index]?

def evaluateByte (o : Options) (fuel : Nat) (a : PartialAssignment) (array : Array) (index : Nat) :
    Except Fault Expr :=
  match a.byte? array index with
  | some byte => pure (.constant (.alloc byte.toNat array.range))
  | none =>
    if a.allowFreeValues then
      ReadExpr.create o fuel array .null (.constant (.alloc index array.domain))
    else pure (.constant (.alloc 0 array.range))

end PartialAssignment

namespace ExprEvaluator

variable (o : Options) (a : PartialAssignment)

/-- `evalRead`; the index has 32 bits. -/
def evalRead (visit : Expr → Except Fault Expr) (fuel : Nat) (root : Array) (index : Nat) :
    UpdateNode → Except Fault Expr
  | .null =>
    match root.constantValues[index]? with
    | some value => pure (.constant ⟨root.range, value⟩)
    | none => a.evaluateByte o fuel root index
  | .node position value next => do
    let ui ← visit position
    match ui.constant? with
    | some ce =>
      if ce.value.toNat = index then visit value
      else evalRead visit fuel root index next
    | none =>
      ReadExpr.create o fuel root (.node position value next) (.constant (.alloc index root.domain))

def post : Expr → Expr
  | .notOptimized src => src
  | e => e

def doChildren (visit : Expr → Except Fault Expr) (fuel : Nat) (e : Expr) : Except Fault Expr := do
  let kids ← e.kids.mapM visit
  post <$> if kids = e.kids then pure e else e.rebuild o fuel kids

/-- A divisor that has become zero is replaced by the original one. -/
def protectedDivisor (right visited : Expr) : Expr :=
  match visited.constant? with
  | some ce => if ce.isZero then right else visited
  | none => visited

def protectedDivOperation (visit : Expr → Except Fault Expr) (fuel : Nat) (e left right : Expr) :
    Except Fault Expr := do
  let left' ← visit left
  let visited ← visit right
  let right' := protectedDivisor right visited
  if left' ≠ left ∨ right' ≠ right then e.rebuild o fuel [left', right'] else pure e

def isRead : Expr → Bool
  | .read _ _ _ => true
  | _ => false

def visit : Nat → Expr → Except Fault Expr
  | 0, _ => throw .outOfFuel
  | fuel + 1, e =>
    if e.constant?.isSome then pure e
    -- `visitExpr` evaluates what has only constants below it
    else if isRead e = false ∧ ∀ kid ∈ e.kids, kid.constant?.isSome = true then
      e.rebuild o fuel e.kids
    else
      match e with
      | .read root head index => do
        let v ← visit fuel index
        match v.constant? with
        | some ce => do
          require (ce.width ≤ 64) .indexTooLarge
          evalRead o a (visit fuel) fuel root (ce.value.toNat % 2 ^ 32) head
        | none => doChildren o (visit fuel) fuel (.read root head index)
      | .binary kind left right =>
        if kind.isDivision then
          protectedDivOperation o (visit fuel) fuel (.binary kind left right) left right
        else doChildren o (visit fuel) fuel (.binary kind left right)
      | e => doChildren o (visit fuel) fuel e

end ExprEvaluator

namespace PartialAssignment

def evaluate (o : Options) (fuel : Nat) (a : PartialAssignment) (e : Expr) : Except Fault Expr :=
  ExprEvaluator.visit o a fuel e

def satisfies (o : Options) (fuel : Nat) (a : PartialAssignment) : List Expr → Except Fault Bool
  | [] => pure true
  | e :: rest => do
    let value ← a.evaluate o fuel e
    require (value.width = 1) .typeMismatch
    match value.constant? with
    | some ce => if ce.isTrue then satisfies o fuel a rest else pure false
    | none => pure false

end PartialAssignment

end NeuroMerge.Symbolic
