import NeuroMerge.Foundations.CachedComparison
import NeuroMerge.Symbolic.Expr

/-!
# Comparing expressions

`Expr::compare` with the comparison of update lists that it calls, and the hashes
that it looks at first. Expressions and update nodes carry their addresses here,
which the comparison looks at before anything else.
-/

namespace NeuroMerge.Symbolic

/-- The positions in the enumeration `Kind`. -/
def BinaryKind.getKind : BinaryKind → Nat
  | .add => 10 | .sub => 11 | .mul => 12 | .udiv => 13 | .sdiv => 14 | .urem => 15 | .srem => 16
  | .and => 17 | .or => 18 | .xor => 19 | .shl => 20 | .lshr => 21 | .ashr => 22

def CmpKind.getKind : CmpKind → Nat
  | .eq => 23 | .ne => 24 | .ult => 25 | .ule => 26 | .ugt => 27 | .uge => 28
  | .slt => 29 | .sle => 30 | .sgt => 31 | .sge => 32

def Expr.getKind : Expr → Nat
  | .constant _ => 0
  | .notOptimized _ => 1
  | .read _ _ _ => 3
  | .select _ _ _ => 4
  | .concat _ _ => 5
  | .extract _ _ _ => 6
  | .zext _ _ => 7
  | .sext _ _ => 8
  | .not _ => 9
  | .binary kind _ _ => kind.getKind
  | .cmp kind _ _ => kind.getKind

def UpdateNode.getSize : UpdateNode → Nat
  | .null => 0
  | .node _ _ next => 1 + next.getSize

def Array.nameBytes (root : Array) : List Nat := root.name.toByteArray.data.toList.map UInt8.toNat

def magicHashConstant : BitVec 32 := 39#32

/-- `Expr::computeHash` from the hashes of the kids. -/
def computeHash (kind : Nat) (kids : List (BitVec 32)) : BitVec 32 :=
  kids.foldl (fun res kid => res <<< 1 ^^^ kid * magicHashConstant)
    (BitVec.ofNat 32 kind * magicHashConstant)

/-- What `UpdateList::hash` makes of the name; a `char` is signed. -/
def Array.nameHash (root : Array) : BitVec 32 :=
  root.nameBytes.foldl
    (fun res byte => res * magicHashConstant + (BitVec.ofNat 8 byte).signExtend 32) 0#32

section

-- `hash_value` of the constants that are wider than 64 bits
variable (hash_value : ConstantExpr → BitVec 64)

mutual

def Expr.hash : Expr → BitVec 32
  | .constant value =>
    (if value.width ≤ 64 then value.value.setWidth 32 else (hash_value value).setWidth 32) ^^^
      BitVec.ofNat 32 value.width * magicHashConstant
  | .notOptimized src => computeHash 1 [src.hash]
  | .read root head index => index.hash * magicHashConstant ^^^ (root.nameHash ^^^ head.hash)
  | .select cond trueExpr falseExpr => computeHash 4 [cond.hash, trueExpr.hash, falseExpr.hash]
  | .concat left right => computeHash 5 [left.hash, right.hash]
  | .extract expr offset width =>
    BitVec.ofNat 32 offset * magicHashConstant ^^^ BitVec.ofNat 32 width * magicHashConstant ^^^
      expr.hash * magicHashConstant
  | .zext src width =>
    BitVec.ofNat 32 width * magicHashConstant ^^^ src.hash * magicHashConstant
  | .sext src width =>
    BitVec.ofNat 32 width * magicHashConstant ^^^ src.hash * magicHashConstant
  | .not expr => expr.hash * magicHashConstant * 9#32
  | .binary kind left right => computeHash kind.getKind [left.hash, right.hash]
  | .cmp kind left right => computeHash kind.getKind [left.hash, right.hash]

/-- A list that ends adds nothing to the hash. -/
def UpdateNode.hash : UpdateNode → BitVec 32
  | .null => 0#32
  | .node index value next => index.hash ^^^ value.hash ^^^ next.hash

end

end

mutual

/-- An expression with the addresses of its nodes. -/
inductive ExprRef where
  | constant (address : Nat) (value : ConstantExpr)
  | notOptimized (address : Nat) (src : ExprRef)
  | read (address : Nat) (root : Array) (head : UpdateRef) (index : ExprRef)
  | select (address : Nat) (cond trueExpr falseExpr : ExprRef)
  | concat (address : Nat) (left right : ExprRef)
  | extract (address : Nat) (expr : ExprRef) (offset : Nat) (width : Nat)
  | not (address : Nat) (expr : ExprRef)
  | zext (address : Nat) (src : ExprRef) (width : Nat)
  | sext (address : Nat) (src : ExprRef) (width : Nat)
  | binary (address : Nat) (kind : BinaryKind) (left right : ExprRef)
  | cmp (address : Nat) (kind : CmpKind) (left right : ExprRef)

inductive UpdateRef where
  | null
  | node (address : Nat) (index value : ExprRef) (next : UpdateRef)

end

def ExprRef.address : ExprRef → Nat
  | .constant address _ | .notOptimized address _ | .read address _ _ _
  | .select address _ _ _ | .concat address _ _ | .extract address _ _ _ | .not address _
  | .zext address _ _ | .sext address _ _ | .binary address _ _ _ | .cmp address _ _ _ => address

mutual

def ExprRef.erase : ExprRef → Expr
  | .constant _ value => .constant value
  | .notOptimized _ src => .notOptimized src.erase
  | .read _ root head index => .read root head.erase index.erase
  | .select _ cond trueExpr falseExpr => .select cond.erase trueExpr.erase falseExpr.erase
  | .concat _ left right => .concat left.erase right.erase
  | .extract _ expr offset width => .extract expr.erase offset width
  | .not _ expr => .not expr.erase
  | .zext _ src width => .zext src.erase width
  | .sext _ src width => .sext src.erase width
  | .binary _ kind left right => .binary kind left.erase right.erase
  | .cmp _ kind left right => .cmp kind left.erase right.erase

def UpdateRef.erase : UpdateRef → UpdateNode
  | .null => .null
  | .node _ index value next => .node index.erase value.erase next.erase

end

section

variable (hash_value : ConstantExpr → BitVec 64)

/-- `hashValue`, which was computed when the node was made. -/
def ExprRef.hashValue (this : ExprRef) : Nat := (this.erase.hash hash_value).toNat

open CachedComparison

mutual

/-- `Expr::compare` with the set of equal pairs; unless `cached`, what is in the set
does not count. -/
def ExprRef.compareWith (cached : Bool) (this b : ExprRef) : CachedComparison Nat :=
  remembering cached this.address b.address <|
    decidedBy (compare this.erase.getKind b.erase.getKind) <|
      decidedBy (compare (this.hashValue hash_value) (b.hashValue hash_value)) <|
        match this, b with
        | .constant _ value, .constant _ value' =>
          decidedBy (compare value.width value'.width) <|
            decidedBy (compare value.value.toNat value'.value.toNat) equal
        | .notOptimized _ src, .notOptimized _ src' => src.compareWith cached src'
        | .read _ root head index, .read _ root' head' index' =>
          -- `UpdateList::compare`, then the kid
          (decidedBy (compare root.nameBytes root'.nameBytes) <|
            decidedBy (compare root.id root'.id) <|
              decidedBy (compare head.erase.getSize head'.erase.getSize) <|
                head.compareNodes cached head').andThen
            (index.compareWith cached index')
        | .select _ cond trueExpr falseExpr, .select _ cond' trueExpr' falseExpr' =>
          (cond.compareWith cached cond').andThen <|
            (trueExpr.compareWith cached trueExpr').andThen
              (falseExpr.compareWith cached falseExpr')
        | .concat _ left right, .concat _ left' right' =>
          decidedBy (compare (left.erase.width + right.erase.width)
              (left'.erase.width + right'.erase.width)) <|
            (left.compareWith cached left').andThen (right.compareWith cached right')
        | .extract _ expr offset width, .extract _ expr' offset' width' =>
          decidedBy (compare offset offset') <|
            decidedBy (compare width width') <| expr.compareWith cached expr'
        | .not _ expr, .not _ expr' => expr.compareWith cached expr'
        | .zext _ src width, .zext _ src' width' =>
          decidedBy (compare width width') <| src.compareWith cached src'
        | .sext _ src width, .sext _ src' width' =>
          decidedBy (compare width width') <| src.compareWith cached src'
        | .binary _ _ left right, .binary _ _ left' right' =>
          (left.compareWith cached left').andThen (right.compareWith cached right')
        | .cmp _ _ left right, .cmp _ _ left' right' =>
          (left.compareWith cached left').andThen (right.compareWith cached right')
        -- the kinds differ
        | _, _ => equal

/-- The loop of `UpdateList::compare`. `UpdateNode::compare` calls the comparison
that clears the set when it is done. -/
def UpdateRef.compareNodes (cached : Bool) (an bn : UpdateRef) : CachedComparison Nat :=
  match an, bn with
  | .node address index value next, .node address' index' value' next' =>
    if address = address' then equal
    else
      ((index.compareWith cached index').forgetting.andThen
        (value.compareWith cached value').forgetting).andThen (next.compareNodes cached next')
  | _, _ => equal

end

def ExprRef.compare (this b : ExprRef) : Ordering := (this.compareWith hash_value true b []).1

end

end NeuroMerge.Symbolic
