import Mathlib.Data.Nat.Size
import NeuroMerge.Foundations.BitVectorTerm
import NeuroMerge.Solver.ConstantDivision
import NeuroMerge.Symbolic.Constructors

/-!
# Building solver terms

`STPBuilder` and `Z3Builder`, which build the same terms but for the places that
look at the backend. A one-bit expression becomes a boolean. The expressions that
were built before are kept by the source only to save time.
-/

namespace NeuroMerge.Builder

open BitVectorTerm ConstantDivision
open Symbolic (Array Expr UpdateNode ConstantExpr BinaryKind CmpKind)

/-- The builder, and `optimizeDivides` of `STPBuilder`. -/
inductive Backend where
  | stp (optimizeDivides : Bool)
  | z3
  deriving DecidableEq, Repr

inductive Fault where
  | uncanonicalized
  | invalidMultConstants
  | unhandledKind
  deriving DecidableEq, Repr

/-- `ExprHandle`; an array is known by its root. -/
abbrev Handle := Term Array

/-! ## Constants -/

def bvConst32 (width value : Nat) : Handle := .const width (value % 2 ^ 32)

def bvConst64 (width value : Nat) : Handle := .const width (value % 2 ^ 64)

/-- The loop of `bvZExtConst`. -/
def padZeros (width : Nat) (expr : Handle) : Handle :=
  if 64 < width then padZeros (width - 64) (.concat (bvConst64 64 0) expr)
  else .concat (bvConst64 width 0) expr
termination_by width

def bvZExtConst (width value : Nat) : Handle :=
  if width ≤ 64 then bvConst64 width value else padZeros (width - 64) (bvConst64 64 value)

def bvSExtConst (backend : Backend) (width : Nat) (value : BitVec 64) : Handle :=
  if width ≤ 64 then bvConst64 width value.toNat
  else
    match backend with
    | .stp _ => .signExtend width (bvConst64 64 value.toNat)
    | .z3 =>
      .concat (.const (width - 64) (if value.msb then 2 ^ (width - 64) - 1 else 0))
        (bvConst64 64 value.toNat)

def bvOne (width : Nat) : Handle := bvZExtConst width 1

def bvZero (width : Nat) : Handle := bvZExtConst width 0

def bvMinusOne (backend : Backend) (width : Nat) : Handle :=
  bvSExtConst backend width (BitVec.allOnes 64)

/-- The loop over the upper parts of a wide constant. -/
def upperParts (tmp : ConstantExpr) (res : Handle) : Handle :=
  if 64 < tmp.width then
    let tmp' := tmp.extract 64 (tmp.width - 64)
    let width := min 64 tmp'.width
    upperParts tmp' (.concat (bvConst64 width (tmp'.extract 0 width).value.toNat) res)
  else res
termination_by tmp.width
decreasing_by exact Nat.sub_lt (by omega) (by omega)

def constructConstant (ce : ConstantExpr) : Handle :=
  if ce.width = 1 then .bool ce.isTrue
  else if ce.width ≤ 32 then bvConst32 ce.width ce.value.toNat
  else if ce.width ≤ 64 then bvConst64 ce.width ce.value.toNat
  else upperParts ce (bvConst64 64 (ce.extract 0 64).value.toNat)

/-! ## Shifts -/

def bvExtract (expr : Handle) (top bottom : Nat) : Handle := .extract top bottom expr

def bvBoolExtract (expr : Handle) (bit : Nat) : Handle :=
  .compare .eq (bvExtract expr bit bit) (bvOne 1)

def eqExpr (a b : Handle) : Handle := .compare .eq a b

def bvRightShift (expr : Handle) (shift : Nat) : Handle :=
  let width := expr.length
  if shift = 0 then expr
  else if width ≤ shift then bvZero width
  else .concat (bvZero shift) (bvExtract expr (width - 1) shift)

def bvLeftShift (expr : Handle) (shift : Nat) : Handle :=
  let width := expr.length
  if shift = 0 then expr
  else if width ≤ shift then bvZero width
  else .concat (bvExtract expr (width - shift - 1) 0) (bvZero shift)

def constructAShrByConstant (backend : Backend) (expr : Handle) (shift : Nat) (isSigned : Handle) :
    Handle :=
  let width := expr.length
  if shift = 0 then expr
  else if width ≤ shift then bvZero width
  else
    .ite isSigned (.concat (bvMinusOne backend shift) (bvExtract expr (width - 1) shift))
      (bvRightShift expr shift)

/-- Whether the amount is `i`: STP looks at as many bits of it as the width has. -/
def amountIs (backend : Backend) (shift : Handle) (width i : Nat) : Handle :=
  match backend with
  | .stp _ =>
    let shiftBits := Nat.size width
    eqExpr (bvExtract shift (shiftBits - 1) 0) (bvConst32 shiftBits i)
  | .z3 => eqExpr shift (bvConst32 width i)

/-- "A big if-then-elif-elif-... with one case per possible shift amount", from the last one. -/
def shiftCases (backend : Backend) (shift : Handle) (width : Nat) (shifted : Nat → Handle)
    (cases : Nat) (res : Handle) : Handle :=
  (List.range cases).foldr (fun i res => .ite (amountIs backend shift width i) (shifted i) res) res

/-- "If overshifting, shift to zero" -/
def unlessOvershift (shift : Handle) (width : Nat) (res : Handle) : Handle :=
  .ite (.compare .ult shift (bvConst32 shift.length width)) res (bvZero width)

def bvVarLeftShift (backend : Backend) (expr shift : Handle) : Handle :=
  let width := expr.length
  unlessOvershift shift width
    (shiftCases backend shift width (bvLeftShift expr) width (bvZero width))

def bvVarRightShift (backend : Backend) (expr shift : Handle) : Handle :=
  let width := expr.length
  unlessOvershift shift width
    (shiftCases backend shift width (bvRightShift expr) width (bvZero width))

def bvVarArithRightShift (backend : Backend) (expr shift : Handle) : Handle :=
  let width := expr.length
  let signedBool := bvBoolExtract expr (width - 1)
  let shifted i := constructAShrByConstant backend expr i signedBool
  unlessOvershift shift width
    (shiftCases backend shift width shifted (width - 1) (shifted (width - 1)))

/-! ## Multiplication and division by constants -/

def addMultiple (expr : Handle) (add sub : BitVec 64) (res : Option Handle) (j : Nat) :
    Except Fault (Option Handle) :=
  let op := bvLeftShift expr j
  if add.getLsbD j ∧ sub.getLsbD j then throw .invalidMultConstants
  else if add.getLsbD j then
    match res with
    | some res => pure (some (.arith .add res op))
    | none => pure (some op)
  else if sub.getLsbD j then
    match res with
    | some res => pure (some (.arith .sub res op))
    | none => pure (some (.bvneg op))
  else pure res

def constructMulByConstant (expr : Handle) (width : Nat) (x : BitVec 64) : Except Fault Handle := do
  match computeMultConstants64 x with
  | none => throw .invalidMultConstants
  | some (add, sub) =>
    let add := Bits64.truncateToNBits add width
    let sub := Bits64.truncateToNBits sub width
    let res ← (List.range 64).reverse.foldlM (addMultiple expr add sub) none
    pure (res.getD (bvZero width))

def constructUDivByConstant (backend : Backend) (n : Handle) (d : BitVec 32) :
    Except Fault Handle := do
  let ⟨mprime, sh1, sh2⟩ := computeUDivConstants32 d
  let n64 : Handle := .concat (bvZero 32) n
  let t1 := bvExtract (← constructMulByConstant n64 64 (mprime.setWidth 64)) 63 32
  let nMinusT1 : Handle := .arith .sub n t1
  let shiftSh1 := bvVarRightShift backend nMinusT1 (bvConst32 32 sh1.toNat)
  let plusT1 : Handle := .arith .add shiftSh1 t1
  pure (bvVarRightShift backend plusT1 (bvConst32 32 sh2.toNat))

def constructSDivByConstant (backend : Backend) (n : Handle) (d : BitVec 32) :
    Except Fault Handle := do
  let ⟨mprime, dsign, shpost⟩ := computeSDivConstants32 d
  let exprDsign := bvConst32 32 dsign.toNat
  let mult64 ← constructMulByConstant (.signExtend 64 n) 64 (mprime.signExtend 64)
  let nPlusMulsh : Handle := .arith .add n (bvExtract mult64 63 32)
  let shiftNpm := bvVarRightShift backend (.signExtend 64 nPlusMulsh) (bvConst32 32 shpost.toNat)
  let xsignOfN : Handle := .ite (bvBoolExtract n 31) (bvMinusOne backend 32) (bvZero 32)
  let q0 : Handle := .arith .sub (bvExtract shiftNpm 31 0) xsignOfN
  pure (.arith .sub (.arith .xor q0 exprDsign) exprDsign)

/-! ## Arrays -/

/-- `getInitialArray`: STP writes the constant values, and Z3 asserts them. -/
def getInitialArray (backend : Backend) (root : Array) : ArrayTerm Array :=
  match backend with
  | .z3 => .var root root.domain root.range
  | .stp _ =>
    if root.isConstantArray then
      (List.range root.size).foldl
        (fun prev i =>
          .store prev (constructConstant (.alloc i root.domain))
            (constructConstant ⟨root.range, root.constantValues[i]?.getD 0⟩))
        (.var root root.domain root.range)
    else .var root root.domain root.range

/-- What `Z3Builder` asserts of a constant array. -/
def constantArrayAssertions (root : Array) : List Handle :=
  (List.range root.size).map fun i =>
    eqExpr (.select (.var root root.domain root.range) (bvConst32 root.domain i))
      (constructConstant ⟨root.range, root.constantValues[i]?.getD 0⟩)

/-! ## Operators -/

/-- The assertion that booleans are not calculated with. -/
def canonicalized (width : Nat) : Except Fault Unit :=
  if width = 1 then throw .uncanonicalized else pure ()

def shiftAmount (ce : ConstantExpr) : Nat := min ce.value.toNat (2 ^ 64 - 1) % 2 ^ 32

def narrowConstant (e : Expr) : Option (BitVec 64) :=
  match e.constant? with
  | some ce => if ce.width ≤ 64 then some (ce.value.setWidth 64) else none
  | none => none

def constructMul (backend : Backend) (l : Expr) (left right : Handle) (width : Nat) :
    Except Fault Handle :=
  match backend, narrowConstant l with
  | .stp _, some x => constructMulByConstant right width x
  | _, _ => pure (.arith .mul left right)

def constructUDiv (backend : Backend) (r : Expr) (left right : Handle) (width : Nat) :
    Except Fault Handle :=
  match narrowConstant r with
  | some divisor =>
    if Bits64.isPowerOfTwo divisor then
      pure (bvRightShift left (Bits64.indexOfSingleBit divisor))
    else if backend = .stp true ∧ width = 32 then
      constructUDivByConstant backend left (divisor.setWidth 32)
    else pure (.arith .udiv left right)
  | none => pure (.arith .udiv left right)

def constructSDiv (backend : Backend) (r : Expr) (left right : Handle) (width : Nat) :
    Except Fault Handle :=
  match r.constant? with
  | some ce =>
    if backend = .stp true ∧ ce.value ≠ 1#(ce.width) ∧ ce.value ≠ BitVec.allOnes ce.width ∧
        width = 32 then
      constructSDivByConstant backend left (ce.value.setWidth 32)
    else pure (.arith .sdiv left right)
  | none => pure (.arith .sdiv left right)

def constructURem (backend : Backend) (r : Expr) (left right : Handle) (width : Nat) :
    Except Fault Handle :=
  match narrowConstant r with
  | some divisor =>
    if Bits64.isPowerOfTwo divisor then
      let bits := Bits64.indexOfSingleBit divisor
      if bits = 0 then pure (bvZero width)
      else pure (.concat (bvZero (width - bits)) (bvExtract left (bits - 1) 0))
    else if backend = .stp true ∧ width = 32 then do
      let quotient ← constructUDivByConstant backend left (divisor.setWidth 32)
      let product ← constructMulByConstant quotient width divisor
      pure (.arith .sub left product)
    else pure (.arith .urem left right)
  | none => pure (.arith .urem left right)

/-- A bitwise operation, or the connective of booleans. -/
def constructBitwise (connective : Connective) (op : Arithmetic) (left right : Handle)
    (width : Nat) : Handle :=
  if width = 1 then .connect connective left right else .arith op left right

/-- The operators of `constructActual` on two operands that were constructed. The source does not
construct a constant that it does not need. -/
def constructBinary (backend : Backend) (kind : BinaryKind) (l r : Expr) (left right : Handle)
    (width : Nat) : Except Fault Handle :=
  match kind with
  | .and => pure (constructBitwise .and .and left right width)
  | .or => pure (constructBitwise .or .or left right width)
  | .xor =>
    if width = 1 then pure (.ite left (.not right) right)
    else pure (.arith .xor left right)
  | .add => do
    canonicalized width
    pure (.arith .add left right)
  | .sub => do
    canonicalized width
    pure (.arith .sub left right)
  | .mul => do
    canonicalized width
    constructMul backend l left right width
  | .udiv => do
    canonicalized width
    constructUDiv backend r left right width
  | .sdiv => do
    canonicalized width
    constructSDiv backend r left right width
  | .urem => do
    canonicalized width
    constructURem backend r left right width
  | .srem => do
    canonicalized width
    pure (.arith .srem left right)
  | .shl => do
    canonicalized width
    match r.constant? with
    | some ce => pure (bvLeftShift left (shiftAmount ce))
    | none => pure (bvVarLeftShift backend left right)
  | .lshr => do
    canonicalized width
    match r.constant? with
    | some ce => pure (bvRightShift left (shiftAmount ce))
    | none => pure (bvVarRightShift backend left right)
  | .ashr => do
    canonicalized width
    match r.constant? with
    | some ce =>
      pure (constructAShrByConstant backend left (shiftAmount ce) (bvBoolExtract left (width - 1)))
    | none => pure (bvVarArithRightShift backend left right)

def constructEq (l : Expr) (left right : Handle) (width : Nat) : Handle :=
  if width = 1 then
    match l.constant? with
    | some ce => if ce.isTrue then right else .not right
    | none => .connect .iff left right
  else .compare .eq left right

def constructCompare (op : Comparison) (left right : Handle) (width : Nat) :
    Except Fault Handle := do
  canonicalized width
  pure (.compare op left right)

def constructCmp (kind : CmpKind) (l : Expr) (left right : Handle) (width : Nat) :
    Except Fault Handle :=
  match kind with
  | .eq => pure (constructEq l left right width)
  | .ult => constructCompare .ult left right width
  | .ule => constructCompare .ule left right width
  | .slt => constructCompare .slt left right width
  | .sle => constructCompare .sle left right width
  | .ne | .ugt | .uge | .sgt | .sge => throw .unhandledKind

mutual

def construct (backend : Backend) : Expr → Except Fault (Handle × Nat)
  | .constant ce => pure (constructConstant ce, ce.width)
  | .notOptimized src => construct backend src
  | .read root head index => do
    let array ← getArrayForUpdate backend root head
    let (index, _) ← construct backend index
    pure (.select array index, root.range)
  | .select cond trueExpr falseExpr => do
    let (cond, _) ← construct backend cond
    let (tExpr, _) ← construct backend trueExpr
    let (fExpr, width) ← construct backend falseExpr
    pure (.ite cond tExpr fExpr, width)
  | .concat left right => do
    let (res, _) ← construct backend right
    let (kid, _) ← construct backend left
    pure (.concat kid res, left.width + right.width)
  | .extract expr offset width => do
    let (src, _) ← construct backend expr
    if width = 1 then pure (bvBoolExtract src offset, width)
    else pure (bvExtract src (offset + width - 1) offset, width)
  | .not expr => do
    let (expr, width) ← construct backend expr
    if width = 1 then pure (.not expr, width) else pure (.bvnot expr, width)
  | .zext src width => do
    let (src, srcWidth) ← construct backend src
    if srcWidth = 1 then pure (.ite src (bvOne width) (bvZero width), width)
    else pure (.concat (bvZero (width - srcWidth)) src, width)
  | .sext src width => do
    let (src, srcWidth) ← construct backend src
    if srcWidth = 1 then pure (.ite src (bvMinusOne backend width) (bvZero width), width)
    else pure (.signExtend width src, width)
  | .binary kind l r => do
    let (left, _) ← construct backend l
    let (right, width) ← construct backend r
    let term ← constructBinary backend kind l r left right width
    pure (term, width)
  | .cmp kind l r => do
    let (left, _) ← construct backend l
    let (right, width) ← construct backend r
    let term ← constructCmp kind l left right width
    pure (term, 1)

def getArrayForUpdate (backend : Backend) (root : Array) :
    UpdateNode → Except Fault (ArrayTerm Array)
  | .null => pure (getInitialArray backend root)
  | .node index value next => do
    let array ← getArrayForUpdate backend root next
    let (index, _) ← construct backend index
    let (value, _) ← construct backend value
    pure (.store array index value)

end

attribute [simp] construct getArrayForUpdate

end NeuroMerge.Builder
