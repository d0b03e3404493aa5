import NeuroMerge.Symbolic.Expr

/-!
# Expression constructors

The `create` functions of the `Expr` hierarchy. A static helper such as
`AddExpr_createPartialR` is `addExprCreatePartialR`, and allocating a node is
applying its constructor. The functions call each other without an obvious
measure, so those that do so take fuel.
-/

namespace NeuroMerge.Symbolic

/-- The command line options that expressions and constraints depend on. -/
structure Options where
  constArrayOpt : Bool
  rewriteEqualities : Bool
  deriving DecidableEq, Repr

inductive Assertion where
  | typeMismatch
  | invalidExtract
  | indexTooLarge
  | invalidKind
  | invalidConstraint
  | constantOffset
  | invalidSize
  | unflushedByteWithoutValue
  | readOnlyCopied
  | alreadyOwned
  | mutatedNotWritable
  | missingObject
  | solverFailure
  | replayExhausted
  | replayDiverged
  | forkInReplay
  | noConditions
  | queryNotFalse
  | noAssignment
  | notConstant
  | bindingMismatch
  | emptyFactor
  | differentSizes
  | pointNotTrue
  deriving DecidableEq, Repr

inductive Fault where
  | assertion (failed : Assertion)
  | divisionByZero
  | outOfRange
  | outOfFuel
  deriving DecidableEq, Repr

def require (condition : Prop) [Decidable condition] (failed : Assertion) :
    Except Fault Unit :=
  if condition then pure () else throw (.assertion failed)

namespace ConstantExpr

def alloc (value : Nat) (width : Nat) : ConstantExpr := ⟨width, BitVec.ofNat width value⟩

def isZero (c : ConstantExpr) : Bool := c.value = 0#c.width

def isOne (c : ConstantExpr) : Bool := c.value.toNat = 1

def isTrue (c : ConstantExpr) : Bool := c.width = 1 ∧ c.value ≠ 0#c.width

def isFalse (c : ConstantExpr) : Bool := c.width = 1 ∧ c.value = 0#c.width

def isAllOnes (c : ConstantExpr) : Bool := c.value = BitVec.allOnes c.width

def concat (c rhs : ConstantExpr) : ConstantExpr :=
  ⟨c.width + rhs.width,
    (c.value.setWidth (c.width + rhs.width) <<< rhs.width) |||
      rhs.value.setWidth (c.width + rhs.width)⟩

/-- The shift is arithmetic in the source as well. -/
def extract (c : ConstantExpr) (offset : Nat) (width : Nat) : ConstantExpr :=
  ⟨width, (c.value.sshiftRight offset).setWidth width⟩

def zext (c : ConstantExpr) (width : Nat) : ConstantExpr := ⟨width, c.value.setWidth width⟩

def sext (c : ConstantExpr) (width : Nat) : ConstantExpr := ⟨width, c.value.signExtend width⟩

def not (c : ConstantExpr) : ConstantExpr := ⟨c.width, ~~~ c.value⟩

/-- `ConstantExpr::Add` to `ConstantExpr::AShr`; `APInt` refuses to divide by
zero. -/
def binary (kind : BinaryKind) (c rhs : ConstantExpr) : Except Fault ConstantExpr :=
  if kind.isDivision ∧ rhs.isZero then throw .divisionByZero
  else pure ⟨c.width, kind.apply c.value (rhs.value.setWidth c.width)⟩

def cmp (kind : CmpKind) (c rhs : ConstantExpr) : ConstantExpr :=
  ⟨1, BitVec.ofBool (kind.apply c.value (rhs.value.setWidth c.width))⟩

end ConstantExpr

def Expr.constant? : Expr → Option ConstantExpr
  | .constant value => some value
  | _ => none

theorem Expr.constant?_eq_some {e : Expr} {c : ConstantExpr} : e.constant? = some c ↔ e = .constant c := by
  cases e <;> simp [Expr.constant?]

def UpdateNode.size : UpdateNode → Nat
  | .null => 0
  | .node _ _ next => next.size + 1

def bcreateR (kind : BinaryKind) (createPartial : Expr → ConstantExpr → Except Fault Expr)
    (createPartialR : ConstantExpr → Expr → Except Fault Expr)
    (create : Expr → Expr → Except Fault Expr) (l r : Expr) : Except Fault Expr := do
  require (l.width = r.width) .typeMismatch
  match l.constant?, r.constant? with
  | some cl, some cr => .constant <$> cl.binary kind cr
  | some cl, none => createPartialR cl r
  | none, some cr => createPartial l cr
  | none, none => create l r

def bcreate (kind : BinaryKind) (create : Expr → Expr → Except Fault Expr) (l r : Expr) :
    Except Fault Expr := do
  require (l.width = r.width) .typeMismatch
  match l.constant?, r.constant? with
  | some cl, some cr => .constant <$> cl.binary kind cr
  | _, _ => create l r

def cmpcreateT (kind : CmpKind) (createPartial : Expr → ConstantExpr → Except Fault Expr)
    (createPartialR : ConstantExpr → Expr → Except Fault Expr)
    (create : Expr → Expr → Except Fault Expr) (l r : Expr) : Except Fault Expr := do
  require (l.width = r.width) .typeMismatch
  match l.constant?, r.constant? with
  | some cl, some cr => pure (.constant (cl.cmp kind cr))
  | some cl, none => createPartialR cl r
  | none, some cr => createPartial l cr
  | none, none => create l r

def cmpcreate (kind : CmpKind) (create : Expr → Expr → Except Fault Expr) (l r : Expr) :
    Except Fault Expr := do
  require (l.width = r.width) .typeMismatch
  match l.constant?, r.constant? with
  | some cl, some cr => pure (.constant (cl.cmp kind cr))
  | _, _ => create l r

def NotOptimizedExpr.create (src : Expr) : Expr := .notOptimized src

mutual

def ConcatExpr.create : Nat → Expr → Expr → Except Fault Expr
  | 0, _, _ => throw .outOfFuel
  | fuel + 1, l, r =>
    match l, r with
    | .constant lCE, .constant rCE => pure (.constant (lCE.concat rCE))
    | .extract leftExpr leftOffset leftWidth, .extract rightExpr rightOffset rightWidth =>
      if leftExpr = rightExpr ∧ rightOffset + rightWidth = leftOffset then
        ExtractExpr.create fuel leftExpr rightOffset (leftWidth + rightWidth)
      else pure (.concat (.extract leftExpr leftOffset leftWidth)
        (.extract rightExpr rightOffset rightWidth))
    | l, r => pure (.concat l r)

def ExtractExpr.create : Nat → Expr → Nat → Nat → Except Fault Expr
  | 0, _, _, _ => throw .outOfFuel
  | fuel + 1, expr, off, w => do
    require (0 < w ∧ off + w ≤ expr.width) .invalidExtract
    if w = expr.width then pure expr
    else
      match expr with
      | .constant value => pure (.constant (value.extract off w))
      | .concat left right =>
        if right.width ≤ off then ExtractExpr.create fuel left (off - right.width) w
        else if off + w ≤ right.width then ExtractExpr.create fuel right off w
        else do
          -- the source subtracts before it adds and relies on unsigned wraparound
          let extractedLeft ← ExtractExpr.create fuel left 0 (w + off - right.width)
          let extractedRight ← ExtractExpr.create fuel right off (right.width - off)
          ConcatExpr.create fuel extractedLeft extractedRight
      | expr => pure (.extract expr off w)

end

def NotExpr.create (e : Expr) : Expr :=
  match e.constant? with
  | some value => .constant value.not
  | none => .not e

def ZExtExpr.create (fuel : Nat) (e : Expr) (w : Nat) : Except Fault Expr :=
  if w = e.width then pure e
  else if w < e.width then ExtractExpr.create fuel e 0 w
  else
    match e.constant? with
    | some value => pure (.constant (value.zext w))
    | none => pure (.zext e w)

def SExtExpr.create (fuel : Nat) (e : Expr) (w : Nat) : Except Fault Expr :=
  if w = e.width then pure e
  else if w < e.width then ExtractExpr.create fuel e 0 w
  else
    match e.constant? with
    | some value => pure (.constant (value.sext w))
    | none => pure (.sext e w)

def andExprCreatePartial (l : Expr) (cr : ConstantExpr) : Except Fault Expr :=
  if cr.isAllOnes then pure l
  else if cr.isZero then pure (.constant cr)
  else pure (.binary .and l (.constant cr))

def andExprCreatePartialR (cl : ConstantExpr) (r : Expr) : Except Fault Expr :=
  andExprCreatePartial r cl

def andExprCreate (l r : Expr) : Except Fault Expr := pure (.binary .and l r)

def AndExpr.create : Expr → Expr → Except Fault Expr :=
  bcreateR .and andExprCreatePartial andExprCreatePartialR andExprCreate

def orExprCreatePartial (l : Expr) (cr : ConstantExpr) : Except Fault Expr :=
  if cr.isAllOnes then pure (.constant cr)
  else if cr.isZero then pure l
  else pure (.binary .or l (.constant cr))

def orExprCreatePartialR (cl : ConstantExpr) (r : Expr) : Except Fault Expr :=
  orExprCreatePartial r cl

def orExprCreate (l r : Expr) : Except Fault Expr := pure (.binary .or l r)

def OrExpr.create : Expr → Expr → Except Fault Expr :=
  bcreateR .or orExprCreatePartial orExprCreatePartialR orExprCreate

def mulExprCreatePartialR (cl : ConstantExpr) (r : Expr) : Except Fault Expr :=
  if cl.width = 1 then andExprCreatePartialR cl r
  else if cl.isOne then pure r
  else if cl.isZero then pure (.constant cl)
  else pure (.binary .mul (.constant cl) r)

def mulExprCreatePartial (l : Expr) (cr : ConstantExpr) : Except Fault Expr :=
  mulExprCreatePartialR cr l

def mulExprCreate (l r : Expr) : Except Fault Expr :=
  if l.width = 1 then pure (.binary .and l r) else pure (.binary .mul l r)

def MulExpr.create : Expr → Expr → Except Fault Expr :=
  bcreateR .mul mulExprCreatePartial mulExprCreatePartialR mulExprCreate

def eqExprCreate (l r : Expr) : Except Fault Expr :=
  if l = r then pure (.constant (.alloc 1 1)) else pure (.cmp .eq l r)

/-- The loop of `TryConstArrayOpt` over the positions of the array;
`mayBe` builds the equality of the index with a position. -/
def tryConstArrayOptLoop (isMatch : Nat → Bool) (mayBe : Nat → Except Fault Expr)
    (unchanged : Except Fault Expr) : List Nat → Nat → Expr → Except Fault Expr
  | [], _, res => pure res
  | i :: rest, numMatches, res =>
    if isMatch i then
      if 100 < numMatches + 1 then unchanged
      else do
        let equality ← mayBe i
        let res ← OrExpr.create res equality
        tryConstArrayOptLoop isMatch mayBe unchanged rest (numMatches + 1) res
    else tryConstArrayOptLoop isMatch mayBe unchanged rest numMatches res

mutual

def EqExpr.create (o : Options) : Nat → Expr → Expr → Except Fault Expr
  | 0, _, _ => throw .outOfFuel
  | fuel + 1, l, r =>
    cmpcreateT .eq (fun l cr => eqExprCreatePartialR o fuel cr l)
      (eqExprCreatePartialR o fuel) eqExprCreate l r

def eqExprCreatePartialR (o : Options) : Nat → ConstantExpr → Expr → Except Fault Expr
  | 0, _, _ => throw .outOfFuel
  | fuel + 1, cl, r =>
    if cl.width = 1 then
      if cl.isTrue then pure r
      else
        match r with
        | .cmp .eq (.constant value) right =>
          if value.isFalse then pure right
          else eqExprCreate (.constant cl) (.cmp .eq (.constant value) right)
        | .binary .or left right => do
          let notLeft ← EqExpr.create o fuel left (.constant (.alloc 0 left.width))
          let notRight ← EqExpr.create o fuel right (.constant (.alloc 0 right.width))
          AndExpr.create notLeft notRight
        | r => eqExprCreate (.constant cl) r
    else
      match r with
      | .sext src _ =>
        if cl = (cl.zext src.width).sext cl.width then
          EqExpr.create o fuel src (.constant (cl.zext src.width))
        else pure (.constant (.alloc 0 1))
      | .zext src _ =>
        if cl = (cl.zext src.width).zext cl.width then
          EqExpr.create o fuel src (.constant (cl.zext src.width))
        else pure (.constant (.alloc 0 1))
      -- `SubExpr::create` of two constants folds them
      | .binary .add (.constant value) right => do
        require (cl.width = value.width) .typeMismatch
        let difference ← cl.binary .sub value
        eqExprCreatePartialR o fuel difference right
      | .binary .sub (.constant value) right => do
        require (value.width = cl.width) .typeMismatch
        let difference ← value.binary .sub cl
        eqExprCreatePartialR o fuel difference right
      | .read root head index =>
        if o.constArrayOpt then tryConstArrayOpt o fuel cl root head index
        else eqExprCreate (.constant cl) (.read root head index)
      | r => eqExprCreate (.constant cl) r

def tryConstArrayOpt (o : Options) :
    Nat → ConstantExpr → Array → UpdateNode → Expr → Except Fault Expr
  | 0, _, _, _, _ => throw .outOfFuel
  | fuel + 1, cl, root, head, index =>
    if root.isSymbolicArray ∨ head.size ≠ 0 then
      eqExprCreate (.constant cl) (.read root head index)
    else
      tryConstArrayOptLoop
        (fun i => (root.constantValues[i]?.map (ConstantExpr.mk root.range)) = some cl)
        (fun i => EqExpr.create o fuel index (.constant (.alloc i index.width)))
        (eqExprCreate (.constant cl) (.read root head index))
        (List.range root.size) 0 (.constant (.alloc 0 1))

end

def createIsZero (o : Options) (fuel : Nat) (e : Expr) : Except Fault Expr :=
  EqExpr.create o fuel e (.constant (.alloc 0 e.width))

def xorExprCreatePartialR (o : Options) (fuel : Nat) (cl : ConstantExpr) (r : Expr) :
    Except Fault Expr :=
  if cl.isZero then pure r
  else if cl.width = 1 then eqExprCreatePartialR o fuel (.alloc 0 1) r
  else pure (.binary .xor (.constant cl) r)

def xorExprCreatePartial (o : Options) (fuel : Nat) (l : Expr) (cr : ConstantExpr) :
    Except Fault Expr :=
  xorExprCreatePartialR o fuel cr l

def xorExprCreate (l r : Expr) : Except Fault Expr := pure (.binary .xor l r)

def XorExpr.create (o : Options) (fuel : Nat) : Expr → Expr → Except Fault Expr :=
  bcreateR .xor (xorExprCreatePartial o fuel) (xorExprCreatePartialR o fuel) xorExprCreate

mutual

def AddExpr.create (o : Options) : Nat → Expr → Expr → Except Fault Expr
  | 0, _, _ => throw .outOfFuel
  | fuel + 1, l, r =>
    bcreateR .add (fun l cr => addExprCreatePartialR o fuel cr l)
      (addExprCreatePartialR o fuel) (addExprCreate o fuel) l r

def addExprCreatePartialR (o : Options) : Nat → ConstantExpr → Expr → Except Fault Expr
  | 0, _, _ => throw .outOfFuel
  | fuel + 1, cl, r =>
    if cl.width = 1 then xorExprCreatePartialR o fuel cl r
    else if cl.isZero then pure r
    else
      match r with
      | .binary .add (.constant c) b => do
        AddExpr.create o fuel (← AddExpr.create o fuel (.constant cl) (.constant c)) b
      | .binary .sub (.constant c) b => do
        SubExpr.create o fuel (← AddExpr.create o fuel (.constant cl) (.constant c)) b
      | r => pure (.binary .add (.constant cl) r)

def addExprCreate (o : Options) : Nat → Expr → Expr → Except Fault Expr
  | 0, _, _ => throw .outOfFuel
  | fuel + 1, l, r =>
    if l.width = 1 then xorExprCreate l r
    else
      match l with
      | .binary .add (.constant k) a => do
        AddExpr.create o fuel (.constant k) (← AddExpr.create o fuel a r)
      | .binary .sub (.constant k) a => do
        AddExpr.create o fuel (.constant k) (← SubExpr.create o fuel r a)
      | l =>
        match r with
        | .binary .add (.constant k) b => do
          AddExpr.create o fuel (.constant k) (← AddExpr.create o fuel l b)
        | .binary .sub (.constant k) b => do
          AddExpr.create o fuel (.constant k) (← SubExpr.create o fuel l b)
        | r => pure (.binary .add l r)

def SubExpr.create (o : Options) : Nat → Expr → Expr → Except Fault Expr
  | 0, _, _ => throw .outOfFuel
  | fuel + 1, l, r =>
    bcreateR .sub
      (fun l cr => do
        addExprCreatePartialR o fuel (← (ConstantExpr.alloc 0 cr.width).binary .sub cr) l)
      (subExprCreatePartialR o fuel) (subExprCreate o fuel) l r

def subExprCreatePartialR (o : Options) : Nat → ConstantExpr → Expr → Except Fault Expr
  | 0, _, _ => throw .outOfFuel
  | fuel + 1, cl, r =>
    if cl.width = 1 then xorExprCreatePartialR o fuel cl r
    else
      match r with
      | .binary .add (.constant c) b => do
        SubExpr.create o fuel (← SubExpr.create o fuel (.constant cl) (.constant c)) b
      | .binary .sub (.constant c) b => do
        AddExpr.create o fuel (← SubExpr.create o fuel (.constant cl) (.constant c)) b
      | r => pure (.binary .sub (.constant cl) r)

def subExprCreate (o : Options) : Nat → Expr → Expr → Except Fault Expr
  | 0, _, _ => throw .outOfFuel
  | fuel + 1, l, r =>
    if l.width = 1 then xorExprCreate l r
    else if l = r then pure (.constant (.alloc 0 l.width))
    else
      match l with
      | .binary .add (.constant k) a => do
        AddExpr.create o fuel (.constant k) (← SubExpr.create o fuel a r)
      | .binary .sub (.constant k) a => do
        SubExpr.create o fuel (.constant k) (← AddExpr.create o fuel a r)
      | l =>
        match r with
        | .binary .add (.constant k) b => do
          SubExpr.create o fuel (← SubExpr.create o fuel l b) (.constant k)
        | .binary .sub (.constant k) b => do
          SubExpr.create o fuel (← AddExpr.create o fuel l b) (.constant k)
        | r => pure (.binary .sub l r)

end

/-- As in the source, "r must be 1" where a boolean is divided. -/
def UDivExpr.create : Expr → Expr → Except Fault Expr :=
  bcreate .udiv fun l r => if l.width = 1 then pure l else pure (.binary .udiv l r)

def SDivExpr.create : Expr → Expr → Except Fault Expr :=
  bcreate .sdiv fun l r => if l.width = 1 then pure l else pure (.binary .sdiv l r)

def URemExpr.create : Expr → Expr → Except Fault Expr :=
  bcreate .urem fun l r =>
    if l.width = 1 then pure (.constant (.alloc 0 1)) else pure (.binary .urem l r)

def SRemExpr.create : Expr → Expr → Except Fault Expr :=
  bcreate .srem fun l r =>
    if l.width = 1 then pure (.constant (.alloc 0 1)) else pure (.binary .srem l r)

def ShlExpr.create (o : Options) (fuel : Nat) : Expr → Expr → Except Fault Expr :=
  bcreate .shl fun l r =>
    if l.width = 1 then do AndExpr.create l (← createIsZero o fuel r)
    else pure (.binary .shl l r)

def LShrExpr.create (o : Options) (fuel : Nat) : Expr → Expr → Except Fault Expr :=
  bcreate .lshr fun l r =>
    if l.width = 1 then do AndExpr.create l (← createIsZero o fuel r)
    else pure (.binary .lshr l r)

def AShrExpr.create : Expr → Expr → Except Fault Expr :=
  bcreate .ashr fun l r => if l.width = 1 then pure l else pure (.binary .ashr l r)

def NeExpr.create (o : Options) (fuel : Nat) (l r : Expr) : Except Fault Expr := do
  EqExpr.create o fuel (.constant (.alloc 0 1)) (← EqExpr.create o fuel l r)

def UltExpr.create (o : Options) (fuel : Nat) : Expr → Expr → Except Fault Expr :=
  cmpcreate .ult fun l r =>
    if l.width = 1 then do AndExpr.create (← createIsZero o fuel l) r
    else pure (.cmp .ult l r)

def UleExpr.create (o : Options) (fuel : Nat) : Expr → Expr → Except Fault Expr :=
  cmpcreate .ule fun l r =>
    if l.width = 1 then do OrExpr.create (← createIsZero o fuel l) r
    else pure (.cmp .ule l r)

def SltExpr.create (o : Options) (fuel : Nat) : Expr → Expr → Except Fault Expr :=
  cmpcreate .slt fun l r =>
    if l.width = 1 then do AndExpr.create l (← createIsZero o fuel r)
    else pure (.cmp .slt l r)

def SleExpr.create (o : Options) (fuel : Nat) : Expr → Expr → Except Fault Expr :=
  cmpcreate .sle fun l r =>
    if l.width = 1 then do OrExpr.create l (← createIsZero o fuel r)
    else pure (.cmp .sle l r)

def UgtExpr.create (o : Options) (fuel : Nat) (l r : Expr) : Except Fault Expr :=
  UltExpr.create o fuel r l

def UgeExpr.create (o : Options) (fuel : Nat) (l r : Expr) : Except Fault Expr :=
  UleExpr.create o fuel r l

def SgtExpr.create (o : Options) (fuel : Nat) (l r : Expr) : Except Fault Expr :=
  SltExpr.create o fuel r l

def SgeExpr.create (o : Options) (fuel : Nat) (l r : Expr) : Except Fault Expr :=
  SleExpr.create o fuel r l

/-- The loop of `ReadExpr::create` over the updates: the value written at the
index, or where the loop stops, which is null when no update has a symbolic
index. -/
def readExprRollback (o : Options) (fuel : Nat) (index : Expr) :
    UpdateNode → Except Fault (Expr ⊕ UpdateNode)
  | .null => pure (.inr .null)
  | .node position value next => do
    let cond ← EqExpr.create o fuel index position
    match cond.constant? with
    | some c => if c.isTrue then pure (.inl value) else readExprRollback o fuel index next
    | none => pure (.inr (.node position value next))

def ReadExpr.create (o : Options) (fuel : Nat) (root : Array) (head : UpdateNode)
    (index : Expr) : Except Fault Expr := do
  match ← readExprRollback o fuel index head with
  | .inl value => pure value
  | .inr un =>
    match index.constant? with
    | none => pure (.read root head index)
    | some c => do
      require (c.width ≤ 64) .indexTooLarge
      if c.value.toNat < root.size then
        match root.constantValues[c.value.toNat]?, un with
        | some value, .null => pure (.constant ⟨root.range, value⟩)
        | _, _ => pure (.read root un index)
      else pure (.read root head index)

def SelectExpr.create (o : Options) (fuel : Nat) (c t f : Expr) : Except Fault Expr := do
  require (c.width = 1) .typeMismatch
  require (t.width = f.width) .typeMismatch
  match c.constant? with
  | some value => if value.isTrue then pure t else pure f
  | none =>
    if t = f then pure t
    else if t.width = 1 then
      match t.constant?, f.constant? with
      | some value, _ =>
        if value.isTrue then OrExpr.create c f
        else do AndExpr.create (← createIsZero o fuel c) f
      | none, some value =>
        if value.isTrue then do OrExpr.create (← createIsZero o fuel c) t
        else AndExpr.create c t
      | none, none => pure (.select c t f)
    else pure (.select c t f)

end NeuroMerge.Symbolic
