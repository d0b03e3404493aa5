import NeuroMerge.Execution.Fork

/-!
# Pointer resolution

Which objects of an address space a pointer may point into. The objects are ordered by
their addresses; the search begins at one value that the pointer may have and goes from
there in both directions, until the solver says that no other object can follow.
-/

namespace NeuroMerge.Memory.MemoryObject

open Symbolic (Options Fault Expr SubExpr.create EqExpr.create UltExpr.create)

variable (o : Options) (fuel pointerWidth : Nat) (mo : MemoryObject)

def getBaseExpr : Expr := .constant (.alloc mo.address pointerWidth)

def getSizeExpr : Expr := .constant (.alloc mo.size pointerWidth)

def getOffsetExpr (pointer : Expr) : Except Fault Expr :=
  SubExpr.create o fuel pointer (mo.getBaseExpr pointerWidth)

def getBoundsCheckOffset (offset : Expr) : Except Fault Expr :=
  if mo.size = 0 then EqExpr.create o fuel offset (.constant (.alloc 0 pointerWidth))
  else UltExpr.create o fuel offset (mo.getSizeExpr pointerWidth)

def getBoundsCheckPointer (pointer : Expr) : Except Fault Expr := do
  let offset ← mo.getOffsetExpr o fuel pointerWidth pointer
  mo.getBoundsCheckOffset o fuel pointerWidth offset

end NeuroMerge.Memory.MemoryObject

namespace NeuroMerge.Execution

open Symbolic
open Memory (MemoryObject AddressSpace Ref)

abbrev ObjectPair := MemoryObject × Ref

abbrev ResolutionList := List ObjectPair

/-- `resolveOne` of a constant. The object found begins at the address or before it. -/
def resolveOneConstant (space : AddressSpace) (addr : ConstantExpr) :
    Except Fault (Option ObjectPair) := do
  require (addr.width ≤ 64) .indexTooLarge
  let address := addr.value.toNat
  match ImmutableMap.lookupPrevious MemoryObject.address space.objects address with
  | none => pure none
  | some res =>
    if res.1.size = 0 ∧ address = res.1.address ∨ address - res.1.address < res.1.size then
      pure (some res)
    else pure none

/-- What `checkPointerInObject` returns: 0, 1 or 2. -/
inductive Incomplete where
  | complete
  | stopped
  | unfinished
  deriving DecidableEq, Repr

-- `constraints` is the path condition of the state, and `expired` tells whether the time-out
-- has passed when an object is reached
variable (o : Options) (simplifyExprs : Bool) (solver : Solver) (pointerWidth fuel : Nat)
  (constraints : List Expr) (p : Expr) (maxResolutions : Nat) (expired : ObjectPair → Bool)

def checkPointerInObject (op : ObjectPair) (rl : ResolutionList) :
    Except Fault (Incomplete × ResolutionList) := do
  let inBounds ← op.1.getBoundsCheckPointer o fuel pointerWidth p
  match ← TimingSolver.mayBeTrue o simplifyExprs solver fuel constraints inBounds with
  | none => pure (.stopped, rl)
  | some true =>
    let rl := rl ++ [op]
    if rl.length = 1 then
      -- fast path check
      match ← TimingSolver.mustBeTrue o simplifyExprs solver fuel constraints inBounds with
      | none => pure (.stopped, rl)
      | some true => pure (.complete, rl)
      | some false => pure (.unfinished, rl)
    else if rl.length = maxResolutions then pure (.stopped, rl)
    else pure (.unfinished, rl)
  | some false => pure (.unfinished, rl)

/-- The loop over the objects up to the example, the nearest first. It returns from
`resolve`, or ends. -/
def searchBackwards : List ObjectPair → ResolutionList → Except Fault (Option Bool × ResolutionList)
  | [], rl => pure (none, rl)
  | op :: remaining, rl => do
    if expired op then pure (some true, rl)
    else
      match ← checkPointerInObject o simplifyExprs solver pointerWidth fuel constraints p
          maxResolutions op rl with
      | (.complete, rl) => pure (some false, rl)
      | (.stopped, rl) => pure (some true, rl)
      | (.unfinished, rl) => do
        let above ← UgeExpr.create o fuel p (op.1.getBaseExpr pointerWidth)
        match ← TimingSolver.mustBeTrue o simplifyExprs solver fuel constraints above with
        | none => pure (some true, rl)
        | some true => pure (none, rl)
        | some false => searchBackwards remaining rl

def searchForwards : List ObjectPair → ResolutionList → Except Fault (Option Bool × ResolutionList)
  | [], rl => pure (none, rl)
  | op :: remaining, rl => do
    if expired op then pure (some true, rl)
    else
      let below ← UltExpr.create o fuel p (op.1.getBaseExpr pointerWidth)
      match ← TimingSolver.mustBeTrue o simplifyExprs solver fuel constraints below with
      | none => pure (some true, rl)
      | some true => pure (none, rl)
      | some false =>
        match ← checkPointerInObject o simplifyExprs solver pointerWidth fuel constraints p
            maxResolutions op rl with
        | (.complete, rl) => pure (some false, rl)
        | (.stopped, rl) => pure (some true, rl)
        | (.unfinished, rl) => searchForwards remaining rl

/-- `AddressSpace::resolve`: whether the list is incomplete, and the list. -/
def resolve (space : AddressSpace) : Except Fault (Bool × ResolutionList) :=
  match p.constant? with
  | some addr => do
    let res ← resolveOneConstant space addr
    pure (false, res.toList)
  | none => do
    match ← TimingSolver.getValue o simplifyExprs solver fuel constraints p with
    | none => pure (true, [])
    | some cex =>
      require (cex.width ≤ 64) .indexTooLarge
      let (before, after) :=
        ImmutableMap.upperBound MemoryObject.address space.objects cex.value.toNat
      match ← searchBackwards o simplifyExprs solver pointerWidth fuel constraints p
          maxResolutions expired before.reverse [] with
      | (some incomplete, rl) => pure (incomplete, rl)
      | (none, rl) =>
        match ← searchForwards o simplifyExprs solver pointerWidth fuel constraints p
            maxResolutions expired after rl with
        | (some incomplete, rl) => pure (incomplete, rl)
        | (none, rl) => pure (false, rl)

/-- The search of `resolveOne` backwards: what it returns, or that it ends. -/
def resolveOneBackwards : List ObjectPair → Except Fault (Option (Option ObjectPair))
  | [] => pure (some none)
  | op :: remaining => do
    let inBounds ← op.1.getBoundsCheckPointer o fuel pointerWidth p
    match ← TimingSolver.mayBeTrue o simplifyExprs solver fuel constraints inBounds with
    | none => pure none
    | some true => pure (some (some op))
    | some false => do
      let above ← UgeExpr.create o fuel p (op.1.getBaseExpr pointerWidth)
      match ← TimingSolver.mustBeTrue o simplifyExprs solver fuel constraints above with
      | none => pure none
      | some true => pure (some none)
      | some false => resolveOneBackwards remaining

def resolveOneForwards : List ObjectPair → Except Fault (Option (Option ObjectPair))
  | [] => pure (some none)
  | op :: remaining => do
    let below ← UltExpr.create o fuel p (op.1.getBaseExpr pointerWidth)
    match ← TimingSolver.mustBeTrue o simplifyExprs solver fuel constraints below with
    | none => pure none
    | some true => pure (some none)
    | some false => do
      let inBounds ← op.1.getBoundsCheckPointer o fuel pointerWidth p
      match ← TimingSolver.mayBeTrue o simplifyExprs solver fuel constraints inBounds with
      | none => pure none
      | some true => pure (some (some op))
      | some false => resolveOneForwards remaining

/-- `AddressSpace::resolveOne`. None if it returns false, and otherwise the result, which
there is with `success` only. -/
def resolveOne (space : AddressSpace) : Except Fault (Option (Option ObjectPair)) :=
  match p.constant? with
  | some addr => some <$> resolveOneConstant space addr
  | none => do
    match ← TimingSolver.getValue o simplifyExprs solver fuel constraints p with
    | none => pure none
    | some cex =>
      require (cex.width ≤ 64) .indexTooLarge
      let address := cex.value.toNat
      let (before, after) :=
        ImmutableMap.upperBound MemoryObject.address space.objects address
      let cheap :=
        (ImmutableMap.lookupPrevious MemoryObject.address space.objects address).filter
          fun res => address - res.1.address < res.1.size
      match cheap with
      | some res => pure (some (some res))
      | none =>
        match ← resolveOneBackwards o simplifyExprs solver pointerWidth fuel constraints p
            before.reverse with
        | none => pure none
        | some (some op) => pure (some (some op))
        | some none =>
          resolveOneForwards o simplifyExprs solver pointerWidth fuel constraints p after

end NeuroMerge.Execution
