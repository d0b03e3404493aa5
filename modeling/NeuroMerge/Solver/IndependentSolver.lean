import Mathlib.Data.List.AList
import NeuroMerge.Foundations.Absorption
import NeuroMerge.Symbolic.Reads

/-!
# The independent solver

Which constraints a query depends on. The elements of an expression are the array
bytes that it reads: single ones where the index is constant, the whole array
where it is not. Arrays are compared by their address in the source; the order in
which a set is gone through does not matter and is not represented.
-/

namespace NeuroMerge.Solver

open Symbolic

abbrev DenseSet := List Nat

namespace DenseSet

/-- The union, and whether it is more than the first set. -/
def add (s b : DenseSet) : Bool × DenseSet :=
  b.foldl
    (fun (modified, s) x =>
      if modified || !s.contains x then (true, List.insert x s) else (modified, s))
    (false, s)

def intersects (s b : DenseSet) : Bool := s.any fun x => b.contains x

end DenseSet

/-- An array is in at most one of `elements` and `wholeObjects`. -/
structure IndependentElementSet where
  elements : AList fun _ : Symbolic.Array => DenseSet
  wholeObjects : List Symbolic.Array
  exprs : List Expr

namespace IndependentElementSet

def addRead (s : IndependentElementSet) (re : ReadExpr) :
    Except Fault IndependentElementSet :=
  -- reads of a constant array don't alias
  if re.root.isConstantArray = true ∧ re.head = .null then pure s
  else if re.root ∈ s.wholeObjects then pure s
  else
    match re.index.constant? with
    | some ce => do
      require (ce.width ≤ 32) .indexTooLarge
      let dis := (s.elements.lookup re.root).getD []
      pure { s with elements := s.elements.insert re.root (List.insert ce.value.toNat dis) }
    | none => pure { s with
        elements := s.elements.erase re.root
        wholeObjects := s.wholeObjects.insert re.root }

def ofExpr (e : Expr) : Except Fault IndependentElementSet :=
  (findReads e true).foldlM addRead ⟨∅, [], [e]⟩

def intersects (s b : IndependentElementSet) : Bool :=
  (s.wholeObjects.any fun array =>
    b.wholeObjects.contains array || (b.elements.lookup array).isSome) ||
  s.elements.entries.any fun element =>
    b.wholeObjects.contains element.1 ||
      match b.elements.lookup element.1 with
      | some dis => DenseSet.intersects element.2 dis
      | none => false

def addWhole (added : Bool × IndependentElementSet) (array : Symbolic.Array) :
    Bool × IndependentElementSet :=
  let (modified, s) := added
  if (s.elements.lookup array).isSome then
    (true, { s with
      elements := s.elements.erase array
      wholeObjects := s.wholeObjects.insert array })
  else if array ∈ s.wholeObjects then (modified, s)
  else (true, { s with wholeObjects := s.wholeObjects.insert array })

def addElements (added : Bool × IndependentElementSet)
    (element : Sigma fun _ : Symbolic.Array => DenseSet) : Bool × IndependentElementSet :=
  let (modified, s) := added
  if element.1 ∈ s.wholeObjects then (modified, s)
  else
    match s.elements.lookup element.1 with
    | none => (true, { s with elements := s.elements.insert element.1 element.2 })
    | some dis =>
      let (grown, dis) := DenseSet.add dis element.2
      (modified || grown, { s with elements := s.elements.insert element.1 dis })

/-- The union, and whether its elements are more than those of the first set. -/
def add (s b : IndependentElementSet) : Bool × IndependentElementSet :=
  b.elements.entries.foldl addElements
    (b.wholeObjects.foldl addWhole (false, { s with exprs := s.exprs ++ b.exprs }))

/-- A factor takes in the factors that it intersects. -/
def factors : Absorption.Operations IndependentElementSet IndependentElementSet where
  intersects := intersects
  add := add

/-- The closure takes in the constraints that intersect it. -/
def worklist : Absorption.Operations IndependentElementSet (Expr × IndependentElementSet) where
  intersects eltsClosure item := item.2.intersects eltsClosure
  add eltsClosure item := eltsClosure.add item.2

end IndependentElementSet

structure Query where
  constraints : List Expr
  expr : Expr

def getAllIndependentConstraintsSets (o : Options) (fuel : Nat) (query : Query) :
    Except Fault (List IndependentElementSet) := do
  let first ← match query.expr.constant? with
    | some ce => do
      require (ce.isFalse = true) .queryNotFalse
      pure []
    | none => do
      let neg ← createIsZero o fuel query.expr
      List.singleton <$> IndependentElementSet.ofExpr neg
  let rest ← query.constraints.mapM IndependentElementSet.ofExpr
  pure (Absorption.separate IndependentElementSet.factors (first ++ rest))

/-- The elements of the query with everything it depends on, and the constraints among
that. -/
def getIndependentConstraints (query : Query) :
    Except Fault (IndependentElementSet × List Expr) := do
  let eltsClosure ← IndependentElementSet.ofExpr query.expr
  let items ← query.constraints.mapM fun constraint =>
    Prod.mk constraint <$> IndependentElementSet.ofExpr constraint
  let (eltsClosure, result) :=
    Absorption.close IndependentElementSet.worklist eltsClosure [] items
  pure (eltsClosure, result.map Prod.fst)

end NeuroMerge.Solver
