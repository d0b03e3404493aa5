import NeuroMerge.Solver.SolverImpl
import NeuroMerge.Symbolic.Evaluator

/-!
# Initial values from independent factors

The independent solver asks for the values of each factor on its own and puts together
what it gets. Arrays are gone through in the order of their addresses, which is a
parameter.
-/

namespace NeuroMerge.Solver

open Symbolic

namespace IndependentSolver

variable (o : Options) (before : Symbolic.Array → Symbolic.Array → Bool) (fuel : Nat) (solver : SolverImpl)

def calculateArrayReferences (ie : IndependentElementSet) : List Symbolic.Array :=
  (ie.elements.keys ++ ie.wholeObjects).dedup.mergeSort before

/-- The assignment of one element, which does not check the bounds of the vectors. -/
def placeAnswer (answers tempPtr : List (BitVec 8)) (index : Nat) :
    Except Fault (List (BitVec 8)) :=
  match answers[index]? with
  | some answer =>
    if index < tempPtr.length then pure (tempPtr.set index answer) else throw .outOfRange
  | none => throw .outOfRange

def placeAnswers (ds : DenseSet) (answers tempPtr : List (BitVec 8)) :
    Except Fault (List (BitVec 8)) :=
  ds.foldlM (placeAnswer answers) tempPtr

/-- Of an array with some answers already, only the elements of the factor are replaced. -/
def recordAnswers (ie : IndependentElementSet) (retMap : Bindings)
    (answered : Symbolic.Array × List (BitVec 8)) : Except Fault Bindings :=
  let (array, answers) := answered
  match retMap.lookup array with
  | some tempPtr => do
    require (tempPtr.length = answers.length) .differentSizes
    let ds := (ie.elements.lookup array).getD []
    let placed ← placeAnswers ds answers tempPtr
    pure (retMap.insert array placed)
  | none => pure (retMap.insert array answers)

def factorQuery (ie : IndependentElementSet) : Query := ⟨ie.exprs, .constant (.alloc 0 1)⟩

/-- An iteration of the loop over the factors; the result is that of `computeInitialValues`
where it returns at once. -/
def solveFactor (ie : IndependentElementSet) (retMap : Bindings) :
    Except Fault (Option (Option Bindings)) := do
  let arraysInFactor := calculateArrayReferences before ie
  require (ie.exprs ≠ []) .emptyFactor
  if arraysInFactor = [] then pure (some (some retMap))
  else
    match solver.computeInitialValues (factorQuery ie) arraysInFactor with
    | none => pure none
    | some none => pure (some none)
    | some (some tempValues) => do
      require (tempValues.length = arraysInFactor.length) .differentSizes
      let retMap ← (arraysInFactor.zip tempValues).foldlM (recordAnswers ie) retMap
      pure (some (some retMap))

def solveFactors : List IndependentElementSet → Bindings → Except Fault (Option (Option Bindings))
  | [], retMap => pure (some (some retMap))
  | ie :: rest, retMap => do
    let solved ← solveFactor before solver ie retMap
    match solved with
    | none => pure none
    | some none => pure (some none)
    | some (some retMap) => solveFactors rest retMap

def constraintsEvaluateToTrue (assign : PartialAssignment) : List Expr → Except Fault Bool
  | [] => pure true
  | constraint :: rest => do
    let ret ← assign.evaluate o fuel constraint
    match ret.constant? with
    | none => throw (.assertion .notConstant)
    | some evaluatedConstraint =>
      if evaluatedConstraint.isFalse then pure false
      else constraintsEvaluateToTrue assign rest

def assertCreatedPointEvaluatesToTrue (query : Query) (objects : List Symbolic.Array)
    (values : Values) (retMap : Bindings) : Except Fault Bool := do
  let assign : PartialAssignment := ⟨true, Bindings.ofValues objects values ∪ retMap⟩
  if ← constraintsEvaluateToTrue o fuel assign query.constraints then do
    let neg ← createIsZero o fuel query.expr
    let q ← assign.evaluate o fuel neg
    match q.constant? with
    | none => throw (.assertion .notConstant)
    | some q => pure q.isTrue
  else pure false

def computeInitialValues (query : Query) (objects : List Symbolic.Array) :
    Except Fault (Option (Option Values)) := do
  let factors ← getAllIndependentConstraintsSets o fuel query
  let solved ← solveFactors before solver factors ∅
  match solved with
  | none => pure none
  | some none => pure (some none)
  | some (some retMap) => do
    let values := objects.map fun arr => (retMap.lookup arr).getD (List.replicate arr.size 0)
    let satisfied ← assertCreatedPointEvaluatesToTrue o fuel query objects values retMap
    require (satisfied = true) .pointNotTrue
    pure (some (some values))

end IndependentSolver

end NeuroMerge.Solver
