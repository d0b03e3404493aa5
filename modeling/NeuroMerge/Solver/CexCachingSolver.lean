import NeuroMerge.ADT.MapOfSetsRefinement
import NeuroMerge.Solver.SolverImpl
import NeuroMerge.Symbolic.Evaluator

/-!
# The counterexample caching solver

Counterexamples that are kept for the sets of constraints they have been found for, and
looked up for the sets of other queries. The orders of expressions and of assignments,
which depend on hashes and addresses, are parameters.
-/

namespace NeuroMerge.Solver

open Symbolic
open Execution (Validity)

mutual

/-- What `SymbolicObjectFinder` comes across in an expression. -/
def symbolicObjects : Expr → List Symbolic.Array
  | .constant _ => []
  | .notOptimized src => symbolicObjects src
  | .read root head index =>
    updatedObjects head ++ ((if root.isSymbolicArray then [root] else []) ++ symbolicObjects index)
  | .select cond trueExpr falseExpr =>
    symbolicObjects cond ++ (symbolicObjects trueExpr ++ symbolicObjects falseExpr)
  | .concat left right => symbolicObjects left ++ symbolicObjects right
  | .extract expr _ _ => symbolicObjects expr
  | .not expr => symbolicObjects expr
  | .zext src _ => symbolicObjects src
  | .sext src _ => symbolicObjects src
  | .binary _ left right => symbolicObjects left ++ symbolicObjects right
  | .cmp _ left right => symbolicObjects left ++ symbolicObjects right

def updatedObjects : UpdateNode → List Symbolic.Array
  | .null => []
  | .node position value next =>
    symbolicObjects position ++ (symbolicObjects value ++ updatedObjects next)

end

def findSymbolicObjects (es : List Expr) : List Symbolic.Array :=
  (es.flatMap symbolicObjects).eraseDups

def Query.withFalse (query : Query) : Query := { query with expr := .constant (.alloc 0 1) }

structure CexCacheOptions where
  debugCheckBinding : Bool
  tryAll : Bool
  superSet : Bool
  experimental : Bool

namespace CexCachingSolver

variable [LinearOrder Expr]

/-- A cached result is none for a set of constraints without a solution. What the solver
below has been asked is not kept in the source. -/
structure State where
  cache : MapOfSets Expr (Option Bindings)
  assignmentsTable : List Bindings
  asked : List (Query × List Symbolic.Array)

def State.initial : State := ⟨.empty, [], []⟩

variable (o : Options) (options : CexCacheOptions) (before : Bindings → Bindings → Bool)
  (fuel : Nat) (solver : SolverImpl) (s : State)

def satisfies (binding : Bindings) (key : Finset Expr) : Except Fault Bool :=
  PartialAssignment.satisfies o fuel ⟨false, binding⟩ (key.sort (· ≤ ·))

def firstSatisfying (key : Finset Expr) : List Bindings → Except Fault (Option Bindings)
  | [] => pure none
  | a :: rest => do
    if ← satisfies o fuel a key then pure (some a) else firstSatisfying key rest

def allSatisfying (key : Finset Expr) : List Bindings → Except Fault (List Bindings)
  | [] => pure []
  | a :: rest => do
    let satisfied ← satisfies o fuel a key
    let others ← allSatisfying key rest
    pure (if satisfied then a :: others else others)

/-- `NullOrSatisfyingAssignment`, which the source evaluates only where the search comes
across an assignment. -/
def nullOrSatisfying (satisfying : List Bindings) : Option Bindings → Bool
  | none => true
  | some a => a ∈ satisfying

def searchForAssignment (key : Finset Expr) : Except Fault (Option (Option Bindings)) :=
  match s.cache.lookup key with
  | some result => pure (some result)
  | none =>
    let superset := if options.superSet then s.cache.findSuperset key Option.isSome else none
    if options.tryAll then
      match superset <|> s.cache.findSubset key Option.isNone with
      | some result => pure (some result)
      | none => do
        let found ← firstSatisfying o fuel key s.assignmentsTable
        pure (some <$> found)
    else
      match superset with
      | some result => pure (some result)
      | none => do
        let satisfying ← allSatisfying o fuel key s.assignmentsTable
        pure (s.cache.findSubset key (nullOrSatisfying satisfying))

def lookupAssignment (query : Query) : Except Fault (Finset Expr × Option (Option Bindings)) := do
  let key := query.constraints.toFinset
  let neg ← createIsZero o fuel query.expr
  match neg.constant? with
  | some ce =>
    if ce.isFalse then pure (key, some none)
    else do
      let found ← searchForAssignment o options fuel s key
      pure (key, found)
  | none => do
    let found ← searchForAssignment o options fuel s (insert neg key)
    pure (insert neg key, found)

/-- The check of a new assignment, which passes if it is not asked for. -/
def checkBinding (key : Finset Expr) (binding : Bindings) : Except Fault Bool :=
  if options.debugCheckBinding then satisfies o fuel binding key else pure true

def memoize (key : Finset Expr) (binding : Bindings) : Except Fault State := do
  let assignmentsTable :=
    if binding ∈ s.assignmentsTable then s.assignmentsTable
    else s.assignmentsTable.orderedInsert (fun a b => before a b) binding
  let matched ← checkBinding o options fuel key binding
  require (matched = true) .bindingMismatch
  pure { s with
    cache := s.cache.insert key (some binding)
    assignmentsTable := assignmentsTable }

def getAssignment (query : Query) : Except Fault (State × Option (Option Bindings)) := do
  let (key, found) ← lookupAssignment o options fuel s query
  match found with
  | some result => pure (s, some result)
  | none =>
    let objects := findSymbolicObjects (key.sort (· ≤ ·))
    let s := { s with asked := s.asked ++ [(query, objects)] }
    match solver.computeInitialValues query objects with
    | none => pure (s, none)
    | some none => pure ({ s with cache := s.cache.insert key none }, some none)
    | some (some values) => do
      let binding := Bindings.ofValues objects values
      let s ← memoize o options before fuel s key binding
      pure (s, some (some binding))

/-- An assignment that satisfies the constraints, which is asserted to be there. -/
def mustHaveAssignment (query : Query) : Except Fault (State × Option Bindings) := do
  let (s, a) ← getAssignment o options before fuel solver s query.withFalse
  match a with
  | none => pure (s, none)
  | some none => throw (.assertion .noAssignment)
  | some (some a) => pure (s, some a)

def evaluate (a : Bindings) (e : Expr) : Except Fault ConstantExpr := do
  let value ← PartialAssignment.evaluate o fuel ⟨false, a⟩ e
  match value.constant? with
  | none => throw (.assertion .notConstant)
  | some ce => pure ce

def computeValidity (query : Query) : Except Fault (State × Option Validity) := do
  let (s, a) ← mustHaveAssignment o options before fuel solver s query
  match a with
  | none => pure (s, none)
  | some a => do
    let q ← evaluate o fuel a query.expr
    if q.isTrue then
      let (s, a) ← getAssignment o options before fuel solver s query
      pure (s, a.map fun a => if a.isNone then .isTrue else .unknown)
    else
      let negated ← query.negateExpr o fuel
      let (s, a) ← getAssignment o options before fuel solver s negated
      pure (s, a.map fun a => if a.isNone then .isFalse else .unknown)

def knownRefuted (query : Query) : Except Fault Bool :=
  if options.experimental then do
    let negated ← query.negateExpr o fuel
    let (_, found) ← lookupAssignment o options fuel s negated
    pure (decide (found = some none))
  else pure false

/-- The call fails after a positive check. -/
def computeTruth (query : Query) : Except Fault (State × Option Bool) := do
  let refuted ← knownRefuted o options fuel s query
  if refuted then pure (s, none)
  else
    let (s, a) ← getAssignment o options before fuel solver s query
    pure (s, a.map Option.isNone)

def computeValue (query : Query) : Except Fault (State × Option Expr) := do
  let (s, a) ← mustHaveAssignment o options before fuel solver s query
  match a with
  | none => pure (s, none)
  | some a => do
    let result ← evaluate o fuel a query.expr
    pure (s, some (.constant result))

def valuesOf (a : Bindings) (objects : List Symbolic.Array) : Values :=
  objects.map fun os => (a.lookup os).getD (List.replicate os.size 0)

def computeInitialValues (query : Query) (objects : List Symbolic.Array) :
    Except Fault (State × Option (Option Values)) := do
  let (s, a) ← getAssignment o options before fuel solver s query
  pure (s, a.map fun a => a.map fun a => valuesOf a objects)

def call (request : Request) : Except Fault (State × Option Answer) :=
  match request with
  | .validity query => do
    let (s, result) ← computeValidity o options before fuel solver s query
    pure (s, .validity <$> result)
  | .truth query => do
    let (s, isValid) ← computeTruth o options before fuel solver s query
    pure (s, .truth <$> isValid)
  | .value query => do
    let (s, result) ← computeValue o options before fuel solver s query
    pure (s, .value <$> result)
  | .initialValues query objects => do
    let (s, values) ← computeInitialValues o options before fuel solver s query objects
    pure (s, .initialValues <$> values)

/-- A call of a sequence: the state that it is made in, what it asks the solver below, and
its answer. -/
structure Step where
  state : State
  asked : List (Query × List Symbolic.Array)
  answer : Option Answer

/-- A sequence of calls, each with what the solver below answers during that call. -/
def calls : State → List (SolverImpl × Request) → Except Fault (List Step)
  | _, [] => pure []
  | s, (solver, request) :: rest => do
    let s := { s with asked := [] }
    let (s', answer) ← call o options before fuel solver s request
    let steps ← calls s' rest
    pure (⟨s, s'.asked, answer⟩ :: steps)

end CexCachingSolver

end NeuroMerge.Solver
