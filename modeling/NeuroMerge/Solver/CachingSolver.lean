import NeuroMerge.Solver.SolverImpl

/-!
# The caching solver

Answers that are kept for queries asked again, also in negated form. Which of an
expression and its negation is the smaller one depends on the hashes; that order is
a parameter.
-/

namespace NeuroMerge.Solver

open Symbolic
open Execution (Validity)

/-- `IncompleteSolver::PartialValidity`, without the value for nothing known. -/
inductive PartialValidity where
  | mustBeTrue
  | mustBeFalse
  | mayBeTrue
  | mayBeFalse
  | trueOrFalse
  deriving DecidableEq, Repr

def negatePartialValidity : PartialValidity → PartialValidity
  | .mustBeTrue => .mustBeFalse
  | .mustBeFalse => .mustBeTrue
  | .mayBeTrue => .mayBeFalse
  | .mayBeFalse => .mayBeTrue
  | .trueOrFalse => .trueOrFalse

namespace CachingSolver

structure CacheEntry where
  constraints : List Expr
  query : Expr
  deriving DecidableEq

abbrev Cache := AList fun _ : CacheEntry => PartialValidity

variable (o : Options) (less : Expr → Expr → Bool) (fuel : Nat) (solver : SolverImpl) (cache : Cache)

/-- The smaller one of the expression and its negation, and whether it is the negation. -/
def canonicalizeQuery (originalQuery : Expr) : Except Fault (Expr × Bool) := do
  let negatedQuery ← createIsZero o fuel originalQuery
  if less originalQuery negatedQuery then pure (originalQuery, false)
  else pure (negatedQuery, true)

def cacheLookup (query : Query) : Except Fault (Option PartialValidity) := do
  let (canonicalQuery, negationUsed) ← canonicalizeQuery o less fuel query.expr
  let result := cache.lookup ⟨query.constraints, canonicalQuery⟩
  pure (if negationUsed then result.map negatePartialValidity else result)

def cacheInsert (query : Query) (result : PartialValidity) : Except Fault Cache := do
  let (canonicalQuery, negationUsed) ← canonicalizeQuery o less fuel query.expr
  let ce : CacheEntry := ⟨query.constraints, canonicalQuery⟩
  let cachedResult := if negationUsed then negatePartialValidity result else result
  pure (if (cache.lookup ce).isSome then cache else cache.insert ce cachedResult)

def computeValidity (query : Query) : Except Fault (Cache × Option Validity) := do
  match ← cacheLookup o less fuel cache query with
  | some .mustBeTrue => pure (cache, some .isTrue)
  | some .mustBeFalse => pure (cache, some .isFalse)
  | some .trueOrFalse => pure (cache, some .unknown)
  | some .mayBeTrue =>
    match solver.computeTruth query with
    | none => pure (cache, none)
    | some true => do
      let cache ← cacheInsert o less fuel cache query .mustBeTrue
      pure (cache, some .isTrue)
    | some false => do
      let cache ← cacheInsert o less fuel cache query .trueOrFalse
      pure (cache, some .unknown)
  | some .mayBeFalse => do
    let negated ← query.negateExpr o fuel
    match solver.computeTruth negated with
    | none => pure (cache, none)
    | some true => do
      let cache ← cacheInsert o less fuel cache query .mustBeFalse
      pure (cache, some .isFalse)
    | some false => do
      let cache ← cacheInsert o less fuel cache query .trueOrFalse
      pure (cache, some .unknown)
  | none =>
    match solver.computeValidity query with
    | none => pure (cache, none)
    | some result => do
      let cachedResult := match result with
        | .isTrue => .mustBeTrue
        | .isFalse => .mustBeFalse
        | .unknown => .trueOrFalse
      let cache ← cacheInsert o less fuel cache query cachedResult
      pure (cache, some result)

def computeTruth (query : Query) : Except Fault (Cache × Option Bool) := do
  let cached ← cacheLookup o less fuel cache query
  match cached with
  -- that it may be true leaves open whether it may be false
  | some .mustBeTrue => pure (cache, some true)
  | some .mustBeFalse | some .mayBeFalse | some .trueOrFalse => pure (cache, some false)
  | some .mayBeTrue | none =>
    match solver.computeTruth query with
    | none => pure (cache, none)
    | some isValid => do
      let cachedResult :=
        if isValid then .mustBeTrue
        else if cached.isSome then .trueOrFalse
        else .mayBeFalse
      let cache ← cacheInsert o less fuel cache query cachedResult
      pure (cache, some isValid)

def call : Request → Except Fault (Cache × Option Answer)
  | .validity query => do
    let (cache, result) ← computeValidity o less fuel solver cache query
    pure (cache, .validity <$> result)
  | .truth query => do
    let (cache, isValid) ← computeTruth o less fuel solver cache query
    pure (cache, .truth <$> isValid)
  | .value query => pure (cache, .value <$> solver.computeValue query)
  | .initialValues query objects =>
    pure (cache, .initialValues <$> solver.computeInitialValues query objects)

def calls : Cache → List (SolverImpl × Request) → Except Fault (List (Option Answer))
  | _, [] => pure []
  | cache, (solver, request) :: rest => do
    let (cache, answer) ← call o less fuel solver cache request
    let answers ← calls cache rest
    pure (answer :: answers)

end CachingSolver

end NeuroMerge.Solver
