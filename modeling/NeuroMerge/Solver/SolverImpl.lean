import NeuroMerge.Execution.State
import NeuroMerge.Solver.IndependentSolver
import NeuroMerge.Symbolic.ConstraintProperties

/-!
# Solver implementations

What the stages of a solver chain answer, and which answers are right ones.
-/

namespace NeuroMerge.Solver

open Symbolic
open Symbolic.ConstraintManager (Hold)
open Execution (Validity)

abbrev Values := List (List (BitVec 8))

/-- Each answer is none where the call fails. `computeInitialValues` may also succeed
without a solution. -/
structure SolverImpl where
  computeValidity : Query → Option Validity
  computeTruth : Query → Option Bool
  computeValue : Query → Option Expr
  computeInitialValues : Query → List Symbolic.Array → Option (Option Values)

namespace Query

def negateExpr (o : Options) (fuel : Nat) (query : Query) : Except Fault Query := do
  let expr ← createIsZero o fuel query.expr
  pure { query with expr := expr }

def Possible (query : Query) : Prop := ∃ ρ, Hold ρ query.constraints

def Valid (query : Query) : Prop :=
  ∀ ρ, Hold ρ query.constraints → query.expr.eval ρ 1 = 1#1

def Refuted (query : Query) : Prop :=
  ∀ ρ, Hold ρ query.constraints → query.expr.eval ρ 1 = 0#1

theorem Possible.not_both {query : Query} (possible : query.Possible) (valid : query.Valid) : ¬ query.Refuted := by
  obtain ⟨ρ, hold⟩ := possible
  intro refuted
  have both := (valid ρ hold).symm.trans (refuted ρ hold)
  contradiction

theorem not_valid_iff {query : Query} : ¬ query.Valid ↔ ∃ ρ, Hold ρ query.constraints ∧ query.expr.eval ρ 1 = 0#1 := by
  simp only [Valid, not_forall, exists_prop, BitVector.ne_one_iff_eq_zero]

theorem not_refuted_iff {query : Query} : ¬ query.Refuted ↔ ∃ ρ, Hold ρ query.constraints ∧ query.expr.eval ρ 1 = 1#1 := by
  simp only [Refuted, not_forall, exists_prop, ← BitVector.ne_one_iff_eq_zero, not_not]

end Query

/-- A boolean query that the constructors of expressions accept; if constant arrays are
rewritten, its reads only have to be in bounds where the constraints hold. -/
structure Query.Askable (o : Options) (query : Query) : Prop where
  boolean : query.expr.width = 1
  wellFormed : ∃ guards, query.expr.WellFormed guards
  sensible : ∀ ρ, (o.constArrayOpt = true → Hold ρ query.constraints) →
    query.expr.WellFormed (.bounded o ρ)

def Padded (ρ : Assignment) : Prop :=
  ∀ (array : Symbolic.Array) (i : Nat), array.size ≤ i → ρ array i = 0#(array.range)

def Reads (ρ : Assignment) (objects : List Symbolic.Array) (values : Values) : Prop :=
  List.Forall₂ (fun array bytes => bytes.length = array.size ∧
    ∀ i byte, bytes[i]? = some byte → ρ array i = byte.setWidth array.range) objects values

inductive Request where
  | validity (query : Query)
  | truth (query : Query)
  | value (query : Query)
  | initialValues (query : Query) (objects : List Symbolic.Array)

inductive Answer where
  | validity (result : Validity)
  | truth (isValid : Bool)
  | value (result : Expr)
  | initialValues (values : Option Values)

def Request.query : Request → Query
  | .validity query | .truth query | .value query | .initialValues query _ => query

def Request.isCondition : Request → Bool
  | .validity _ | .truth _ => true
  | .value _ | .initialValues _ _ => false

def Request.needsAssignment : Request → Bool
  | .validity _ | .value _ => true
  | .truth _ | .initialValues _ _ => false

def Request.Correct : Request → Answer → Prop
  | .validity query, .validity .isTrue => query.Valid
  | .validity query, .validity .isFalse => ¬ query.Valid ∧ query.Refuted
  | .validity query, .validity .unknown => ¬ query.Valid ∧ ¬ query.Refuted
  | .truth query, .truth isValid => isValid = true ↔ query.Valid
  | .value query, .value result => query.Possible → ∃ ρ, Hold ρ query.constraints ∧
      result = .constant ⟨query.expr.width, query.expr.eval ρ query.expr.width⟩
  | .initialValues query objects, .initialValues (some values) => ∃ ρ, Hold ρ query.constraints ∧
      query.expr.eval ρ 1 = 0#1 ∧ Padded ρ ∧ Reads ρ objects values
  | .initialValues query _, .initialValues none => query.Valid
  | _, _ => False

namespace SolverImpl

def answer (solver : SolverImpl) : Request → Option Answer
  | .validity query => .validity <$> solver.computeValidity query
  | .truth query => .truth <$> solver.computeTruth query
  | .value query => .value <$> solver.computeValue query
  | .initialValues query objects => .initialValues <$> solver.computeInitialValues query objects

def Correct (solver : SolverImpl) : Prop :=
  ∀ request answer, solver.answer request = some answer → request.Correct answer

def Fails (solver : SolverImpl) : Prop := ∃ request, solver.answer request = none

end SolverImpl

section Negation

variable {o : Options} {fuel : Nat} {query : Query} {e neg : Expr}

def Opposite (constraints : List Expr) (e neg : Expr) : Prop :=
  ∀ ρ, Hold ρ constraints → neg.eval ρ 1 = ~~~ e.eval ρ 1

theorem Opposite.symm {constraints : List Expr} (opposite : Opposite constraints e neg) : Opposite constraints neg e := by
  intro ρ hold
  rw [opposite ρ hold, BitVec.not_not]

def Negatable (o : Options) (fuel : Nat) (query : Query) : Prop :=
  ∃ neg, createIsZero o fuel query.expr = .ok neg ∧ Opposite query.constraints query.expr neg

theorem negateExpr_valid (opposite : Opposite query.constraints query.expr neg) :
    ({ query with expr := neg } : Query).Valid ↔ query.Refuted := by
  apply forall₂_congr
  intro ρ hold
  rw [opposite ρ hold]
  generalize query.expr.eval ρ 1 = bit
  revert bit
  decide

end Negation

section Oracle

open scoped Classical in
noncomputable def oracle : SolverImpl where
  computeValidity query :=
    if right : ∃ result, (Request.validity query).Correct (.validity result) then
      some right.choose
    else none
  computeTruth query := some (decide query.Valid)
  computeValue query :=
    if right : ∃ result, (Request.value query).Correct (.value result) then some right.choose
    else none
  computeInitialValues query objects :=
    if right : ∃ values, (Request.initialValues query objects).Correct (.initialValues values) then
      some right.choose
    else none

theorem oracle_correct : oracle.Correct := by
  intro request answer answered
  cases request with
  | validity query =>
    simp only [SolverImpl.answer, oracle] at answered
    split at answered
    · rename_i right
      cases answered
      exact right.choose_spec
    · cases answered
  | truth query =>
    cases answered
    classical
    exact decide_eq_true_iff
  | value query =>
    simp only [SolverImpl.answer, oracle] at answered
    split at answered
    · rename_i right
      cases answered
      exact right.choose_spec
    · cases answered
  | initialValues query objects =>
    simp only [SolverImpl.answer, oracle] at answered
    split at answered
    · rename_i right
      cases answered
      exact right.choose_spec
    · cases answered

theorem oracle_valid {query : Query} (valid : query.Valid) :
    oracle.computeValidity query = some .isTrue ∧ ∀ objects, oracle.computeInitialValues query objects = some none := by
  constructor
  · have right : ∃ result, (Request.validity query).Correct (.validity result) := ⟨.isTrue, valid⟩
    have chosen : (Request.validity query).Correct (.validity right.choose) := right.choose_spec
    have isTrue : right.choose = .isTrue := by
      cases found : right.choose with
      | isTrue => rfl
      | isFalse =>
        rw [found] at chosen
        exact absurd valid chosen.1
      | unknown =>
        rw [found] at chosen
        exact absurd valid chosen.1
    exact (dif_pos right).trans (congrArg some isTrue)
  · intro objects
    have right : ∃ values, (Request.initialValues query objects).Correct (.initialValues values) := ⟨none, valid⟩
    have chosen : (Request.initialValues query objects).Correct (.initialValues right.choose) := right.choose_spec
    have nothing : right.choose = none := by
      cases found : right.choose with
      | none => rfl
      | some values =>
        rw [found] at chosen
        obtain ⟨ρ, hold, isFalse, -⟩ := chosen
        have both := (valid ρ hold).symm.trans isFalse
        contradiction
    exact (dif_pos right).trans (congrArg some nothing)

end Oracle

end NeuroMerge.Solver
