import NeuroMerge.Solver.CachingProperties

/-!
# Staged solving

An incomplete solver is asked first, and a complete one for what the first has left open.
-/

namespace NeuroMerge.Solver

open Symbolic
open Symbolic.ConstraintManager (Hold)
open Execution (Validity)

/-- A solver that may know nothing. `computeInitialValues` is given the vector of the values
so far; it fails or says whether there is a solution, and leaves something in the vector. -/
structure IncompleteSolver where
  computeTruth : Query → Option PartialValidity
  /-- What a subclass replaces `computeValidity` by. -/
  overriding : Option (Query → Option PartialValidity)
  computeValue : Query → Option Expr
  computeInitialValues : Query → List Symbolic.Array → Values → Values × Option Bool

/-- A solver together with what it does to the vector of the values. -/
structure Stage extends SolverImpl where
  write : Values → Values → Values
  write_nil : ∀ found, write [] found = found

def IncompleteSolver.computeValidity (o : Options) (fuel : Nat) (primary : IncompleteSolver)
    (query : Query) : Except Fault (Option PartialValidity) :=
  match primary.overriding with
  | some computeValidity => pure (computeValidity query)
  | none =>
    let trueResult := primary.computeTruth query
    if trueResult = some .mustBeTrue then
      pure (some .mustBeTrue)
    else do
      let negated ← query.negateExpr o fuel
      let falseResult := primary.computeTruth negated
      if falseResult = some .mustBeTrue then
        pure (some .mustBeFalse)
      else
        match trueResult, falseResult with
        | some _, some _ => pure (some .trueOrFalse)
        -- ==> trueResult == MayBeFalse
        | some _, none => pure (some .mayBeFalse)
        -- ==> falseResult == MayBeFalse
        | none, some _ => pure (some .mayBeTrue)
        | none, none => pure none

/-! ## `StagedSolverImpl` -/

namespace StagedSolver

variable (o : Options) (fuel : Nat) (primary : IncompleteSolver) (secondary : Stage)

def computeTruth (query : Query) : Option Bool :=
  match primary.computeTruth query with
  | some trueResult => some (trueResult = .mustBeTrue)
  | none => secondary.computeTruth query

def computeValidity (query : Query) : Except Fault (Option Validity) := do
  match ← primary.computeValidity o fuel query with
  | some .mustBeTrue => pure (some .isTrue)
  | some .mustBeFalse => pure (some .isFalse)
  | some .trueOrFalse => pure (some .unknown)
  | some .mayBeTrue =>
    pure ((secondary.computeTruth query).map fun tmp => if tmp then .isTrue else .unknown)
  | some .mayBeFalse => do
    let negated ← query.negateExpr o fuel
    pure ((secondary.computeTruth negated).map fun tmp => if tmp then .isFalse else .unknown)
  | none => pure (secondary.computeValidity query)

def computeValue (query : Query) : Option Expr :=
  match primary.computeValue query with
  | some result => some result
  | none => secondary.computeValue query

def computeInitialValues (query : Query) (objects : List Symbolic.Array) (values : Values) :
    Values × Option Bool :=
  match primary.computeInitialValues query objects values with
  | (values, some hasSolution) => (values, some hasSolution)
  | (values, none) =>
    match secondary.computeInitialValues query objects with
    | some (some found) => (secondary.write values found, some true)
    | some none => (values, some false)
    | none => (values, none)

def call : Request → Except Fault (Option Answer)
  | .validity query => do
    let result ← computeValidity o fuel primary secondary query
    pure (.validity <$> result)
  | .truth query => pure (.truth <$> computeTruth primary secondary query)
  | .value query => pure (.value <$> computeValue primary secondary query)
  | .initialValues query objects =>
    match computeInitialValues primary secondary query objects [] with
    | (values, some true) => pure (some (.initialValues (some values)))
    | (_, some false) => pure (some (.initialValues none))
    | (_, none) => pure none

end StagedSolver

/-! ## What is expected of the first solver -/

structure IncompleteSolver.Sound (o : Options) (primary : IncompleteSolver) : Prop where
  truth : ∀ query pv, query.Askable o → primary.computeTruth query = some pv →
    pv.Holds query.constraints query.expr
  validity : ∀ computeValidity, primary.overriding = some computeValidity →
    ∀ query pv, query.Askable o → computeValidity query = some pv →
      pv.Holds query.constraints query.expr
  value : ∀ query result, primary.computeValue query = some result →
    (Request.value query).Correct (.value result)
  initialValues : ∀ query objects values hasSolution,
    primary.computeInitialValues query objects [] = (values, some hasSolution) →
      (Request.initialValues query objects).Correct
        (.initialValues (if hasSolution then some values else none))

/-- What the callers rely on besides: that a query may be true is nothing that `computeTruth`
answers, and a solver that gives up leaves the vector unmodified. -/
structure IncompleteSolver.Contract (primary : IncompleteSolver) : Prop where
  truth : ∀ query, primary.computeTruth query ≠ some .mayBeTrue
  unmodified : ∀ query objects values left,
    primary.computeInitialValues query objects values = (left, none) → left = values

namespace StagedSolver

variable {o : Options} {fuel : Nat} {primary : IncompleteSolver} {secondary : Stage}
  {query : Query} {neg : Expr} {pv : PartialValidity}

theorem askable_negated (askable : query.Askable o) (possible : query.Possible)
    (negated : createIsZero o fuel query.expr = .ok neg) : ({ query with expr := neg } : Query).Askable o := by
  have denotes : ∀ ρ, (o.constArrayOpt = true → Hold ρ query.constraints) → Denotes (.bounded o ρ) ρ neg (~~~ query.expr.eval ρ 1) := by
    intro ρ hold
    have builds : Satisfies _ _ (createIsZero o fuel query.expr) :=
      createIsZero_builds Guards.allows_bounded ⟨askable.sensible ρ hold, askable.boolean, rfl⟩
    exact builds.elim negated
  obtain ⟨ρ, hold⟩ := possible
  constructor
  · exact (denotes ρ fun _ => hold).width
  · exact ⟨_, (denotes ρ fun _ => hold).wellFormed⟩
  · exact fun ρ hold => (denotes ρ hold).wellFormed

theorem holds_mayBeFalse (contract : primary.Contract) (possible : query.Possible)
    (answered : primary.computeTruth query = some pv) (notTrue : pv ≠ .mustBeTrue)
    (holds : pv.Holds query.constraints query.expr) : PartialValidity.mayBeFalse.Holds query.constraints query.expr := by
  cases pv with
  | mustBeTrue => exact absurd rfl notTrue
  | mustBeFalse =>
    obtain ⟨ρ, hold⟩ := possible
    exact ⟨ρ, hold, holds ρ hold⟩
  | mayBeTrue => exact absurd answered (contract.truth query)
  | mayBeFalse => exact holds
  | trueOrFalse => exact holds.2

/-- The partial validity that is computed from two answers about truth is sound too. -/
theorem primary_computeValidity_spec (sound : primary.Sound o) (contract : primary.Contract)
    (askable : query.Askable o) (possible : query.Possible) (negatable : Negatable o fuel query) :
    Satisfies (fun _ => False) (fun result => ∀ pv, result = some pv → pv.Holds query.constraints query.expr)
      (primary.computeValidity o fuel query) := by
  obtain ⟨neg, negated, opposite⟩ := negatable
  have truth := sound.truth query
  have falsity := sound.truth { query with expr := neg }
  have negatedAskable := askable_negated askable possible negated
  rw [IncompleteSolver.computeValidity]
  split
  · rename_i computeValidity isOverriding
    exact fun pv answered => sound.validity _ isOverriding query pv askable answered
  · dsimp only
    split
    · rename_i isTrue
      rintro pv ⟨rfl⟩
      exact truth _ askable isTrue
    · rename_i notTrue
      rw [Query.negateExpr, negated]
      change Satisfies _ _ (if primary.computeTruth _ = some .mustBeTrue then _ else _)
      have toQuery : ∀ {pv : PartialValidity}, pv.Holds query.constraints neg →
          (negatePartialValidity pv).Holds query.constraints query.expr :=
        fun holds => holds.negate opposite.symm
      split
      · rename_i isTrue
        rintro pv ⟨rfl⟩
        exact toQuery (falsity _ negatedAskable isTrue)
      · rename_i notFalse
        -- an answer for the query itself, and one for its negation
        have mayBeFalse : ∀ pv, primary.computeTruth query = some pv →
            PartialValidity.mayBeFalse.Holds query.constraints query.expr := fun pv answered =>
          holds_mayBeFalse contract possible answered (fun isTrue => notTrue (isTrue ▸ answered)) (truth pv askable answered)
        have mayBeTrue : ∀ pv, primary.computeTruth { query with expr := neg } = some pv →
            PartialValidity.mayBeTrue.Holds query.constraints query.expr := by
          intro pv answered
          have notRefuted := @holds_mayBeFalse _ { query with expr := neg } _ contract possible
            answered (fun isTrue => notFalse (isTrue ▸ answered)) (falsity pv negatedAskable answered)
          exact toQuery notRefuted
        split
        · rename_i answered answered'
          rintro pv ⟨rfl⟩
          exact ⟨mayBeTrue _ answered', mayBeFalse _ answered⟩
        · rename_i answered _
          rintro pv ⟨rfl⟩
          exact mayBeFalse _ answered
        · rename_i _ answered'
          rintro pv ⟨rfl⟩
          exact mayBeTrue _ answered'
        · rintro _ ⟨⟩

/-- The answer is right; there is none only if the second solver fails. -/
def Right (secondary : Stage) (request : Request) : Option Answer → Prop
  | some answer => request.Correct answer
  | none => secondary.Fails

variable {request : Request}

section

variable (sound : primary.Sound o) (contract : primary.Contract) (correct : secondary.Correct)
include sound contract correct

theorem computeTruth_right (askable : query.Askable o) (possible : query.Possible) :
    Right secondary (.truth query) (.truth <$> computeTruth primary secondary query) := by
  rw [computeTruth]
  split
  · rename_i trueResult answered
    have holds := sound.truth query trueResult askable answered
    change decide (trueResult = .mustBeTrue) = true ↔ query.Valid
    rw [decide_eq_true_iff]
    constructor
    · rintro rfl
      exact holds
    · intro valid
      by_contra notTrue
      have false := holds_mayBeFalse contract possible answered notTrue holds
      exact Query.not_valid_iff.mpr false valid
  · cases answered : secondary.computeTruth query with
    | none => exact CachingSolver.computeTruth_fails answered
    | some isValid => exact CachingSolver.computeTruth_correct correct answered

theorem computeValidity_right (askable : query.Askable o) (possible : query.Possible) (negatable : Negatable o fuel query) :
    Satisfies (fun _ => False) (Right secondary (.validity query)) (call o fuel primary secondary (.validity query)) := by
  obtain ⟨partly, computed, holds⟩ := (primary_computeValidity_spec sound contract askable possible negatable).exists_ok
  obtain ⟨neg, negated, opposite⟩ := negatable
  rw [call, computeValidity, computed]
  cases partly with
  | none =>
    cases answered : secondary.computeValidity query with
    | none => exact CachingSolver.computeValidity_fails answered
    | some result => exact CachingSolver.computeValidity_correct correct answered
  | some pv =>
    have holds := holds pv rfl
    cases pv with
    | mustBeTrue => exact holds
    | mustBeFalse => exact ⟨fun valid => possible.not_both valid holds, holds⟩
    | trueOrFalse => exact ⟨Query.not_valid_iff.mpr holds.2, Query.not_refuted_iff.mpr holds.1⟩
    | mayBeTrue =>
      have notRefuted := Query.not_refuted_iff.mpr holds
      cases answered : secondary.computeTruth query with
      | none => exact CachingSolver.computeTruth_fails answered
      | some isValid =>
        have right := CachingSolver.computeTruth_correct correct answered
        cases isValid with
        | true => exact right.mp rfl
        | false => exact ⟨fun valid => Bool.false_ne_true (right.mpr valid), notRefuted⟩
    | mayBeFalse =>
      have notValid := Query.not_valid_iff.mpr holds
      rw [Query.negateExpr, negated]
      change Right secondary _ (Answer.validity <$> (secondary.computeTruth _).map _)
      cases answered : secondary.computeTruth { query with expr := neg } with
      | none => exact CachingSolver.computeTruth_fails answered
      | some isValid =>
        have right := (CachingSolver.computeTruth_correct correct answered).trans (negateExpr_valid opposite)
        cases isValid with
        | true => exact ⟨notValid, right.mp rfl⟩
        | false => exact ⟨notValid, fun refuted => Bool.false_ne_true (right.mpr refuted)⟩

theorem computeInitialValues_right (objects : List Symbolic.Array) :
    Satisfies (fun _ => False) (Right secondary (.initialValues query objects))
      (call o fuel primary secondary (.initialValues query objects)) := by
  have found := sound.initialValues query objects
  have unmodified := contract.unmodified query objects []
  rw [call, computeInitialValues]
  cases first : primary.computeInitialValues query objects [] with
  | mk values answer =>
    cases answer with
    | some hasSolution =>
      have right := found values hasSolution first
      cases hasSolution with
      | true => exact right
      | false => exact right
    | none =>
      obtain rfl := unmodified values first
      cases answered : secondary.computeInitialValues query objects with
      | none => exact ⟨.initialValues query objects, by rw [SolverImpl.answer, answered]; rfl⟩
      | some found =>
        have right := correct (.initialValues query objects) (.initialValues found) (by rw [SolverImpl.answer, answered]; rfl)
        cases found with
        | none => exact right
        | some values =>
          dsimp only
          rw [secondary.write_nil]
          exact right

end

/-- Whatever the first solver knows, the answer is the right one, where a query that is a
condition is about possible constraints and the first solver keeps to its contract. -/
theorem stagedSolver_correct (sound : primary.Sound o) (contract : primary.Contract)
    (correct : secondary.Correct) (request : Request)
    (askable : request.isCondition = true → request.query.Askable o)
    (possible : request.isCondition = true → request.query.Possible) :
    ∃ bound, ∀ fuel, bound ≤ fuel → ∃ answer,
      call o fuel primary secondary request = .ok answer ∧ Right secondary request answer := by
  cases request with
  | validity query =>
    obtain ⟨bound, enough⟩ := (askable rfl).negatable
    refine ⟨bound, fun fuel large => ?_⟩
    exact (computeValidity_right sound contract correct (askable rfl) (possible rfl)
      (enough fuel large)).exists_ok
  | truth query =>
    exact ⟨0, fun fuel _ => ⟨_, rfl, computeTruth_right sound contract correct (askable rfl)
      (possible rfl)⟩⟩
  | value query =>
    refine ⟨0, fun fuel _ => ⟨_, rfl, ?_⟩⟩
    rw [computeValue]
    split
    · rename_i result answered
      exact sound.value query result answered
    · cases answered : secondary.computeValue query with
      | none => exact ⟨.value query, by rw [SolverImpl.answer, answered]; rfl⟩
      | some result => exact correct (.value query) _ (by rw [SolverImpl.answer, answered]; rfl)
  | initialValues query objects =>
    exact ⟨0, fun fuel _ => (computeInitialValues_right sound contract correct objects).exists_ok⟩

section Example

open Symbolic.ConstraintManager (sampleCondition sampleCondition_eval sampleArray)

def knowing (constraints : List Expr) (e : Expr) (pv : PartialValidity) : IncompleteSolver where
  computeTruth query := if query.constraints = constraints ∧ query.expr = e then some pv else none
  overriding := none
  computeValue _ := none
  computeInitialValues _ _ values := (values, none)

theorem knowing_sound {constraints : List Expr} {e : Expr} (holds : pv.Holds constraints e) : (knowing constraints e pv).Sound o where
  truth := by
    intro query pv' _ answered
    simp only [knowing, Option.ite_none_right_eq_some, Option.some.injEq] at answered
    obtain ⟨⟨sameConstraints, sameExpr⟩, rfl⟩ := answered
    rw [sameConstraints, sameExpr]
    exact holds
  validity _ := nofun
  value _ _ := nofun
  initialValues _ _ _ _ answered := by cases answered

theorem knowing_contract {constraints : List Expr} {e : Expr} (notMayBe : pv ≠ .mayBeTrue) : (knowing constraints e pv).Contract where
  truth query answered := by
    simp only [knowing, Option.ite_none_right_eq_some, Option.some.injEq] at answered
    exact notMayBe answered.2
  unmodified _ _ _ _ left := (Prod.mk.inj left).1.symm

/-- The values are put behind what is in the vector. -/
noncomputable def oracleStage : Stage where
  toSolverImpl := oracle
  write values found := values ++ found
  write_nil _ := rfl

theorem sampleCondition_hold : Hold (fun array _ => (3#8).setWidth array.range) [sampleCondition] := by
  intro e member
  obtain rfl := List.mem_singleton.mp member
  exact sampleCondition_eval 3

theorem stagedSolver_correct_sample :
    ∃ fuel answer, call noOptions fuel (knowing [sampleCondition] sampleCondition .mustBeTrue)
        oracleStage (.validity ⟨[sampleCondition], sampleCondition⟩) = .ok answer ∧
      Right oracleStage (.validity ⟨[sampleCondition], sampleCondition⟩) answer := by
  have mustBeTrue : PartialValidity.mustBeTrue.Holds [sampleCondition] sampleCondition :=
    fun ρ hold => hold _ (List.mem_singleton_self _)
  have correct : oracleStage.Correct := oracle_correct
  obtain ⟨bound, enough⟩ := stagedSolver_correct (knowing_sound mustBeTrue)
    (knowing_contract (by decide)) correct (.validity ⟨[sampleCondition], sampleCondition⟩)
    (fun _ => sampleCondition_askable _) (fun _ => ⟨_, sampleCondition_hold⟩)
  exact ⟨bound, enough bound (Nat.le_refl bound)⟩

def givingUp : IncompleteSolver where
  computeTruth _ := none
  overriding := none
  computeValue _ := none
  computeInitialValues _ _ values := (values ++ [[0#8]], none)

theorem givingUp_sound : givingUp.Sound o where
  truth _ _ _ := nofun
  validity _ := nofun
  value _ _ := nofun
  initialValues _ _ _ _ answered := by cases answered

def zeroed : Assignment := fun array _ => (0#8).setWidth array.range

theorem zeroed_answers : (Request.initialValues ⟨[], sampleCondition⟩ [sampleArray]).Correct (.initialValues (some [[0#8]])) := by
  refine ⟨zeroed, nofun, sampleCondition_eval 0, fun _ _ _ => by simp [zeroed], ?_⟩
  refine .cons ⟨rfl, fun i byte isByte => ?_⟩ .nil
  obtain ⟨-, rfl⟩ := List.getElem?_eq_some_iff.mp isByte
  simp [zeroed]

theorem oracle_values : ∃ bytes, oracle.computeInitialValues ⟨[], sampleCondition⟩ [sampleArray] = some (some [bytes]) := by
  have right : ∃ values, (Request.initialValues ⟨[], sampleCondition⟩ [sampleArray]).Correct
      (.initialValues values) := ⟨_, zeroed_answers⟩
  have answered : oracle.computeInitialValues ⟨[], sampleCondition⟩ [sampleArray] = some right.choose := dif_pos right
  have chosen := right.choose_spec
  rw [answered]
  cases found : right.choose with
  | none =>
    rw [found] at chosen
    exact absurd ((chosen zeroed nofun).symm.trans (sampleCondition_eval 0)) (by decide)
  | some values =>
    rw [found] at chosen
    obtain ⟨ρ, -, -, -, reads⟩ := chosen
    rcases reads with _ | ⟨-, ⟨-⟩⟩
    exact ⟨_, rfl⟩

/-- A valid query that may be true is said not to be valid, one that follows from contradictory
constraints to be false, and the values that the first solver has left count as values of the
second. -/
theorem stagedSolver_trusts_first :
    (call noOptions 0 (knowing [sampleCondition] sampleCondition .mayBeTrue) oracleStage
          (.truth ⟨[sampleCondition], sampleCondition⟩) = .ok (some (.truth false)) ∧
        (knowing [sampleCondition] sampleCondition .mayBeTrue).Sound noOptions ∧
        ¬ (Request.truth ⟨[sampleCondition], sampleCondition⟩).Correct (.truth false)) ∧
      (call noOptions 3 (knowing contradictory sampleNegation .mustBeTrue) oracleStage
          (.validity ⟨contradictory, sampleCondition⟩) = .ok (some (.validity .isFalse)) ∧
        (knowing contradictory sampleNegation .mustBeTrue).Sound noOptions ∧
        ¬ (Request.validity ⟨contradictory, sampleCondition⟩).Correct (.validity .isFalse)) ∧
      ∃ bytes,
        call noOptions 0 givingUp oracleStage (.initialValues ⟨[], sampleCondition⟩ [sampleArray]) =
          .ok (some (.initialValues (some [[0#8], bytes]))) ∧
        givingUp.Sound noOptions ∧
        ¬ (Request.initialValues ⟨[], sampleCondition⟩ [sampleArray]).Correct
          (.initialValues (some [[0#8], bytes])) := by
  refine ⟨⟨?_, ?_, ?_⟩, ⟨?_, ?_, ?_⟩, ?_⟩
  · rfl
  · exact knowing_sound ⟨_, sampleCondition_hold, sampleCondition_eval 3⟩
  · intro correct
    exact Bool.false_ne_true (correct.mpr fun ρ hold => hold _ (List.mem_singleton_self _))
  · rfl
  · exact knowing_sound fun ρ hold => absurd hold (not_hold_contradictory ρ)
  · intro correct
    exact correct.1 fun ρ hold => absurd hold (not_hold_contradictory ρ)
  · obtain ⟨bytes, found⟩ := oracle_values
    refine ⟨bytes, ?_, givingUp_sound, ?_⟩
    · have run : computeInitialValues givingUp oracleStage ⟨[], sampleCondition⟩ [sampleArray] [] =
          ([[0#8], bytes], some true) := by
        have second : oracleStage.computeInitialValues ⟨[], sampleCondition⟩ [sampleArray] =
            some (some [bytes]) := found
        rw [computeInitialValues]
        simp only [givingUp, second]
        rfl
      rw [call, run]
      rfl
    · rintro ⟨ρ, -, -, -, reads⟩
      rcases reads with _ | ⟨-, ⟨⟩⟩

end Example

end StagedSolver

end NeuroMerge.Solver
