import NeuroMerge.Solver.CachingSolver
import NeuroMerge.Symbolic.EqualityReads
import NeuroMerge.Symbolic.PathCondition

/-!
# The caching solver is transparent

What the cache keeps is true of the queries that it is found for, and it is a partial
answer to them as long as their constraints are possible.
-/

namespace NeuroMerge.Solver

open Symbolic
open Symbolic.ConstraintManager (Hold)
open Execution (Validity)

variable {o : Options} {less : Expr → Expr → Bool} {fuel : Nat} {solver : SolverImpl}
  {query : Query} {e neg : Expr} {constraints : List Expr} {pv : PartialValidity}

theorem Query.Askable.opposite (askable : query.Askable o) (negated : createIsZero o fuel query.expr = .ok neg) :
    Opposite query.constraints query.expr neg := by
  intro ρ hold
  have denotes : Denotes (.bounded o ρ) ρ query.expr (query.expr.eval ρ 1) := ⟨askable.sensible ρ fun _ => hold, askable.boolean, rfl⟩
  have builds : Satisfies _ _ (createIsZero o fuel query.expr) := createIsZero_builds Guards.allows_bounded denotes
  exact (builds.elim negated).value

theorem Query.Askable.negatable (askable : query.Askable o) : ∃ bound, ∀ fuel, bound ≤ fuel → Negatable o fuel query := by
  obtain ⟨guards, wellFormed⟩ := askable.wellFormed
  obtain ⟨neg, -, bound, returned⟩ := (createIsZero_ends (o := o) query.expr).returns fun fuel =>
      createIsZero_condition o fuel wellFormed
  exact ⟨bound, fun fuel enough =>
    ⟨neg, returned fuel enough, askable.opposite (returned fuel enough)⟩⟩

def PartialValidity.Holds (constraints : List Expr) (e : Expr) : PartialValidity → Prop
  | .mustBeTrue => ∀ ρ, Hold ρ constraints → e.eval ρ 1 = 1#1
  | .mustBeFalse => ∀ ρ, Hold ρ constraints → e.eval ρ 1 = 0#1
  | .mayBeTrue => ∃ ρ, Hold ρ constraints ∧ e.eval ρ 1 = 1#1
  | .mayBeFalse => ∃ ρ, Hold ρ constraints ∧ e.eval ρ 1 = 0#1
  | .trueOrFalse =>
    (∃ ρ, Hold ρ constraints ∧ e.eval ρ 1 = 1#1) ∧ ∃ ρ, Hold ρ constraints ∧ e.eval ρ 1 = 0#1

theorem PartialValidity.Holds.negate (holds : pv.Holds constraints e) (opposite : Opposite constraints e neg) :
    (negatePartialValidity pv).Holds constraints neg := by
  have toFalse {ρ : Assignment} (hold : Hold ρ constraints) (isTrue : e.eval ρ 1 = 1#1) : neg.eval ρ 1 = 0#1 := by
    rw [opposite ρ hold, isTrue]
    rfl
  have toTrue {ρ : Assignment} (hold : Hold ρ constraints) (isFalse : e.eval ρ 1 = 0#1) : neg.eval ρ 1 = 1#1 := by
    rw [opposite ρ hold, isFalse]
    rfl
  cases pv with
  | mustBeTrue => exact fun ρ hold => toFalse hold (holds ρ hold)
  | mustBeFalse => exact fun ρ hold => toTrue hold (holds ρ hold)
  | mayBeTrue =>
    obtain ⟨ρ, hold, isTrue⟩ := holds
    exact ⟨ρ, hold, toFalse hold isTrue⟩
  | mayBeFalse =>
    obtain ⟨ρ, hold, isFalse⟩ := holds
    exact ⟨ρ, hold, toTrue hold isFalse⟩
  | trueOrFalse =>
    obtain ⟨⟨ρ, hold, isTrue⟩, ρ', hold', isFalse⟩ := holds
    exact ⟨⟨ρ', hold', toTrue hold' isFalse⟩, ρ, hold, toFalse hold isTrue⟩

theorem trueOrFalse_holds (notValid : ¬ query.Valid) (notRefuted : ¬ query.Refuted) :
    PartialValidity.trueOrFalse.Holds query.constraints query.expr :=
  ⟨Query.not_refuted_iff.mp notRefuted, Query.not_valid_iff.mp notValid⟩

namespace CachingSolver

def CacheRight (cache : Cache) : Prop :=
  ∀ ce pv, cache.lookup ce = some pv → (∃ ρ, Hold ρ ce.constraints) →
    pv.Holds ce.constraints ce.query

theorem cacheRight_empty : CacheRight ∅ := by
  intro ce pv found
  simp at found

theorem canonicalizeQuery_spec (negatable : Negatable o fuel query) :
    Satisfies (fun _ => False)
      (fun canonical => if canonical.2 then Opposite query.constraints query.expr canonical.1
        else canonical.1 = query.expr) (canonicalizeQuery o less fuel query.expr) := by
  obtain ⟨neg, negated, opposite⟩ := negatable
  rw [canonicalizeQuery, negated]
  change Satisfies _ _ (if less query.expr neg then _ else _)
  split
  · simp
  · simpa using opposite

variable {cache : Cache}

theorem cacheLookup_spec (negatable : Negatable o fuel query) (right : CacheRight cache) :
    Satisfies (fun _ => False)
      (fun found => ∀ pv, found = some pv → query.Possible →
        pv.Holds query.constraints query.expr) (cacheLookup o less fuel cache query) := by
  apply (canonicalizeQuery_spec negatable).bind
  intro ⟨canonical, negationUsed⟩ related pv found possible
  cases negationUsed with
  | false =>
    rw [← related]
    exact right _ pv found possible
  | true =>
    simp only [if_true, Option.map_eq_some_iff] at related found
    obtain ⟨cached, found, rfl⟩ := found
    exact (right _ cached found possible).negate related.symm

theorem cacheInsert_spec (negatable : Negatable o fuel query) (right : CacheRight cache)
    (holds : query.Possible → pv.Holds query.constraints query.expr) :
    Satisfies (fun _ => False) CacheRight (cacheInsert o less fuel cache query pv) := by
  apply (canonicalizeQuery_spec negatable).bind
  intro ⟨canonical, negationUsed⟩ related
  simp only [Satisfies.pure_iff]
  split
  · exact right
  · intro ce pv' found possible
    by_cases same : ce = ⟨query.constraints, canonical⟩
    · subst same
      rw [AList.lookup_insert, Option.some.injEq] at found
      subst found
      cases negationUsed with
      | false =>
        simp only [Bool.false_eq_true, if_false] at related ⊢
        rw [related]
        exact holds possible
      | true =>
        exact (holds possible).negate related
    · rw [AList.lookup_insert_ne same] at found
      exact right ce pv' found possible

/-- The answer is the right one if the constraints are possible; there is none only if
the solver fails. -/
def Transparent (solver : SolverImpl) (request : Request) : Option Answer → Prop
  | some answer => request.query.Possible → request.Correct answer
  | none => solver.Fails

theorem computeTruth_correct (correct : solver.Correct) {isValid : Bool}
    (answered : solver.computeTruth query = some isValid) : isValid = true ↔ query.Valid :=
  correct (.truth query) (.truth isValid) (by rw [SolverImpl.answer, answered]; rfl)

theorem computeValidity_correct (correct : solver.Correct) {result : Validity}
    (answered : solver.computeValidity query = some result) : (Request.validity query).Correct (.validity result) :=
  correct (.validity query) (.validity result) (by rw [SolverImpl.answer, answered]; rfl)

theorem computeTruth_fails (failed : solver.computeTruth query = none) : solver.Fails :=
  ⟨.truth query, by rw [SolverImpl.answer, failed]; rfl⟩

theorem computeValidity_fails (failed : solver.computeValidity query = none) : solver.Fails :=
  ⟨.validity query, by rw [SolverImpl.answer, failed]; rfl⟩

section

variable (correct : solver.Correct) (negatable : Negatable o fuel query) (right : CacheRight cache)
include correct negatable right

theorem computeValidity_spec :
    Satisfies (fun _ => False)
      (fun outcome => CacheRight outcome.1 ∧
        Transparent solver (.validity query) (.validity <$> outcome.2)) (computeValidity o less fuel solver cache query) := by
  apply (cacheLookup_spec negatable right).bind
  intro found holds
  -- what an entry that is inserted later has to be, with the answer given then
  have insert {pv : PartialValidity} {result : Validity} (holdsNew : query.Possible → pv.Holds query.constraints query.expr)
      (answers : query.Possible → (Request.validity query).Correct (.validity result)) :
      Satisfies (fun _ => False) (fun outcome : Cache × Option Validity => CacheRight outcome.1 ∧
          Transparent solver (.validity query) (.validity <$> outcome.2))
        (do let cache ← cacheInsert o less fuel cache query pv
            pure (cache, some result)) := by
    apply (cacheInsert_spec negatable right holdsNew).bind
    intro cache' right'
    exact ⟨right', answers⟩
  split
  · rename_i found
    exact ⟨right, holds _ rfl⟩
  · exact ⟨right, fun possible =>
      ⟨fun valid => possible.not_both valid (holds _ rfl possible), holds _ rfl possible⟩⟩
  · refine ⟨right, fun possible => ?_⟩
    obtain ⟨mayBeTrue, mayBeFalse⟩ := holds _ rfl possible
    exact ⟨Query.not_valid_iff.mpr mayBeFalse, Query.not_refuted_iff.mpr mayBeTrue⟩
  · split
    · rename_i failed
      exact ⟨right, computeTruth_fails failed⟩
    · rename_i answered
      have valid := (computeTruth_correct correct answered).mp rfl
      exact insert (fun _ => valid) fun _ => valid
    · rename_i answered
      have notValid : ¬ query.Valid := fun valid =>
        Bool.false_ne_true ((computeTruth_correct correct answered).mpr valid)
      have notRefuted (possible : query.Possible) : ¬ query.Refuted := Query.not_refuted_iff.mpr (holds _ rfl possible)
      exact insert (fun possible => trueOrFalse_holds notValid (notRefuted possible)) fun possible => ⟨notValid, notRefuted possible⟩
  · obtain ⟨neg, negated, opposite⟩ := negatable
    simp only [Query.negateExpr, negated, ok_bind, pure_bind]
    have refuted {isValid : Bool} (answered : solver.computeTruth { query with expr := neg } = some isValid) :
        isValid = true ↔ query.Refuted :=
      (computeTruth_correct correct answered).trans (negateExpr_valid opposite)
    split
    · rename_i failed
      exact ⟨right, computeTruth_fails failed⟩
    · rename_i answered
      have isRefuted := (refuted answered).mp rfl
      exact insert (fun _ => isRefuted) fun possible =>
        ⟨fun valid => possible.not_both valid isRefuted, isRefuted⟩
    · rename_i answered
      have notRefuted : ¬ query.Refuted := fun isRefuted =>
        Bool.false_ne_true ((refuted answered).mpr isRefuted)
      have notValid (possible : query.Possible) : ¬ query.Valid := Query.not_valid_iff.mpr (holds _ rfl possible)
      exact insert (fun possible => trueOrFalse_holds (notValid possible) notRefuted) fun possible => ⟨notValid possible, notRefuted⟩
  · split
    · rename_i failed
      exact ⟨right, computeValidity_fails failed⟩
    · rename_i result answered
      have answers := computeValidity_correct correct answered
      apply insert _ fun _ => answers
      intro _
      cases result with
      | isTrue => exact answers
      | isFalse => exact answers.2
      | unknown => exact trueOrFalse_holds answers.1 answers.2

theorem ask_spec {found : Option PartialValidity} (known : query.Possible → found.isSome = true →
      ∃ ρ, Hold ρ query.constraints ∧ query.expr.eval ρ 1 = 1#1) :
    Satisfies (fun _ => False)
      (fun outcome : Cache × Option Bool => CacheRight outcome.1 ∧
        Transparent solver (.truth query) (.truth <$> outcome.2))
      (match solver.computeTruth query with
        | none => pure (cache, none)
        | some isValid => do
          let cachedResult :=
            if isValid then .mustBeTrue
            else if found.isSome then .trueOrFalse
            else .mayBeFalse
          let cache ← cacheInsert o less fuel cache query cachedResult
          pure (cache, some isValid)) := by
  split
  · rename_i failed
    exact ⟨right, computeTruth_fails failed⟩
  · rename_i isValid answered
    have answers := computeTruth_correct correct answered
    apply (cacheInsert_spec negatable right _).bind
    · intro cache' right'
      exact ⟨right', fun _ => answers⟩
    · intro possible
      cases isValid with
      | true => exact answers.mp rfl
      | false =>
        have mayBeFalse := Query.not_valid_iff.mp fun valid =>
          Bool.false_ne_true (answers.mpr valid)
        cases hit : found.isSome with
        | true => exact ⟨known possible hit, mayBeFalse⟩
        | false => exact mayBeFalse

theorem computeTruth_spec :
    Satisfies (fun _ => False)
      (fun outcome => CacheRight outcome.1 ∧
        Transparent solver (.truth query) (.truth <$> outcome.2)) (computeTruth o less fuel solver cache query) := by
  apply (cacheLookup_spec negatable right).bind
  intro found holds
  have notValid (mayBeFalse : ∃ ρ, Hold ρ query.constraints ∧ query.expr.eval ρ 1 = 0#1) :
      (Request.truth query).Correct (.truth false) :=
    ⟨by simp, fun valid => absurd valid (Query.not_valid_iff.mpr mayBeFalse)⟩
  rcases found with _ | _ | _ | _ | _ | _
  · exact ask_spec correct negatable right (by simp)
  · exact ⟨right, fun possible => ⟨fun _ => holds _ rfl possible, fun _ => rfl⟩⟩
  · exact ⟨right, fun possible => ⟨by simp, fun valid =>
      absurd (holds _ rfl possible) (possible.not_both valid)⟩⟩
  · exact ask_spec correct negatable right fun possible _ => holds _ rfl possible
  · exact ⟨right, fun possible => notValid (holds _ rfl possible)⟩
  · exact ⟨right, fun possible => notValid (holds _ rfl possible).2⟩

end

theorem call_spec (correct : solver.Correct) (request : Request)
    (negatable : request.isCondition = true → Negatable o fuel request.query) (right : CacheRight cache) :
    Satisfies (fun _ => False) (fun outcome => CacheRight outcome.1 ∧ Transparent solver request outcome.2)
      (call o less fuel solver cache request) := by
  have passed {request : Request} : Transparent solver request (solver.answer request) := by
    cases answered : solver.answer request with
    | none => exact ⟨request, answered⟩
    | some answer => exact fun _ => correct request answer answered
  cases request with
  | validity query =>
    apply (computeValidity_spec correct (negatable rfl) right).bind
    intro outcome kept
    exact kept
  | truth query =>
    apply (computeTruth_spec correct (negatable rfl) right).bind
    intro outcome kept
    exact kept
  | value query => exact ⟨right, passed⟩
  | initialValues query objects => exact ⟨right, passed⟩

theorem calls_spec (requests : List (SolverImpl × Request)) (correct : ∀ call ∈ requests, call.1.Correct)
    (negatable : ∀ call ∈ requests, call.2.isCondition = true → Negatable o fuel call.2.query) (right : CacheRight cache) :
    Satisfies (fun _ => False) (List.Forall₂ (fun call => Transparent call.1 call.2) requests) (calls o less fuel cache requests) := by
  induction requests generalizing cache with
  | nil => exact .nil
  | cons first rest ih =>
    simp only [List.forall_mem_cons] at correct negatable
    apply (call_spec correct.1 first.2 negatable.1 right).bind
    intro outcome kept
    apply (ih correct.2 negatable.2 kept.1).bind
    intro answers transparent
    exact .cons kept.2 transparent

/-- With enough fuel all of the negations that the calls need are created. -/
theorem exists_negatable (requests : List (SolverImpl × Request))
    (askable : ∀ call ∈ requests, call.2.isCondition = true → call.2.query.Askable o) :
    ∃ bound, ∀ fuel, bound ≤ fuel → ∀ call ∈ requests, call.2.isCondition = true → Negatable o fuel call.2.query := by
  induction requests with
  | nil => exact ⟨0, nofun⟩
  | cons first rest ih =>
    simp only [List.forall_mem_cons] at askable ⊢
    obtain ⟨later, enoughLater⟩ := ih askable.2
    have now : ∃ bound, ∀ fuel, bound ≤ fuel → first.2.isCondition = true → Negatable o fuel first.2.query := by
      cases condition : first.2.isCondition with
      | false => exact ⟨0, nofun⟩
      | true =>
        obtain ⟨bound, enough⟩ := (askable.1 condition).negatable
        exact ⟨bound, fun fuel large _ => enough fuel large⟩
    obtain ⟨bound, enough⟩ := now
    exact ⟨max bound later, fun fuel large =>
      ⟨enough fuel (by omega), enoughLater fuel (by omega)⟩⟩

end CachingSolver

/-- Whatever has been asked before, an answer about possible constraints is the right one
for its query, and there is one unless the solver below fails. -/
theorem cachingSolver_transparent (o : Options) (less : Expr → Expr → Bool)
    (requests : List (SolverImpl × Request)) (correct : ∀ call ∈ requests, call.1.Correct)
    (askable : ∀ call ∈ requests, call.2.isCondition = true → call.2.query.Askable o) :
    ∃ bound, ∀ fuel, bound ≤ fuel → ∃ answers,
      CachingSolver.calls o less fuel ∅ requests = .ok answers ∧
      List.Forall₂ (fun call => CachingSolver.Transparent call.1 call.2) requests answers := by
  obtain ⟨bound, negatable⟩ := CachingSolver.exists_negatable requests askable
  refine ⟨bound, fun fuel enough => ?_⟩
  exact (CachingSolver.calls_spec requests correct (negatable fuel enough)
    CachingSolver.cacheRight_empty).exists_ok

section Example

open Symbolic.ConstraintManager (sampleByte sampleArray sampleCondition sampleCondition_wellFormed)

def noOptions : Options := ⟨false, true⟩

theorem sampleCondition_askable (constraints : List Expr) : Query.Askable noOptions ⟨constraints, sampleCondition⟩ where
  boolean := rfl
  wellFormed := ⟨⟨fun _ _ => True, fun _ => True⟩, sampleCondition_wellFormed⟩
  sensible _ _ := sampleCondition_wellFormed

noncomputable def repeatedCalls (constraints : List Expr) : List (SolverImpl × Request) :=
  [(oracle, .validity ⟨constraints, sampleCondition⟩),
    (oracle, .truth ⟨constraints, sampleCondition⟩)]

theorem cachingSolver_transparent_sample :
    ∃ fuel answers, CachingSolver.calls noOptions (fun _ _ => true) fuel ∅ (repeatedCalls []) =
        .ok answers ∧
      List.Forall₂ (fun call => CachingSolver.Transparent call.1 call.2) (repeatedCalls []) answers := by
  obtain ⟨bound, enough⟩ := cachingSolver_transparent noOptions (fun _ _ => true) (repeatedCalls [])
    (by simp [repeatedCalls, oracle_correct])
    (by simp [repeatedCalls, Request.query, sampleCondition_askable])
  exact ⟨bound, enough bound (Nat.le_refl bound)⟩

def sampleNegation : Expr := .cmp .eq (.constant (.alloc 0 1)) sampleCondition

theorem sampleNegation_wellFormed {guards : Guards} : sampleNegation.WellFormed guards :=
  ⟨trivial, sampleCondition_wellFormed, rfl⟩

def contradictory : List Expr := [sampleCondition, sampleNegation]

theorem not_hold_contradictory (ρ : Assignment) : ¬ Hold ρ contradictory := by
  intro hold
  have isTrue := hold sampleCondition (by simp [contradictory])
  have isFalse := hold sampleNegation (by simp [contradictory])
  change (BitVec.ofBool (_ == sampleCondition.eval ρ 1)).setWidth 1 = 1#1 at isFalse
  rw [isTrue] at isFalse
  exact absurd isFalse (by simp)

noncomputable def contradictoryCalls : List (SolverImpl × Request) :=
  [(oracle, .validity ⟨contradictory, sampleCondition⟩),
    (oracle, .truth ⟨contradictory, sampleNegation⟩)]

theorem contradictoryCalls_askable : ∀ call ∈ contradictoryCalls, call.2.isCondition = true → call.2.query.Askable noOptions := by
  simp only [contradictoryCalls, List.forall_mem_cons]
  refine ⟨fun _ => sampleCondition_askable _, fun _ => ?_, nofun⟩
  exact ⟨rfl, ⟨⟨fun _ _ => True, fun _ => True⟩, sampleNegation_wellFormed⟩, fun _ _ => sampleNegation_wellFormed⟩

theorem contradictoryCalls_answers :
    CachingSolver.calls noOptions (fun e _ => e = sampleCondition) 3 ∅ contradictoryCalls =
      .ok [some (.validity .isTrue), some (.truth false)] := by
  let less : Expr → Expr → Bool := fun e _ => e = sampleCondition
  let cache : CachingSolver.Cache := AList.insert ⟨contradictory, sampleCondition⟩ .mustBeTrue ∅
  have isTrue : oracle.computeValidity ⟨contradictory, sampleCondition⟩ = some .isTrue :=
    (oracle_valid fun ρ hold => absurd hold (not_hold_contradictory ρ)).1
  have first : CachingSolver.computeValidity noOptions less 3 oracle ∅ ⟨contradictory, sampleCondition⟩ = .ok (cache, some .isTrue) := by
    have missed : CachingSolver.cacheLookup noOptions less 3 ∅ ⟨contradictory, sampleCondition⟩ =
        .ok none := by rfl
    simp only [CachingSolver.computeValidity, missed, ok_bind, isTrue]
    rfl
  rw [contradictoryCalls, CachingSolver.calls, CachingSolver.call, first]
  -- the second answer is found in the cache
  rfl

/-- Both the condition and its negation follow from contradictory constraints, but the
cache takes one to be false once it has seen that the other is true. -/
theorem cachingSolver_negates_contradictory :
    ¬ ∀ (o : Options) (less : Expr → Expr → Bool) (requests : List (SolverImpl × Request)),
      (∀ call ∈ requests, call.1.Correct) →
      (∀ call ∈ requests, call.2.isCondition = true → call.2.query.Askable o) →
      ∀ fuel answers, CachingSolver.calls o less fuel ∅ requests = .ok answers →
        List.Forall₂ (fun call answer => ∀ a, answer = some a → call.2.Correct a)
          requests answers := by
  intro transparent
  have right := transparent _ _ contradictoryCalls (by simp [contradictoryCalls, oracle_correct])
    contradictoryCalls_askable _ _ contradictoryCalls_answers
  cases right with
  | cons _ rest =>
    cases rest with
    | cons second _ =>
      exact Bool.false_ne_true ((second _ rfl).mpr fun ρ hold =>
        absurd hold (not_hold_contradictory ρ))

end Example

end NeuroMerge.Solver
