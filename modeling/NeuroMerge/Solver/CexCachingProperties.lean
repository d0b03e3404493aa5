import Mathlib.SetTheory.Cardinal.Order
import NeuroMerge.Solver.CachingProperties
import NeuroMerge.Solver.Bindings

/-!
# The counterexample caching solver answers rightly

Whatever is cached for a set is true of it: the assignment satisfies every expression in
the set, or none does. This carries over to the smaller and to the larger sets for which
the cache is consulted.
-/

namespace NeuroMerge.Solver

open Symbolic
open Symbolic.ConstraintManager (Hold)
open Execution (Validity)

variable {o : Options} {fuel : Nat} {ρ : Assignment} {e neg : Expr}

variable {a : Bindings} {result : Option Bindings}

namespace CexCachingSolver

section Sets

variable {key found : Finset Expr}

def HoldsAll (ρ : Assignment) (key : Finset Expr) : Prop := ∀ c ∈ key, c.eval ρ 1 = 1#1

def Describes (key : Finset Expr) : Option Bindings → Prop
  | none => ∀ ρ, ¬ HoldsAll ρ key
  | some a => Sized a ∧ HoldsAll (zeroed a).toAssignment key

def Evaluated (o : Options) (key : Finset Expr) : Prop := ∀ c ∈ key, c.Evaluable o ∧ c.width = 1

theorem Describes.unsatisfiable (describes : Describes found none) (subset : found ⊆ key) : Describes key none :=
  fun ρ holds => describes ρ fun c member => holds c (subset member)

theorem Describes.satisfiable (describes : Describes found (some a)) (subset : key ⊆ found) : Describes key (some a) :=
  ⟨describes.1, fun c member => describes.2 c (subset member)⟩

end Sets

section Queries

variable {key : Finset Expr} {query : Query}

def Decides (query : Query) : Option Bindings → Prop
  | none => query.Valid
  | some a => Sized a ∧ Hold (zeroed a).toAssignment query.constraints ∧
      query.expr.eval (zeroed a).toAssignment 1 = 0#1

structure KeyOf (o : Options) (query : Query) (key : Finset Expr) : Prop where
  evaluated : Evaluated o key
  holds : ∀ ρ, HoldsAll ρ key ↔ Hold ρ query.constraints ∧ query.expr.eval ρ 1 = 0#1
  defined : QueryDefined o query → ∀ ρ, HoldsAll ρ key → ∀ c ∈ key,
    c.plain = true ∧ c.WellFormed (.safe o ρ)

theorem Describes.decides (describes : Describes key result) (isKey : KeyOf o query key) : Decides query result := by
  cases result with
  | none =>
    intro ρ hold
    rw [← BitVector.ne_zero_iff_eq_one]
    exact fun isFalse => describes ρ ((isKey.holds ρ).mpr ⟨hold, isFalse⟩)
  | some a => exact ⟨describes.1, (isKey.holds _).mp describes.2⟩

theorem keyOf_constraints (evaluated : QueryEvaluated o query)
    (always : ∀ ρ, query.expr.eval ρ 1 = 0#1) : KeyOf o query query.constraints.toFinset where
  evaluated c member := evaluated.constraints c (List.mem_toFinset.mp member)
  holds ρ := by
    simp only [HoldsAll, List.mem_toFinset]
    exact (and_iff_left (always ρ)).symm
  defined defined ρ holds c member := by
    simp only [HoldsAll, List.mem_toFinset] at holds member
    have facts := defined c (.tail _ member)
    exact ⟨facts.1, facts.2 ρ holds⟩

theorem keyOf_insert (evaluated : QueryEvaluated o query) (negated : createIsZero o fuel query.expr = .ok neg) :
    KeyOf o query (insert neg query.constraints.toFinset) := by
  have holds (ρ : Assignment) : HoldsAll ρ (insert neg query.constraints.toFinset) ↔
      Hold ρ query.constraints ∧ query.expr.eval ρ 1 = 0#1 := by
    simp only [HoldsAll, Finset.forall_mem_insert, List.mem_toFinset, negated_eq_one_iff evaluated negated ρ]
    exact and_comm
  constructor
  · intro c member
    obtain rfl | old := Finset.mem_insert.mp member
    · exact ⟨evaluated.expr.negated evaluated.boolean negated, (evaluated.expr.negated_eval evaluated.boolean negated fun _ _ => 0).width⟩
    · exact evaluated.constraints c (List.mem_toFinset.mp old)
  · exact holds
  · intro defined ρ holdsAll c member
    have hold := ((holds ρ).mp holdsAll).1
    obtain rfl | old := Finset.mem_insert.mp member
    · have facts := defined query.expr (.head _)
      exact ⟨(createIsZero_plain facts.1).elim negated, Expr.Evaluable.negated_safe evaluated.boolean negated (facts.2 ρ hold)⟩
    · have facts := defined c (.tail _ (List.mem_toFinset.mp old))
      exact ⟨facts.1, facts.2 ρ hold⟩

theorem evaluated_withFalse (evaluated : ∀ c ∈ query.constraints, c.Evaluable o ∧ c.width = 1) : QueryEvaluated o query.withFalse :=
  ⟨evaluated, .constant _, rfl⟩

theorem defined_withFalse (defined : QueryDefined o query) : QueryDefined o query.withFalse := by
  intro c member
  obtain _ | ⟨_, old⟩ := member
  · exact ⟨rfl, fun _ _ => trivial⟩
  · exact defined c (.tail _ old)

theorem evaluated_negated (evaluated : QueryEvaluated o query) (negated : createIsZero o fuel query.expr = .ok neg) :
    QueryEvaluated o { query with expr := neg } where
  constraints := evaluated.constraints
  expr := evaluated.expr.negated evaluated.boolean negated
  boolean := (evaluated.expr.negated_eval evaluated.boolean negated fun _ _ => 0).width

theorem defined_negated (boolean : query.expr.width = 1)
    (negated : createIsZero o fuel query.expr = .ok neg) (defined : QueryDefined o query) :
    QueryDefined o { query with expr := neg } := by
  intro c member
  obtain _ | ⟨_, old⟩ := member
  · have facts := defined query.expr (.head _)
    exact ⟨(createIsZero_plain facts.1).elim negated, fun ρ hold =>
      Expr.Evaluable.negated_safe boolean negated (facts.2 ρ hold)⟩
  · exact defined c (.tail _ old)

theorem opposite_negated (evaluated : QueryEvaluated o query) (negated : createIsZero o fuel query.expr = .ok neg) :
    Opposite query.constraints query.expr neg :=
  fun ρ _ => (evaluated.expr.negated_eval evaluated.boolean negated ρ).value

theorem negateExpr_satisfies (evaluated : QueryEvaluated o query) :
    Satisfies (· = .outOfFuel)
      (fun negated => QueryEvaluated o negated ∧ (QueryDefined o query → QueryDefined o negated) ∧
        (negated.Valid ↔ query.Refuted)) (query.negateExpr o fuel) := by
  apply Satisfies.bind (createIsZero_satisfies evaluated)
  intro neg negated
  exact ⟨evaluated_negated evaluated negated, defined_negated evaluated.boolean negated,
    negateExpr_valid (opposite_negated evaluated negated)⟩

theorem evaluate_spec (evaluable : e.Evaluable o) (isPlain : e.plain = true) (safe : e.WellFormed (.safe o (zeroed a).toAssignment)) :
    Satisfies (· = .outOfFuel) (· = ⟨e.width, e.eval (zeroed a).toAssignment e.width⟩) (evaluate o fuel a e) := by
  apply Satisfies.bind (PartialAssignment.evaluate_constant evaluable
    (PartialAssignment.extends_toAssignment (zeroed a)) ⟨safe, isPlain, nofun⟩)
  intro value same
  subst same
  rfl

theorem negateExpr_ends (query : Query) : Ends fun fuel => query.negateExpr o fuel :=
  (createIsZero_ends query.expr).bind fun _ _ => .pure _

theorem evaluate_ends (a : Bindings) (e : Expr) : Ends fun fuel => evaluate o fuel a e := by
  apply (ExprEvaluator.visit_ends e).bind
  intro value _
  cases value.constant? with
  | none => exact .error _ nofun
  | some ce => exact .pure ce

end Queries

variable [LinearOrder Expr] {options : CexCacheOptions} {before : Bindings → Bindings → Bool}
  {solver : SolverImpl} {s : State} {key found : Finset Expr} {query : Query}

section Search

structure State.Right (s : State) : Prop where
  cache : ∀ key result, s.cache.lookup key = some result → Describes key result
  table : ∀ a ∈ s.assignmentsTable, Sized a

theorem initial_right : State.initial.Right where
  cache key result found := by
    rw [State.initial, MapOfSets.lookup_empty] at found
    cases found
  table := nofun

theorem satisfies_spec (evaluated : Evaluated o key) (a : Bindings) :
    Satisfies (· = .outOfFuel)
      (fun verdict => (verdict = true → HoldsAll (zeroed a).toAssignment key) ∧
        ((∀ c ∈ key, (zeroed a).Defines o (zeroed a).toAssignment c ∧
          c.eval (zeroed a).toAssignment 1 = 1#1) → verdict = true)) (satisfies o fuel a key) := by
  have members (c : Expr) : c ∈ key.sort (· ≤ ·) ↔ c ∈ key := Finset.mem_sort _
  have spec : Satisfies _ _ (PartialAssignment.satisfies o fuel (zeroed a) (key.sort (· ≤ ·))) :=
    PartialAssignment.satisfies_spec (PartialAssignment.extends_toAssignment (zeroed a)) _
      fun c member => evaluated c ((members c).mp member)
  simp only [members] at spec
  exact spec

section

variable (evaluated : Evaluated o key) (table : List Bindings) (sized : ∀ a ∈ table, Sized a)
include evaluated table sized

theorem firstSatisfying_spec :
    Satisfies (· = .outOfFuel) (fun result => ∀ a, result = some a → Describes key (some a)) (firstSatisfying o fuel key table) := by
  induction table with
  | nil => exact nofun
  | cons a rest ih =>
    rw [List.forall_mem_cons] at sized
    apply Satisfies.bind (satisfies_spec evaluated a)
    intro verdict right
    split
    · rename_i positive
      intro a' same
      cases same
      exact ⟨sized.1, right.1 positive⟩
    · exact ih sized.2

theorem allSatisfying_spec :
    Satisfies (· = .outOfFuel) (fun result => ∀ a ∈ result, Describes key (some a)) (allSatisfying o fuel key table) := by
  induction table with
  | nil => exact nofun
  | cons a rest ih =>
    rw [List.forall_mem_cons] at sized
    apply Satisfies.bind (satisfies_spec evaluated a)
    intro verdict right
    apply Satisfies.bind (ih sized.2)
    intro others describe
    rw [Satisfies.pure_iff]
    split
    · rename_i positive
      rw [List.forall_mem_cons]
      exact ⟨⟨sized.1, right.1 positive⟩, describe⟩
    · exact describe

end

theorem superset_describes (right : s.Right)
    (hit : (if options.superSet then s.cache.findSuperset key Option.isSome else none) = some result) : Describes key result := by
  split at hit
  · obtain ⟨found, subset, cached, isSome⟩ := (s.cache.findSuperset_spec key _).1 result hit
    obtain ⟨a, rfl⟩ := Option.isSome_iff_exists.mp isSome
    exact (right.cache found _ cached).satisfiable subset
  · cases hit

theorem subset_describes (right : s.Right) (hit : s.cache.findSubset key Option.isNone = some result) : Describes key result := by
  obtain ⟨found, subset, cached, isNone⟩ := (s.cache.findSubset_spec key _).1 result hit
  obtain rfl := Option.isNone_iff_eq_none.mp isNone
  exact (right.cache found _ cached).unsatisfiable subset

theorem searchForAssignment_spec (right : s.Right) (evaluated : Evaluated o key) :
    Satisfies (· = .outOfFuel) (fun hit => ∀ result, hit = some result → Describes key result)
      (searchForAssignment o options fuel s key) := by
  rw [searchForAssignment]
  split
  · rename_i result cached
    intro result' same
    cases same
    exact right.cache key result cached
  · dsimp only
    generalize superset : (if options.superSet then s.cache.findSuperset key Option.isSome
      else none) = hit
    have describes (result) (same : hit = some result) : Describes key result := superset_describes right (superset.trans same)
    split
    · split
      · rename_i result either
        intro result' same
        cases same
        cases hit with
        | some result' =>
          cases either
          exact describes result rfl
        | none => exact subset_describes right either
      · apply Satisfies.bind (firstSatisfying_spec evaluated s.assignmentsTable right.table)
        intro first describesFirst result same
        cases first with
        | none => cases same
        | some a =>
          cases same
          exact describesFirst a rfl
    · split
      · rename_i result
        intro result' same
        cases same
        exact describes result rfl
      · apply Satisfies.bind (allSatisfying_spec evaluated s.assignmentsTable right.table)
        intro satisfying describe result hit
        obtain ⟨found, subset, cached, chosen⟩ := (s.cache.findSubset_spec key _).1 result hit
        cases result with
        | none => exact (right.cache found _ cached).unsatisfiable subset
        | some a => exact describe a (by simpa [nullOrSatisfying] using chosen)

end Search

section Lookup

theorem lookupAssignment_spec (right : s.Right) (evaluated : QueryEvaluated o query) :
    Satisfies (· = .outOfFuel)
      (fun outcome => (∀ result, outcome.2 = some result → Decides query result) ∧
        (outcome.2 = none → KeyOf o query outcome.1)) (lookupAssignment o options fuel s query) := by
  have search {key : Finset Expr} (isKey : KeyOf o query key) : Satisfies (· = .outOfFuel)
      (fun outcome => (∀ result, outcome.2 = some result → Decides query result) ∧ (outcome.2 = none → KeyOf o query outcome.1))
      (do let found ← searchForAssignment o options fuel s key
          pure (key, found)) := by
    apply Satisfies.bind (searchForAssignment_spec right isKey.evaluated)
    intro found describe
    exact ⟨fun result same => (describe result same).decides isKey, fun _ => isKey⟩
  rw [lookupAssignment]
  apply Satisfies.bind (createIsZero_satisfies evaluated)
  intro neg negated
  have denotes (ρ : Assignment) := evaluated.expr.negated_eval evaluated.boolean negated ρ
  split
  · rename_i ce found
    rw [Expr.constant?_eq_some] at found
    subst found
    split
    · rename_i isFalse
      refine ⟨fun result same => ?_, nofun⟩
      cases same
      intro ρ _
      have zero := (denotes ρ).of_constant
      subst zero
      rw [← BitVector.ne_zero_iff_eq_one]
      intro isZero
      simp [ConstantExpr.isFalse, isZero] at isFalse
    · rename_i notFalse
      apply search
      apply keyOf_constraints evaluated
      intro ρ
      have one := (denotes ρ).of_constant
      subst one
      rw [← BitVector.ne_one_iff_eq_zero]
      intro isOne
      simp [ConstantExpr.isFalse, isOne] at notFalse
  · exact search (keyOf_insert evaluated negated)

end Lookup

section Answers

theorem right_insert (right : s.Right) (describes : Describes key result) {table : List Bindings}
    (sized : ∀ a ∈ table, Sized a) (asked : List (Query × List Symbolic.Array)) :
    State.Right ⟨s.cache.insert key result, table, asked⟩ where
  cache key' result' cached := by
    obtain rfl | other := eq_or_ne key' key
    · rw [MapOfSets.lookup_insert_self] at cached
      cases cached
      exact describes
    · rw [MapOfSets.lookup_insert_of_ne _ _ other] at cached
      exact right.cache key' result' cached
  table := sized

theorem memoize_spec (right : s.Right) (isKey : KeyOf o query key)
    (checkable : options.debugCheckBinding = true → QueryDefined o query) (describes : Describes key (some a)) :
    Satisfies (· = .outOfFuel) (fun s' => s'.Right ∧ s'.asked = s.asked) (memoize o options before fuel s key a) := by
  have sized : ∀ b ∈ (if a ∈ s.assignmentsTable then s.assignmentsTable
      else s.assignmentsTable.orderedInsert (fun a b => before a b) a), Sized b := by
    intro b member
    split at member
    · exact right.table b member
    · obtain rfl | old := (List.mem_orderedInsert _).mp member
      · exact describes.1
      · exact right.table b old
  have passes : Satisfies (· = .outOfFuel) (· = true) (checkBinding o options fuel key a) := by
    rw [checkBinding]
    split
    · rename_i checks
      apply (satisfies_spec isKey.evaluated a).mono
      intro verdict spec
      apply spec.2
      intro c member
      have facts := isKey.defined (checkable checks) _ describes.2 c member
      exact ⟨⟨facts.2, facts.1, nofun⟩, describes.2 c member⟩
    · rfl
  apply Satisfies.bind passes
  intro matched isTrue
  apply require_satisfies (fun _ => ?_) fun fails => absurd isTrue fails
  exact ⟨right_insert right describes sized _, rfl⟩

def Failed (solver : SolverImpl) (asked : List (Query × List Symbolic.Array)) : Prop :=
  ∃ question ∈ asked, solver.computeInitialValues question.1 question.2 = none

/-- What is known after an assignment has been asked for. -/
def Assigned (solver : SolverImpl) (query : Query) (outcome : State × Option (Option Bindings)) :
    Prop :=
  outcome.1.Right ∧
    match outcome.2 with
    | some result => Decides query result
    | none => Failed solver outcome.1.asked

theorem getAssignment_spec (correct : solver.Correct) (right : s.Right) (evaluated : QueryEvaluated o query)
    (checkable : options.debugCheckBinding = true → QueryDefined o query) :
    Satisfies (· = .outOfFuel) (Assigned solver query) (getAssignment o options before fuel solver s query) := by
  apply Satisfies.bind (lookupAssignment_spec right evaluated)
  intro ⟨key, found⟩ facts
  obtain ⟨decides, missed⟩ := facts
  dsimp only
  split
  · rename_i result
    exact ⟨right, decides result rfl⟩
  · have isKey : KeyOf o query key := missed rfl
    generalize listed : findSymbolicObjects (key.sort (· ≤ ·)) = objects
    split
    · rename_i failed
      exact ⟨⟨right.cache, right.table⟩, (query, objects), by simp, failed⟩
    · rename_i answered
      have valid : query.Valid := correct (.initialValues query objects) (.initialValues none) (by rw [SolverImpl.answer, answered]; rfl)
      refine ⟨right_insert right ?_ right.table _, valid⟩
      intro ρ holds
      obtain ⟨hold, isFalse⟩ := (isKey.holds ρ).mp holds
      have both := (valid ρ hold).symm.trans isFalse
      contradiction
    · rename_i values answered
      obtain ⟨ρ, hold, isFalse, padded, reads⟩ :=
        correct (.initialValues query objects) (.initialValues (some values)) (by rw [SolverImpl.answer, answered]; rfl)
      have describes : Describes key (some (.ofValues objects values)) := by
        refine ⟨sized_ofValues reads, fun c member => ?_⟩
        have all (array) (inExpr : array ∈ symbolicObjects c) : array ∈ objects := by
          rw [← listed, mem_findSymbolicObjects]
          obtain ⟨symbolic, isRead⟩ := (mem_symbolicObjects c).mp inExpr
          exact ⟨symbolic, c, (Finset.mem_sort _).mpr member, isRead⟩
        rw [← eval_ofValues reads padded all]
        exact (isKey.holds ρ).mpr ⟨hold, isFalse⟩ c member
      have right' : State.Right { s with asked := s.asked ++ [(query, objects)] } :=
        ⟨right.cache, right.table⟩
      apply Satisfies.bind (memoize_spec right' isKey checkable describes)
      intro s' kept
      exact ⟨kept.1, describes.decides isKey⟩

theorem mustHaveAssignment_spec (correct : solver.Correct) (right : s.Right)
    (evaluated : ∀ c ∈ query.constraints, c.Evaluable o ∧ c.width = 1) (defined : QueryDefined o query) (possible : query.Possible) :
    Satisfies (· = .outOfFuel)
      (fun outcome => outcome.1.Right ∧
        match outcome.2 with
        | some a => Sized a ∧ Hold (zeroed a).toAssignment query.constraints
        | none => Failed solver outcome.1.asked)
      (mustHaveAssignment o options before fuel solver s query) := by
  apply Satisfies.bind (getAssignment_spec correct right (evaluated_withFalse evaluated) fun _ => defined_withFalse defined)
  intro ⟨s', result⟩ assigned
  obtain ⟨right', holds⟩ := assigned
  cases result with
  | none => exact ⟨right', holds⟩
  | some result =>
    cases result with
    | none =>
      obtain ⟨ρ, hold⟩ := possible
      have contradictory : (Query.withFalse query).expr.eval ρ 1 = 1#1 := holds ρ hold
      exact absurd contradictory (by simp [Query.withFalse, ConstantExpr.alloc])
    | some a => exact ⟨right', holds.1, holds.2.1⟩

end Answers

section Calls

variable {request : Request}

/-- The caller asks for well-formed expressions. What is asserted to be evaluated to a
constant has a value, and what must have an assignment is possible. -/
structure Answerable (o : Options) (options : CexCacheOptions) (request : Request) : Prop where
  constraints : ∀ c ∈ request.query.constraints, c.Evaluable o ∧ c.width = 1
  expr : request.query.expr.Evaluable o
  boolean : (∀ query, request ≠ .value query) → request.query.expr.width = 1
  defined : request.needsAssignment = true ∨ options.debugCheckBinding = true →
    QueryDefined o request.query
  possible : request.needsAssignment = true → request.query.Possible

/-- The answer is right, or the solver below has failed for something it was asked. -/
def Met (solver : SolverImpl) (request : Request) (asked : List (Query × List Symbolic.Array)) :
    Option Answer → Prop
  | some answer => request.Correct answer
  | none => Failed solver asked

/-- It is known that the negated query of this call is valid. -/
def Shortcut (o : Options) (options : CexCacheOptions) (fuel : Nat) (s : State) (request : Request) :
    Prop :=
  options.experimental = true ∧ ∃ query negated key, request = .truth query ∧
    query.negateExpr o fuel = .ok negated ∧
    lookupAssignment o options fuel s negated = .ok (key, some none)

theorem knownRefuted_spec (right : s.Right) (evaluated : QueryEvaluated o query) :
    Satisfies (· = .outOfFuel) (fun refuted => refuted = true ↔ Shortcut o options fuel s (.truth query))
      (knownRefuted o options fuel s query) := by
  rw [knownRefuted]
  split
  · rename_i enabled
    have negates : Satisfies _ _ (query.negateExpr o fuel) := negateExpr_satisfies evaluated
    cases negation : query.negateExpr o fuel with
    | error fault => exact negates.fault negation
    | ok negated =>
      obtain ⟨evaluatedNegated, -, -⟩ := negates.elim negation
      have looks : Satisfies _ _ (lookupAssignment o options fuel s negated) := lookupAssignment_spec right evaluatedNegated
      have returned : Satisfies (· = .outOfFuel) (fun outcome => lookupAssignment o options fuel s negated = .ok outcome)
          (lookupAssignment o options fuel s negated) :=
        .of_forall (fun _ => id) fun _ => looks.fault
      apply Satisfies.bind returned
      intro ⟨key, found⟩ looked
      rw [Satisfies.pure_iff, decide_eq_true_iff]
      constructor
      · intro nothing
        subst nothing
        exact ⟨enabled, query, negated, key, rfl, negation, looked⟩
      · intro ⟨_, query', negated', key', same, negation', looked'⟩
        cases same
        cases negation.symm.trans negation'
        cases looked.symm.trans looked'
        rfl
  · rename_i disabled
    exact iff_of_false nofun fun shortcut => disabled shortcut.1

section

variable (correct : solver.Correct) (right : s.Right)
include correct right

theorem computeValidity_spec (answerable : Answerable o options (.validity query)) :
    Satisfies (· = .outOfFuel)
      (fun outcome => outcome.1.Right ∧
        Met solver (.validity query) outcome.1.asked (.validity <$> outcome.2))
      (computeValidity o options before fuel solver s query) := by
  have boolean : query.expr.width = 1 := answerable.boolean nofun
  have evaluated : QueryEvaluated o query := ⟨answerable.constraints, answerable.expr, boolean⟩
  have defined : QueryDefined o query := answerable.defined (.inl rfl)
  apply Satisfies.bind (mustHaveAssignment_spec correct right answerable.constraints defined (answerable.possible rfl))
  intro ⟨s', a⟩ assigned
  obtain ⟨right', holds⟩ := assigned
  cases a with
  | none => exact ⟨right', holds⟩
  | some a =>
    obtain ⟨sized, hold⟩ := holds
    have facts := defined query.expr (.head _)
    apply Satisfies.bind (evaluate_spec evaluated.expr facts.1 (facts.2 _ hold))
    intro q same
    rw [boolean] at same
    subst same
    split
    · rename_i isTrue
      rw [ConstantExpr.isTrue_iff] at isTrue
      have notRefuted : ¬ query.Refuted := Query.not_refuted_iff.mpr ⟨_, hold, isTrue⟩
      apply Satisfies.bind (getAssignment_spec correct right' evaluated fun _ => defined)
      intro ⟨s'', result⟩ assigned
      obtain ⟨right'', decides⟩ := assigned
      cases result with
      | none => exact ⟨right'', decides⟩
      | some result =>
        cases result with
        | none => exact ⟨right'', decides⟩
        | some a' => exact ⟨right'', Query.not_valid_iff.mpr ⟨_, decides.2⟩, notRefuted⟩
    · rename_i notTrue
      rw [ConstantExpr.isTrue_iff, BitVector.ne_one_iff_eq_zero] at notTrue
      have notValid : ¬ query.Valid := Query.not_valid_iff.mpr ⟨_, hold, notTrue⟩
      apply Satisfies.bind (negateExpr_satisfies evaluated)
      intro negated isNegated
      obtain ⟨evaluatedNegated, definedNegated, valid⟩ := isNegated
      apply Satisfies.bind (getAssignment_spec correct right' evaluatedNegated fun _ => definedNegated defined)
      intro ⟨s'', result⟩ assigned
      obtain ⟨right'', decides⟩ := assigned
      cases result with
      | none => exact ⟨right'', decides⟩
      | some result =>
        cases result with
        | none => exact ⟨right'', notValid, valid.mp decides⟩
        | some a' =>
          refine ⟨right'', notValid, fun refuted => ?_⟩
          exact Query.not_valid_iff.mpr ⟨_, decides.2⟩ (valid.mpr refuted)

theorem computeTruth_spec (fresh : s.asked = []) (answerable : Answerable o options (.truth query)) :
    Satisfies (· = .outOfFuel)
      (fun outcome => outcome.1.Right ∧
        (Met solver (.truth query) outcome.1.asked (.truth <$> outcome.2) ↔
          ¬ Shortcut o options fuel s (.truth query))) (computeTruth o options before fuel solver s query) := by
  have boolean : query.expr.width = 1 := answerable.boolean nofun
  have evaluated : QueryEvaluated o query := ⟨answerable.constraints, answerable.expr, boolean⟩
  have defined (checks : options.debugCheckBinding = true) : QueryDefined o query := answerable.defined (.inr checks)
  apply Satisfies.bind (knownRefuted_spec right evaluated)
  intro refuted known
  split
  · rename_i isKnown
    refine ⟨right, ?_⟩
    change Failed solver s.asked ↔ _
    rw [← known, Failed, fresh]
    simpa using isKnown
  · rename_i unknown
    rw [← known]
    apply Satisfies.bind (getAssignment_spec correct right evaluated defined)
    intro ⟨s', result⟩ assigned
    obtain ⟨right', decides⟩ := assigned
    refine ⟨right', iff_of_true ?_ unknown⟩
    cases result with
    | none => exact decides
    | some result =>
      cases result with
      | none => exact iff_of_true rfl decides
      | some a => exact iff_of_false nofun (Query.not_valid_iff.mpr ⟨_, decides.2⟩)

theorem computeValue_spec (answerable : Answerable o options (.value query)) :
    Satisfies (· = .outOfFuel)
      (fun outcome => outcome.1.Right ∧
        Met solver (.value query) outcome.1.asked (.value <$> outcome.2)) (computeValue o options before fuel solver s query) := by
  have defined : QueryDefined o query := answerable.defined (.inl rfl)
  apply Satisfies.bind (mustHaveAssignment_spec correct right answerable.constraints defined (answerable.possible rfl))
  intro ⟨s', a⟩ assigned
  obtain ⟨right', holds⟩ := assigned
  cases a with
  | none => exact ⟨right', holds⟩
  | some a =>
    obtain ⟨sized, hold⟩ := holds
    have facts := defined query.expr (.head _)
    apply Satisfies.bind (evaluate_spec answerable.expr facts.1 (facts.2 _ hold))
    intro result same
    subst same
    exact ⟨right', fun _ => ⟨_, hold, rfl⟩⟩

theorem computeInitialValues_spec {objects : List Symbolic.Array} (answerable : Answerable o options (.initialValues query objects)) :
    Satisfies (· = .outOfFuel)
      (fun outcome => outcome.1.Right ∧
        Met solver (.initialValues query objects) outcome.1.asked (.initialValues <$> outcome.2))
      (computeInitialValues o options before fuel solver s query objects) := by
  have boolean : query.expr.width = 1 := answerable.boolean nofun
  have evaluated : QueryEvaluated o query := ⟨answerable.constraints, answerable.expr, boolean⟩
  apply Satisfies.bind (getAssignment_spec correct right evaluated fun checks => answerable.defined (.inr checks))
  intro ⟨s', result⟩ assigned
  obtain ⟨right', decides⟩ := assigned
  cases result with
  | none => exact ⟨right', decides⟩
  | some result =>
    cases result with
    | none => exact ⟨right', decides⟩
    | some a =>
      obtain ⟨sized, hold, isFalse⟩ := decides
      exact ⟨right', _, hold, isFalse, padded_of_sized sized, reads_valuesOf sized objects⟩

/-- A call is transparent if and only if it does not take the shortcut. -/
theorem call_spec (fresh : s.asked = []) (answerable : Answerable o options request) :
    Satisfies (· = .outOfFuel)
      (fun outcome => outcome.1.Right ∧
        (Met solver request outcome.1.asked outcome.2 ↔ ¬ Shortcut o options fuel s request))
      (call o options before fuel solver s request) := by
  cases request with
  | validity query =>
    apply Satisfies.bind (computeValidity_spec correct right answerable)
    intro outcome facts
    exact ⟨facts.1, iff_of_true facts.2 nofun⟩
  | truth query =>
    apply Satisfies.bind (computeTruth_spec correct right fresh answerable)
    intro outcome facts
    exact facts
  | value query =>
    apply Satisfies.bind (computeValue_spec correct right answerable)
    intro outcome facts
    exact ⟨facts.1, iff_of_true facts.2 nofun⟩
  | initialValues query objects =>
    apply Satisfies.bind (computeInitialValues_spec correct right answerable)
    intro outcome facts
    exact ⟨facts.1, iff_of_true facts.2 nofun⟩

end

theorem calls_spec (requests : List (SolverImpl × Request)) (correct : ∀ call ∈ requests, call.1.Correct)
    (answerable : ∀ call ∈ requests, Answerable o options call.2) (right : s.Right) :
    Satisfies (· = .outOfFuel)
      (List.Forall₂ (fun call step => Met call.1 call.2 step.asked step.answer ↔
        ¬ Shortcut o options fuel step.state call.2) requests) (calls o options before fuel s requests) := by
  induction requests generalizing s with
  | nil => exact .nil
  | cons first rest ih =>
    rw [List.forall_mem_cons] at correct answerable
    have right' : State.Right { s with asked := [] } := ⟨right.cache, right.table⟩
    apply Satisfies.bind (call_spec correct.1 right' rfl answerable.1)
    intro ⟨s', answer⟩ facts
    apply Satisfies.bind (ih correct.2 answerable.2 facts.1)
    intro steps transparent
    exact .cons facts.2 transparent

end Calls

section Termination

theorem firstSatisfying_ends (key : Finset Expr) (table : List Bindings) : Ends fun fuel => firstSatisfying o fuel key table := by
  induction table with
  | nil => exact .pure none
  | cons a rest ih =>
    apply (PartialAssignment.satisfies_ends _).bind
    intro satisfied _
    exact .ite (fun _ => .pure _) fun _ => ih

theorem allSatisfying_ends (key : Finset Expr) (table : List Bindings) : Ends fun fuel => allSatisfying o fuel key table := by
  induction table with
  | nil => exact .pure []
  | cons a rest ih =>
    apply (PartialAssignment.satisfies_ends _).bind
    intro satisfied _
    exact ih.bind fun _ _ => .pure _

theorem searchForAssignment_ends (s : State) (key : Finset Expr) : Ends fun fuel => searchForAssignment o options fuel s key := by
  simp only [searchForAssignment]
  cases s.cache.lookup key with
  | some result => exact .pure _
  | none =>
    apply Halts.ite
    · intro _
      split
      · exact .pure _
      · exact (firstSatisfying_ends key s.assignmentsTable).bind fun _ _ => .pure _
    · intro _
      split
      · exact .pure _
      · exact (allSatisfying_ends key s.assignmentsTable).bind fun _ _ => .pure _

theorem lookupAssignment_ends (s : State) (query : Query) : Ends fun fuel => lookupAssignment o options fuel s query := by
  apply (createIsZero_ends query.expr).bind
  intro neg _
  cases neg.constant? with
  | none => exact (searchForAssignment_ends s _).bind fun _ _ => .pure _
  | some ce =>
    apply Halts.ite (fun _ => .pure _)
    exact fun _ => (searchForAssignment_ends s _).bind fun _ _ => .pure _

theorem memoize_ends (s : State) (key : Finset Expr) (a : Bindings) : Ends fun fuel => memoize o options before fuel s key a := by
  have checked : Ends fun fuel => checkBinding o options fuel key a := .ite (fun _ => PartialAssignment.satisfies_ends _) fun _ => .pure _
  apply checked.bind
  intro matched _
  exact Ends.require (Halts.pure _)

theorem getAssignment_ends (s : State) (query : Query) : Ends fun fuel => getAssignment o options before fuel solver s query := by
  apply (lookupAssignment_ends s query).bind
  intro ⟨key, found⟩ _
  cases found with
  | some result => exact .pure _
  | none =>
    dsimp only
    cases solver.computeInitialValues query (findSymbolicObjects (key.sort (· ≤ ·))) with
    | none => exact .pure _
    | some values =>
      cases values with
      | none => exact .pure _
      | some values => exact (memoize_ends _ key _).bind fun _ _ => .pure _

theorem mustHaveAssignment_ends (s : State) (query : Query) :
    Ends fun fuel => mustHaveAssignment o options before fuel solver s query := by
  apply (getAssignment_ends s query.withFalse).bind
  intro ⟨s', a⟩ _
  dsimp only
  split
  · exact .pure _
  · exact .error _ nofun
  · exact .pure _

theorem computeValidity_ends (s : State) (query : Query) : Ends fun fuel => computeValidity o options before fuel solver s query := by
  apply (mustHaveAssignment_ends s query).bind
  intro ⟨s', a⟩ _
  cases a with
  | none => exact .pure _
  | some a =>
    apply (evaluate_ends a query.expr).bind
    intro q _
    apply Halts.ite
    · exact fun _ => (getAssignment_ends s' query).bind fun _ _ => .pure _
    · intro _
      apply (negateExpr_ends query).bind
      intro negated _
      exact (getAssignment_ends s' negated).bind fun _ _ => .pure _

theorem computeTruth_ends (s : State) (query : Query) : Ends fun fuel => computeTruth o options before fuel solver s query := by
  have known : Ends fun fuel => knownRefuted o options fuel s query := by
    apply Halts.ite _ fun _ => .pure _
    intro _
    apply (negateExpr_ends query).bind
    intro negated _
    exact (lookupAssignment_ends s negated).bind fun _ _ => .pure _
  apply known.bind
  intro refuted _
  apply Halts.ite (fun _ => .pure _)
  exact fun _ => (getAssignment_ends s query).bind fun _ _ => .pure _

theorem computeValue_ends (s : State) (query : Query) : Ends fun fuel => computeValue o options before fuel solver s query := by
  apply (mustHaveAssignment_ends s query).bind
  intro ⟨s', a⟩ _
  cases a with
  | none => exact .pure _
  | some a => exact (evaluate_ends a query.expr).bind fun _ _ => .pure _

theorem call_ends (s : State) (request : Request) : Ends fun fuel => call o options before fuel solver s request := by
  cases request with
  | validity query => exact (computeValidity_ends s query).bind fun _ _ => .pure _
  | truth query => exact (computeTruth_ends s query).bind fun _ _ => .pure _
  | value query => exact (computeValue_ends s query).bind fun _ _ => .pure _
  | initialValues query objects =>
    apply Halts.bind
    · exact (getAssignment_ends s query).bind fun _ _ => .pure _
    · exact fun _ _ => .pure _

theorem calls_ends (requests : List (SolverImpl × Request)) (s : State) : Ends fun fuel => calls o options before fuel s requests := by
  induction requests generalizing s with
  | nil => exact .pure []
  | cons first rest ih =>
    apply (call_ends _ first.2).bind
    intro ⟨s', answer⟩ _
    exact (ih s').bind fun _ _ => .pure _

end Termination

end CexCachingSolver

/-- In every sequence of calls each answer is right, or the solver below has failed during
that call, if and only if the call does not take the shortcut. -/
theorem cexCachingSolver_transparent_iff [LinearOrder Expr] (o : Options)
    (options : CexCacheOptions) (before : Bindings → Bindings → Bool)
    (requests : List (SolverImpl × Request)) (correct : ∀ call ∈ requests, call.1.Correct)
    (answerable : ∀ call ∈ requests, CexCachingSolver.Answerable o options call.2) :
    ∃ bound, ∀ fuel, bound ≤ fuel → ∃ steps,
      CexCachingSolver.calls o options before fuel .initial requests = .ok steps ∧
      List.Forall₂ (fun call step =>
        CexCachingSolver.Met call.1 call.2 step.asked step.answer ↔
          ¬ CexCachingSolver.Shortcut o options fuel step.state call.2) requests steps := by
  obtain ⟨bound, result, ends, settled⟩ := CexCachingSolver.calls_ends requests .initial
  refine ⟨bound, fun fuel enough => ?_⟩
  have spec : Satisfies _ _ (CexCachingSolver.calls o options before fuel .initial requests) :=
    CexCachingSolver.calls_spec requests correct answerable CexCachingSolver.initial_right
  cases returned : CexCachingSolver.calls o options before fuel .initial requests with
  | ok steps => exact ⟨steps, rfl, spec.elim returned⟩
  | error fault =>
    have exhausted := spec.fault returned
    subst exhausted
    exact absurd ((settled fuel enough).symm.trans returned) ends

section Example

open Symbolic.ConstraintManager (sampleByte sampleArray sampleCondition sampleCondition_wellFormed)

def shortcutOptions : CexCacheOptions := ⟨false, false, false, true⟩

def negationQuery (e : Expr) : Query := ⟨[sampleNegation], e⟩

/-- The negation is found to follow, and then the condition is asked about. -/
noncomputable def shortcutCalls : List (SolverImpl × Request) :=
  [(oracle, .truth (negationQuery sampleNegation)), (oracle, .truth (negationQuery sampleCondition))]

theorem sampleNegation_evaluable : sampleNegation.Evaluable noOptions :=
  ⟨fun _ => sampleNegation_wellFormed, by simp [Expr.Narrow, sampleNegation, sampleCondition,
    sampleByte, sampleArray, Expr.reads, UpdateNode.reads]⟩

theorem sampleCondition_evaluable : sampleCondition.Evaluable noOptions :=
  ⟨fun _ => sampleCondition_wellFormed, by simp [Expr.Narrow, sampleCondition, sampleByte, sampleArray, Expr.reads, UpdateNode.reads]⟩

theorem truth_answerable (evaluable : e.Evaluable noOptions) (boolean : e.width = 1) :
    CexCachingSolver.Answerable noOptions shortcutOptions (.truth (negationQuery e)) where
  constraints c member := by
    obtain rfl := List.mem_singleton.mp member
    exact ⟨sampleNegation_evaluable, rfl⟩
  expr := evaluable
  boolean _ := boolean
  defined := nofun
  possible := nofun

theorem shortcutCalls_answerable : ∀ call ∈ shortcutCalls, CexCachingSolver.Answerable noOptions shortcutOptions call.2 := by
  simp only [shortcutCalls, List.forall_mem_cons]
  exact ⟨truth_answerable sampleNegation_evaluable rfl, truth_answerable sampleCondition_evaluable rfl, nofun⟩

theorem shortcutCalls_correct : ∀ call ∈ shortcutCalls, call.1.Correct := by
  simp [shortcutCalls, oracle_correct]

section Order

noncomputable local instance : LinearOrder Expr :=
  WellOrderingRel.isWellOrder.linearOrder

theorem cexCachingSolver_transparent_iff_sample :
    ∃ fuel steps,
      CexCachingSolver.calls noOptions shortcutOptions (fun _ _ => true) fuel .initial
        shortcutCalls = .ok steps ∧
      List.Forall₂ (fun call step =>
        CexCachingSolver.Met call.1 call.2 step.asked step.answer ↔
          ¬ CexCachingSolver.Shortcut noOptions shortcutOptions fuel step.state call.2)
        shortcutCalls steps := by
  obtain ⟨bound, enough⟩ := cexCachingSolver_transparent_iff noOptions shortcutOptions
    (fun _ _ => true) shortcutCalls shortcutCalls_correct shortcutCalls_answerable
  exact ⟨bound, enough bound (Nat.le_refl bound)⟩

end Order

namespace CexCachingSolver

variable [LinearOrder Expr] {options : CexCacheOptions} {before : Bindings → Bindings → Bool} {s : State}

theorem lookupAssignment_of_negated {query : Query} {found : Option (Option Bindings)}
    (negated : createIsZero o fuel query.expr = .ok neg) (unfolded : neg.constant? = none)
    (search : searchForAssignment o options fuel s (insert neg query.constraints.toFinset) =
      .ok found) : lookupAssignment o options fuel s query = .ok (insert neg query.constraints.toFinset, found) := by
  simp only [lookupAssignment, negated, ok_bind, unfolded, search]
  rfl

theorem searchForAssignment_initial (key : Finset Expr) : searchForAssignment noOptions shortcutOptions fuel .initial key = .ok none := by
  have missed : State.initial.cache.lookup key = none := MapOfSets.lookup_empty key
  have nothing : State.initial.cache.findSubset key (nullOrSatisfying []) = none := by
    cases found : State.initial.cache.findSubset key (nullOrSatisfying []) with
    | none => rfl
    | some result =>
      obtain ⟨set, -, stored, -⟩ := (State.initial.cache.findSubset_spec key _).1 result found
      cases (MapOfSets.lookup_empty set).symm.trans stored
  rw [searchForAssignment, missed]
  exact congrArg Except.ok nothing

theorem getAssignment_of_valid {query : Query} {key : Finset Expr} (valid : query.Valid)
    (missed : lookupAssignment o options fuel s query = .ok (key, none)) :
    getAssignment o options before fuel oracle s query =
      .ok (⟨s.cache.insert key none, s.assignmentsTable, s.asked ++ [(query, findSymbolicObjects (key.sort (· ≤ ·)))]⟩, some none) := by
  simp only [getAssignment, missed, ok_bind, (oracle_valid valid).2]
  rfl

theorem knownRefuted_of_lookup {query negated : Query} {key : Finset Expr}
    {found : Option (Option Bindings)} (negation : query.negateExpr noOptions fuel = .ok negated)
    (looked : lookupAssignment noOptions shortcutOptions fuel s negated = .ok (key, found)) :
    knownRefuted noOptions shortcutOptions fuel s query = .ok (decide (found = some none)) := by
  rw [knownRefuted, negation]
  change (lookupAssignment noOptions shortcutOptions fuel s negated >>= _) = _
  rw [looked]
  rfl

theorem shortcutCalls_answers : ∃ asked s,
    calls noOptions shortcutOptions (fun _ _ => true) 3 .initial shortcutCalls =
      .ok [⟨.initial, asked, some (.truth true)⟩, ⟨s, [], none⟩] := by
  have negated : createIsZero noOptions 3 sampleCondition = .ok sampleNegation := rfl
  have restored : createIsZero noOptions 3 sampleNegation = .ok sampleCondition := rfl
  have valid : (negationQuery sampleNegation).Valid := fun ρ hold => hold _ (.head _)
  let key := insert sampleCondition (negationQuery sampleNegation).constraints.toFinset
  have firstNegation : (negationQuery sampleNegation).negateExpr noOptions 3 = .ok (negationQuery sampleCondition) := rfl
  have firstUnknown : knownRefuted noOptions shortcutOptions 3 .initial (negationQuery sampleNegation) = .ok false :=
    knownRefuted_of_lookup firstNegation (lookupAssignment_of_negated negated rfl (searchForAssignment_initial _))
  have missed : lookupAssignment noOptions shortcutOptions 3 .initial (negationQuery sampleNegation) = .ok (key, none) :=
    lookupAssignment_of_negated restored rfl (searchForAssignment_initial _)
  let asked := [(negationQuery sampleNegation, findSymbolicObjects (key.sort (· ≤ ·)))]
  let after : State := ⟨State.initial.cache.insert key none, [], asked⟩
  have first : computeTruth noOptions shortcutOptions (fun _ _ => true) 3 oracle .initial
      (negationQuery sampleNegation) = .ok (after, some true) := by
    rw [computeTruth, firstUnknown]
    rw [getAssignment_of_valid valid missed]
    rfl
  have hit : searchForAssignment noOptions shortcutOptions 3 { after with asked := [] } key =
      .ok (some none) := by
    have stored : after.cache.lookup key = some none := MapOfSets.lookup_insert_self _ _ _
    rw [searchForAssignment, stored]
    rfl
  have secondNegation : (negationQuery sampleCondition).negateExpr noOptions 3 = .ok (negationQuery sampleNegation) := rfl
  have secondKnown : knownRefuted noOptions shortcutOptions 3 { after with asked := [] }
      (negationQuery sampleCondition) = .ok true :=
    knownRefuted_of_lookup secondNegation (lookupAssignment_of_negated restored rfl hit)
  refine ⟨asked, { after with asked := [] }, ?_⟩
  change ((computeTruth _ _ _ 3 oracle .initial (negationQuery sampleNegation) >>= _) >>= _) = _
  rw [first]
  change (((computeTruth _ _ _ 3 oracle { after with asked := [] } (negationQuery sampleCondition)
    >>= _) >>= _) >>= _) = _
  rw [computeTruth, secondKnown]
  rfl

end CexCachingSolver

/-- With the experimental option a call can fail of which the solver below knows nothing. -/
theorem cexCachingSolver_fails_unasked :
    ¬ ∀ [LinearOrder Expr] (o : Options) (options : CexCacheOptions)
      (before : Bindings → Bindings → Bool) (requests : List (SolverImpl × Request)),
      (∀ call ∈ requests, call.1.Correct) →
      (∀ call ∈ requests, CexCachingSolver.Answerable o options call.2) →
      ∀ fuel steps, CexCachingSolver.calls o options before fuel .initial requests = .ok steps →
        List.Forall₂ (fun call step => CexCachingSolver.Met call.1 call.2 step.asked step.answer)
          requests steps := by
  intro transparent
  let _ : LinearOrder Expr := WellOrderingRel.isWellOrder.linearOrder
  obtain ⟨asked, s, answers⟩ := CexCachingSolver.shortcutCalls_answers
  have met := transparent noOptions shortcutOptions (fun _ _ => true) shortcutCalls
    shortcutCalls_correct shortcutCalls_answerable 3 _ answers
  cases met with
  | cons _ rest =>
    cases rest with
    | cons second _ =>
      obtain ⟨question, member, -⟩ := second
      cases member

end Example

end NeuroMerge.Solver
