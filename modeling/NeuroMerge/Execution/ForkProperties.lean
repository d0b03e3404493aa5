import NeuroMerge.Execution.Fork
import NeuroMerge.Symbolic.PathCondition

/-!
# Forking partitions the behaviours of a state

With a solver that answers rightly, the two states of a fork have between them the
assignments that satisfy the path condition, each on its side of the condition.
-/

namespace NeuroMerge.Execution

open List Symbolic
open Symbolic.ConstraintManager (Constraint Hold Lasting Decides Regular)

variable {ρ : Assignment} {o : Options} {fuel : Nat} {options : ForkOptions} {solver : Solver}
  {simplifyExprs : Bool} {constraints : List Expr} {e e' : Expr}

section Solver

/-- What an answer says about the assignments that satisfy the constraints. -/
def Validity.Answers (constraints : List Expr) (e : Expr) : Validity → Prop
  | .isTrue => ∀ ρ, Hold ρ constraints → e.eval ρ 1 = 1#1
  | .isFalse => ∀ ρ, Hold ρ constraints → e.eval ρ 1 = 0#1
  | .unknown =>
    (∃ ρ, Hold ρ constraints ∧ e.eval ρ 1 = 1#1) ∧ ∃ ρ, Hold ρ constraints ∧ e.eval ρ 1 = 0#1

/-- The solver never fails, and what it answers is right. -/
structure Solver.Sound (solver : Solver) : Prop where
  evaluate : ∀ constraints e, ∃ res, solver.evaluate constraints e = some res ∧
    res.Answers constraints e
  mustBeTrue : ∀ constraints e, ∃ answer, solver.mustBeTrue constraints e = some answer ∧
    (answer = true ↔ ∀ ρ, Hold ρ constraints → e.eval ρ 1 = 1#1)
  getValue : ∀ constraints e, (∃ ρ, Hold ρ constraints) → ∃ ρ, Hold ρ constraints ∧
    solver.getValue constraints e = some ⟨e.width, e.eval ρ e.width⟩

/-- The expression is well formed; if constant arrays are rewritten, it only has to be
where the path condition holds. -/
def Sensible (o : Options) (constraints : List Expr) (e : Expr) : Prop :=
  ∀ ρ, (o.constArrayOpt = true → Hold ρ constraints) → e.WellFormed (.bounded o ρ)

/-- A path condition in which each constraint is a sensible boolean expression. -/
def PathCondition (o : Options) (constraints : List Expr) : Prop :=
  ∀ c ∈ constraints, c.width = 1 ∧ Sensible o constraints c

theorem PathCondition.denotes (path : PathCondition o constraints) (hold : Hold ρ constraints) :
    ∀ c ∈ constraints, Denotes (.bounded o ρ) ρ c 1#1 :=
  fun c member => ⟨(path c member).2 ρ fun _ => hold, (path c member).1, hold c member⟩

theorem isTrue_iff_of_constant {ce : ConstantExpr} (isConstant : e.constant? = some ce)
    (boolean : e.width = 1) : ce.isTrue = true ↔ e.eval ρ 1 = 1#1 := by
  rw [Expr.constant?_eq_some] at isConstant
  subst isConstant
  obtain ⟨width, value⟩ := ce
  have sameWidth : width = 1 := boolean
  subst sameWidth
  simp

namespace TimingSolver

theorem query_denotes (path : PathCondition o constraints) (sensible : Sensible o constraints e)
    (returned : query o simplifyExprs fuel constraints e = .ok e') (hold : Hold ρ constraints) :
    Denotes (.bounded o ρ) ρ e' (e.eval ρ e.width) := by
  have wellFormed : e.WellFormed (.bounded o ρ) := sensible ρ fun _ => hold
  rw [query] at returned
  split at returned
  · exact (ConstraintManager.simplifyExpr_agrees Guards.allows_bounded Guards.extensional_bounded
      (path.denotes hold) wellFormed).elim returned
  · cases returned
    exact wellFormed.denotes

theorem evaluate_answers (sound : solver.Sound) (path : PathCondition o constraints)
    (boolean : e.width = 1) (sensible : Sensible o constraints e) {answer : Option Validity}
    (returned : evaluate o simplifyExprs solver fuel constraints e = .ok answer) :
    ∃ res, answer = some res ∧ res.Answers constraints e := by
  rw [evaluate] at returned
  split at returned
  · rename_i ce isConstant
    cases returned
    refine ⟨_, rfl, ?_⟩
    split
    · rename_i isTrue
      exact fun ρ _ => (isTrue_iff_of_constant isConstant boolean).mp isTrue
    · rename_i notTrue
      intro ρ _
      rw [isTrue_iff_of_constant (ρ := ρ) isConstant boolean, BitVector.ne_one_iff_eq_zero] at notTrue
      exact notTrue
  · obtain ⟨e', queried, returned⟩ := bind_eq_ok_iff.mp returned
    cases returned
    obtain ⟨res, answers, right⟩ := sound.evaluate constraints e'
    have value {ρ : Assignment} (hold : Hold ρ constraints) : e'.eval ρ 1 = e.eval ρ 1 := by
      have denotes := query_denotes path sensible queried hold
      rw [boolean] at denotes
      exact denotes.value
    refine ⟨res, answers, ?_⟩
    cases res with
    | isTrue => exact fun ρ hold => value hold ▸ right ρ hold
    | isFalse => exact fun ρ hold => value hold ▸ right ρ hold
    | unknown =>
      obtain ⟨⟨ρ, hold, isTrue⟩, ρ', hold', isFalse⟩ := right
      exact ⟨⟨ρ, hold, value hold ▸ isTrue⟩, ρ', hold', value hold' ▸ isFalse⟩

end TimingSolver

end Solver

namespace Executor

section AddConstraint

variable {state state' : ExecutionState}

structure Constrains (o : Options) (state : ExecutionState) (e : Expr) (state' : ExecutionState) :
    Prop where
  rest : state' = { state with constraints := state'.constraints }
  holds : ∀ ρ, Regular o ρ (e :: state.constraints) →
    (Hold ρ state'.constraints ↔ Hold ρ state.constraints ∧ e.eval ρ 1 = 1#1)

/-- If constant arrays are rewritten, the constraint has to be possible. -/
theorem addConstraint_constrains (path : PathCondition o state.constraints) (boolean : e.width = 1)
    (sensible : Sensible o state.constraints e) (feasible : o.constArrayOpt = true → ∃ ρ, Hold ρ state.constraints ∧ e.eval ρ 1 = 1#1)
    (returned : addConstraint o fuel state e = .ok state') : Constrains o state e state' := by
  rw [addConstraint.eq_def] at returned
  split at returned
  · rename_i ce isConstant
    obtain ⟨_, isTrue, returned⟩ := bind_eq_ok_iff.mp returned
    cases returned
    refine ⟨rfl, fun ρ _ => ?_⟩
    rw [require] at isTrue
    split at isTrue
    · rename_i holds
      rw [isTrue_iff_of_constant (ρ := ρ) isConstant boolean] at holds
      exact ⟨fun hold => ⟨hold, holds⟩, And.left⟩
    · cases isTrue
  · obtain ⟨result, added, returned⟩ := bind_eq_ok_iff.mp returned
    cases returned
    refine ⟨rfl, fun ρ regular => ?_⟩
    have wellFormed (c) (member : c ∈ e :: state.constraints) : c.WellFormed (.bounded o ρ) := by
      by_cases enabled : o.constArrayOpt = true
      · exact regular enabled c member
      · obtain rfl | old := mem_cons.mp member
        · exact sensible ρ fun isEnabled => absurd isEnabled enabled
        · exact (path c old).2 ρ fun isEnabled => absurd isEnabled enabled
    have constraint : Constraint (.bounded o ρ) e := ⟨wellFormed e (by simp), boolean⟩
    have constraints (c) (member : c ∈ state.constraints) : Constraint (.bounded o ρ) c :=
      ⟨wellFormed c (by simp [member]), (path c member).1⟩
    have lasts : ∃ valid, Lasting o valid ∧ (∀ c ∈ state.constraints, valid c) ∧ valid e := by
      by_cases enabled : o.constArrayOpt = true
      · obtain ⟨ρ₀, hold, isTrue⟩ := feasible enabled
        exact ⟨_, Lasting.holds Guards.allows_bounded (Guards.extensional_bounded (ρ := ρ₀)),
          path.denotes hold, sensible ρ₀ fun _ => hold, boolean, isTrue⟩
      · exact ⟨_, Lasting.typed Guards.allows_bounded (Guards.free_bounded enabled), constraints, constraint⟩
    obtain ⟨valid, lasting, validOld, validNew⟩ := lasts
    exact ((Decides.of_constraints constraints).addConstraint lasting Guards.allows_bounded
      Guards.extensional_bounded validOld validNew constraint).elim added |>.1.hold_iff

end AddConstraint

section Fork

variable {executor executor' : Executor} {state : ExecutionState} {isInternal : Bool} {first second : Option ExecutionState}

structure Unlimited (options : ForkOptions) (state : ExecutionState) : Prop where
  staticLimit : options.staticLimit = false
  atMemoryLimit : options.atMemoryLimit = false
  inhibitForking : options.inhibitForking = false
  maxForks : options.maxForks = none
  maxDepth : options.maxDepth = 0
  forkDisabled : state.forkDisabled = false

/-- The fork does not follow a recorded path or test case. -/
structure NotReplaying (options : ForkOptions) (isInternal : Bool) : Prop where
  path : options.replayPath = none ∨ isInternal = true
  test : options.replayKTest = false

theorem restrict_eq (unlimited : Unlimited options state) (notReplaying : NotReplaying options isInternal) (res : Validity) :
    restrict o options fuel executor state e isInternal res = pure (executor, state, res) := by
  have notLimited : (if res = .unknown then do
        require (options.replayKTest = false) .forkInReplay
        if options.atMemoryLimit = true ∨ state.forkDisabled = true ∨
            options.inhibitForking = true ∨ (∃ limit ∈ options.maxForks, limit ≤ executor.forks) then
          commit o fuel executor state e (options.random 0 % 2 = 1)
        else pure (executor, state, res)
      else pure (executor, state, res) : Except Fault (Executor × ExecutionState × Validity)) =
      pure (executor, state, res) := by
    rw [require, if_pos notReplaying.test, unlimited.atMemoryLimit, unlimited.forkDisabled, unlimited.inhibitForking, unlimited.maxForks]
    simp
  cases notReplaying.path with
  | inl none => simpa only [restrict, none] using notLimited
  | inr internal =>
    subst internal
    cases path : options.replayPath <;> simpa only [restrict, path] using notLimited

inductive Forked (o : Options) (fuel : Nat) (executor : Executor) (state : ExecutionState)
    (e : Expr) : Executor → Option ExecutionState → Option ExecutionState → Prop where
  | isTrue (answers : Validity.isTrue.Answers state.constraints e) :
      Forked o fuel executor state e executor (some state) none
  | isFalse (answers : Validity.isFalse.Answers state.constraints e) :
      Forked o fuel executor state e executor none (some state)
  | both {isZero : Expr} {trueState falseState : ExecutionState}
      (answers : Validity.unknown.Answers state.constraints e)
      (negated : createIsZero o fuel e = .ok isZero)
      (takesTrue : addConstraint o fuel state.branch.1 e = .ok trueState)
      (takesFalse : addConstraint o fuel state.branch.2 isZero = .ok falseState) :
      Forked o fuel executor state e { executor with forks := executor.forks + 1 }
        (some trueState) (some falseState)

theorem fork_eq (unlimited : Unlimited options state) (notReplaying : NotReplaying options isInternal) :
    fork o options solver fuel executor state e isInternal = (do
      match ← TimingSolver.evaluate o options.simplifyExprs solver fuel state.constraints e with
      | none => pure (executor.terminate { state with pc := state.prevPC }
          (.early "Query timed out (fork)."), none, none)
      | some .isTrue => pure (executor, some state, none)
      | some .isFalse => pure (executor, none, some state)
      | some .unknown => do
        let trueState ← addConstraint o fuel state.branch.1 e
        let isZero ← createIsZero o fuel e
        let falseState ← addConstraint o fuel state.branch.2 isZero
        pure ({ executor with forks := executor.forks + 1 }, some trueState, some falseState)) := by
  have unchanged : concretize o options solver fuel state e = pure (state, e) := by
    rw [concretize, if_neg (by simp [unlimited.staticLimit])]
  rw [fork, unchanged, pure_bind]
  dsimp only
  congr 1
  funext answer
  cases answer with
  | none => rfl
  | some res =>
    dsimp only
    rw [restrict_eq unlimited notReplaying, pure_bind]
    cases res with
    | isTrue => rfl
    | isFalse => rfl
    | unknown => simp only [unlimited.maxDepth, ne_eq, not_true_eq_false, false_and, if_false]

theorem fork_forked (sound : solver.Sound) (unlimited : Unlimited options state)
    (notReplaying : NotReplaying options isInternal) (path : PathCondition o state.constraints)
    (boolean : e.width = 1) (sensible : Sensible o state.constraints e)
    (returned : fork o options solver fuel executor state e isInternal =
      .ok (executor', first, second)) : Forked o fuel executor state e executor' first second := by
  rw [fork_eq unlimited notReplaying] at returned
  obtain ⟨answer, evaluated, returned⟩ := bind_eq_ok_iff.mp returned
  obtain ⟨res, rfl, answers⟩ := TimingSolver.evaluate_answers sound path boolean sensible evaluated
  cases res with
  | isTrue =>
    cases returned
    exact .isTrue answers
  | isFalse =>
    cases returned
    exact .isFalse answers
  | unknown =>
    obtain ⟨trueState, takesTrue, returned⟩ := bind_eq_ok_iff.mp returned
    obtain ⟨isZero, negated, returned⟩ := bind_eq_ok_iff.mp returned
    obtain ⟨falseState, takesFalse, returned⟩ := bind_eq_ok_iff.mp returned
    cases returned
    exact .both answers negated takesTrue takesFalse

theorem createIsZero_denotes (boolean : e.width = 1) (negated : createIsZero o fuel e = .ok e')
    (wellFormed : e.WellFormed (.bounded o ρ)) : Denotes (.bounded o ρ) ρ e' (~~~ e.eval ρ 1) := by
  have builds : Satisfies _ _ (createIsZero o fuel e) := createIsZero_builds Guards.allows_bounded ⟨wellFormed, boolean, rfl⟩
  exact builds.elim negated

/-- The path condition of the state on one side of a fork; there is no state only if
nothing satisfies it. -/
def Side (o : Options) (state : ExecutionState) (e : Expr) (bit : BitVec 1)
    (side : Option ExecutionState) : Prop :=
  ∀ ρ, Regular o ρ (e :: state.constraints) →
    ((∃ s ∈ side, Hold ρ s.constraints) ↔ Hold ρ state.constraints ∧ e.eval ρ 1 = bit)

theorem Forked.sides (forked : Forked o fuel executor state e executor' first second)
    (path : PathCondition o state.constraints) (boolean : e.width = 1) (sensible : Sensible o state.constraints e) :
    Side o state e 1#1 first ∧ Side o state e 0#1 second := by
  cases forked with
  | isTrue answers =>
    constructor
    · intro ρ _
      simp only [Option.mem_def, Option.some.injEq, exists_eq_left']
      exact ⟨fun hold => ⟨hold, answers ρ hold⟩, And.left⟩
    · intro ρ _
      simp only [Option.mem_def, reduceCtorEq, false_and, exists_false, false_iff, not_and]
      intro hold isFalse
      have both := (answers ρ hold).symm.trans isFalse
      contradiction
  | isFalse answers =>
    constructor
    · intro ρ _
      simp only [Option.mem_def, reduceCtorEq, false_and, exists_false, false_iff, not_and]
      intro hold isTrue
      have both := (answers ρ hold).symm.trans isTrue
      contradiction
    · intro ρ _
      simp only [Option.mem_def, Option.some.injEq, exists_eq_left']
      exact ⟨fun hold => ⟨hold, answers ρ hold⟩, And.left⟩
  | @both isZero trueState falseState answers negated takesTrue takesFalse =>
    obtain ⟨⟨ρ₁, hold₁, isTrue⟩, ρ₀, hold₀, isFalse⟩ := answers
    have constrainsTrue : Constrains o state.branch.1 e trueState :=
      addConstraint_constrains path boolean sensible (fun _ => ⟨ρ₁, hold₁, isTrue⟩) takesTrue
    have negation {ρ : Assignment} (wellFormed : e.WellFormed (.bounded o ρ)) := createIsZero_denotes boolean negated wellFormed
    have width : isZero.width = 1 := (negation (sensible ρ₀ fun _ => hold₀)).width
    have pathFalse : PathCondition o state.branch.2.constraints := path
    have constrainsFalse : Constrains o state.branch.2 isZero falseState := by
      apply addConstraint_constrains pathFalse width _ _ takesFalse
      · intro ρ within
        exact (negation (sensible ρ within)).wellFormed
      · intro _
        refine ⟨ρ₀, hold₀, ?_⟩
        rw [(negation (sensible ρ₀ fun _ => hold₀)).value, isFalse]
        rfl
    constructor
    · intro ρ regular
      simp only [Option.mem_def, Option.some.injEq, exists_eq_left']
      exact constrainsTrue.holds ρ regular
    · intro ρ regular
      simp only [Option.mem_def, Option.some.injEq, exists_eq_left']
      have wellFormed : e.WellFormed (.bounded o ρ) := by
        by_cases enabled : o.constArrayOpt = true
        · exact regular enabled e (by simp)
        · exact sensible ρ fun isEnabled => absurd isEnabled enabled
      have regularZero : Regular o ρ (isZero :: state.constraints) := by
        intro enabled c member
        obtain rfl | old := mem_cons.mp member
        · exact (negation wellFormed).wellFormed
        · exact regular enabled c (by simp [old])
      rw [constrainsFalse.holds ρ regularZero, (negation wellFormed).value]
      have flipped : ∀ bit : BitVec 1, ~~~ bit = 1#1 ↔ bit = 0#1 := by decide
      rw [flipped]
      rfl

end Fork

section Total

variable {state : ExecutionState} {executor : Executor} {isInternal : Bool}

/-- Where the path condition holds, no divisor is zero and no constant array is read
out of bounds. -/
def Checked (o : Options) (constraints : List Expr) (e : Expr) : Prop :=
  ∀ ρ, Hold ρ constraints → ∀ c ∈ e :: constraints, c.WellFormed (.safe o ρ)

theorem Checked.denotes (checked : Checked o constraints e) (path : PathCondition o constraints)
    (hold : Hold ρ constraints) : ∀ c ∈ constraints, Denotes (.safe o ρ) ρ c 1#1 :=
  fun c member => ⟨checked ρ hold c (by simp [member]), (path c member).1, hold c member⟩

theorem addConstraint_total (path : PathCondition o state.constraints) (boolean : e.width = 1)
    (checked : Checked o state.constraints e) (hold : Hold ρ state.constraints) (isTrue : e.eval ρ 1 = 1#1) :
    Satisfies (· = .outOfFuel) (fun _ => True) (addConstraint o fuel state e) := by
  rw [addConstraint.eq_def]
  split
  · rename_i ce isConstant
    rw [require, if_pos ((isTrue_iff_of_constant isConstant boolean).mpr isTrue)]
    trivial
  · apply Satisfies.bind (only_outOfFuel (ConstraintManager.addConstraint_true Guards.allows_safe
      Guards.extensional_safe (checked.denotes path hold) ⟨checked ρ hold e (by simp), boolean, isTrue⟩))
    exact fun _ _ => trivial

theorem addConstraint_halts (state : ExecutionState) (e : Expr) : Halts .outOfFuel fun fuel => addConstraint o fuel state e := by
  cases isConstant : e.constant? with
  | some ce =>
    simp only [addConstraint, isConstant]
    by_cases isTrue : ce.isTrue = true
    · simp only [require, if_pos isTrue]
      exact .pure state
    · simp only [require, if_neg isTrue]
      exact .error _ (by simp)
  | none =>
    simp only [addConstraint, isConstant]
    exact (ConstraintManager.addConstraint_ends state.constraints e).bind fun _ _ => .pure _

theorem evaluate_total (path : PathCondition o constraints) (checked : Checked o constraints e) (hold : Hold ρ constraints) :
    Satisfies (· = .outOfFuel) (fun _ => True) (TimingSolver.evaluate o simplifyExprs solver fuel constraints e) := by
  rw [TimingSolver.evaluate]
  split
  · trivial
  · rw [TimingSolver.query]
    split
    · apply Satisfies.bind (only_outOfFuel (ConstraintManager.simplifyExpr_agrees Guards.allows_safe
        Guards.extensional_safe (checked.denotes path hold) (checked ρ hold e (by simp))))
      exact fun _ _ => trivial
    · trivial

theorem evaluate_halts (constraints : List Expr) (e : Expr) :
    Halts .outOfFuel fun fuel => TimingSolver.evaluate o simplifyExprs solver fuel constraints e := by
  cases isConstant : e.constant? with
  | some ce =>
    simp only [TimingSolver.evaluate, isConstant]
    exact .pure _
  | none =>
    simp only [TimingSolver.evaluate, TimingSolver.query, isConstant]
    apply Halts.bind
    · exact .ite (fun _ => ConstraintManager.simplifyExpr_ends constraints e) fun _ => .pure e
    · exact fun _ _ => .pure _

theorem fork_halts (unlimited : Unlimited options state) (notReplaying : NotReplaying options isInternal) :
    Halts .outOfFuel fun fuel => fork o options solver fuel executor state e isInternal := by
  apply Halts.congr fun fuel => fork_eq unlimited notReplaying
  apply (evaluate_halts state.constraints e).bind
  intro answer _
  cases answer with
  | none => exact .pure _
  | some res =>
    cases res with
    | isTrue => exact .pure _
    | isFalse => exact .pure _
    | unknown =>
      apply (addConstraint_halts state.branch.1 e).bind
      intro trueState _
      apply (createIsZero_ends e).bind
      intro isZero _
      apply (addConstraint_halts state.branch.2 isZero).bind
      intro falseState _
      exact .pure _

section

variable (sound : solver.Sound) (unlimited : Unlimited options state)
  (notReplaying : NotReplaying options isInternal) (path : PathCondition o state.constraints)
  (boolean : e.width = 1) (sensible : Sensible o state.constraints e) (checked : Checked o state.constraints e)
include sound unlimited notReplaying path boolean sensible checked

/-- A fork of a state whose path condition holds somewhere only stops for want of fuel. -/
theorem fork_faults (hold : Hold ρ state.constraints) :
    Satisfies (· = .outOfFuel) (fun _ => True) (fork o options solver fuel executor state e isInternal) := by
  rw [fork_eq unlimited notReplaying]
  apply Satisfies.bind ((evaluate_total path checked hold).and .self)
  intro answer facts
  obtain ⟨res, rfl, answers⟩ := TimingSolver.evaluate_answers sound path boolean sensible facts.2
  cases res with
  | isTrue => trivial
  | isFalse => trivial
  | unknown =>
    obtain ⟨⟨ρ₁, hold₁, isTrue⟩, ρ₀, hold₀, isFalse⟩ := answers
    have pathTrue : PathCondition o state.branch.1.constraints := path
    have checkedTrue : Checked o state.branch.1.constraints e := checked
    apply Satisfies.bind (addConstraint_total pathTrue boolean checkedTrue hold₁ isTrue)
    intro trueState _
    have negates {ρ : Assignment} (hold : Hold ρ state.constraints) :
        Builds (.safe o ρ) ρ (~~~ e.eval ρ 1) (createIsZero o fuel e) :=
      createIsZero_builds Guards.allows_safe ⟨checked ρ hold e (by simp), boolean, rfl⟩
    apply Satisfies.bind ((only_outOfFuel (negates hold₀)).and .self)
    intro isZero facts
    obtain ⟨denotes, negated⟩ := facts
    have pathFalse : PathCondition o state.branch.2.constraints := path
    have checkedFalse : Checked o state.branch.2.constraints isZero := by
      intro ρ hold c member
      obtain rfl | old := mem_cons.mp member
      · exact (Satisfies.elim (negates hold) negated).wellFormed
      · exact checked ρ hold c (mem_cons_of_mem e old)
    have isZeroTrue : isZero.eval ρ₀ 1 = 1#1 := by
      rw [denotes.value, isFalse]
      rfl
    apply Satisfies.bind (addConstraint_total pathFalse denotes.width checkedFalse hold₀ isZeroTrue)
    exact fun _ _ => trivial

theorem fork_total (satisfiable : ∃ ρ, Hold ρ state.constraints) :
    ∃ result, Returns (fun fuel => fork o options solver fuel executor state e isInternal) result := by
  obtain ⟨ρ, hold⟩ := satisfiable
  obtain ⟨result, -, returns⟩ := (fork_halts unlimited notReplaying).returns fun fuel =>
    fork_faults sound unlimited notReplaying path boolean sensible checked hold
  exact ⟨result, returns⟩

end

end Total

section Branch

variable {state : ExecutionState} {executor executor' : Executor} {conditions : List Expr}
  {result : List (Option ExecutionState)}

theorem copies_spec : ∀ (n : Nat) (result : List ExecutionState), result ≠ [] →
    (∀ s ∈ result, s.constraints = constraints) →
    (copies options n result).length = result.length + n ∧
      ∀ s ∈ copies options n result, s.constraints = constraints
  | 0, result, _, same => ⟨rfl, same⟩
  | n + 1, result, nonempty, same => by
    have positive : 0 < result.length := length_pos_iff.mpr nonempty
    have within : options.random result.length % result.length < result.length := Nat.mod_lt _ positive
    rw [copies, getElem?_eq_getElem within]
    have parent : result[options.random result.length % result.length].constraints = constraints := same _ (getElem_mem within)
    have next := copies_spec n (result.set (options.random result.length % result.length)
        result[options.random result.length % result.length].branch.1 ++
        [result[options.random result.length % result.length].branch.2]) (by simp) (by
      intro s member
      obtain earlier | copied := mem_append.mp member
      · obtain old | changed := mem_or_eq_of_mem_set earlier
        · exact same s old
        · rw [changed]
          exact parent
      · rw [mem_singleton.mp copied]
        exact parent)
    rw [length_append, length_set, length_singleton, Nat.add_assoc, Nat.add_comm 1 n] at next
    exact next

/-- Each condition has a state of its own, in which it is added to the path condition. -/
def Branches (o : Options) (state : ExecutionState) (conditions : List Expr)
    (result : List (Option ExecutionState)) : Prop :=
  List.Forall₂ (fun c side => ∃ s, side = some s ∧ ∀ ρ, Regular o ρ (c :: state.constraints) →
    (Hold ρ s.constraints ↔ Hold ρ state.constraints ∧ c.eval ρ 1 = 1#1)) conditions result

section

variable (unlimited : options.maxForks = none)
include unlimited

theorem branch_eq (nonempty : conditions ≠ []) :
    branch o options fuel executor state conditions = (do
      let result ← ((copies options (conditions.length - 1) [state]).zip conditions).mapM
        fun pair => some <$> addConstraint o fuel pair.1 pair.2
      pure ({ executor with forks := executor.forks + (conditions.length - 1) }, result)) := by
  rw [branch, require, if_pos nonempty, unlimited, if_neg (by simp)]
  rfl

theorem branch_branches (path : PathCondition o state.constraints)
    (boolean : ∀ c ∈ conditions, c.width = 1 ∧ Sensible o state.constraints c)
    (feasible : o.constArrayOpt = true → ∀ c ∈ conditions,
      ∃ ρ, Hold ρ state.constraints ∧ c.eval ρ 1 = 1#1)
    (returned : branch o options fuel executor state conditions = .ok (executor', result)) : Branches o state conditions result := by
  have nonempty : conditions ≠ [] := by
    intro empty
    rw [branch, require, if_neg (by simp [empty])] at returned
    cases returned
  rw [branch_eq unlimited nonempty] at returned
  obtain ⟨sides, mapped, returned⟩ := bind_eq_ok_iff.mp returned
  cases returned
  obtain ⟨length, same⟩ : (copies options (conditions.length - 1) [state]).length = _ ∧
      ∀ s ∈ copies options (conditions.length - 1) [state], s.constraints = state.constraints :=
    copies_spec (conditions.length - 1) [state] (by simp) (by simp)
  have added : List.Forall₂ (fun (pair : ExecutionState × Expr) side => ∃ s, side = some s ∧
      ∀ ρ, Regular o ρ (pair.2 :: state.constraints) → (Hold ρ s.constraints ↔ Hold ρ state.constraints ∧ pair.2.eval ρ 1 = 1#1))
      ((copies options (conditions.length - 1) [state]).zip conditions) result := by
    refine Satisfies.elim (?_ : Satisfies (fun _ => True) _ _) mapped
    apply Satisfies.mapM
    intro pair member
    obtain ⟨copy, c⟩ := pair
    obtain ⟨isCopy, isCondition⟩ := of_mem_zip member
    have constraints := same copy isCopy
    apply Satisfies.bind .self
    intro s returned
    obtain ⟨width, sensible⟩ := boolean c isCondition
    have constrains : Constrains o copy c s := by
      apply addConstraint_constrains _ width _ _ returned
      · rw [constraints]
        exact path
      · rw [constraints]
        exact sensible
      · rw [constraints]
        exact fun enabled => feasible enabled c isCondition
    refine ⟨s, rfl, ?_⟩
    rw [← constraints]
    exact constrains.holds
  have zipped : conditions = ((copies options (conditions.length - 1) [state]).zip conditions).map
      Prod.snd := by
    rw [map_snd_zip]
    rw [length, length_singleton]
    omega
  rw [Branches, zipped, forall₂_map_left_iff]
  exact added

theorem branch_total (path : PathCondition o state.constraints) (nonempty : conditions ≠ [])
    (boolean : ∀ c ∈ conditions, c.width = 1) (checked : ∀ c ∈ conditions, Checked o state.constraints c)
    (feasible : ∀ c ∈ conditions, ∃ ρ, Hold ρ state.constraints ∧ c.eval ρ 1 = 1#1) :
    ∃ result, Returns (fun fuel => branch o options fuel executor state conditions) result := by
  have same : ∀ s ∈ copies options (conditions.length - 1) [state], s.constraints = state.constraints :=
    (copies_spec (conditions.length - 1) [state] (by simp) (by simp)).2
  have halts : Halts .outOfFuel fun fuel => branch o options fuel executor state conditions := by
    apply Halts.congr fun fuel => branch_eq unlimited nonempty
    apply Halts.bind (.mapM fun pair _ => (addConstraint_halts pair.1 pair.2).map)
    exact fun _ _ => .pure _
  have faults (fuel : Nat) : Satisfies (· = .outOfFuel) (fun _ => True) (branch o options fuel executor state conditions) := by
    rw [branch_eq unlimited nonempty]
    apply Satisfies.bind
    · apply Satisfies.mapM fun _ _ => True
      intro pair member
      obtain ⟨isCopy, isCondition⟩ := of_mem_zip member
      obtain ⟨ρ, hold, isTrue⟩ := feasible pair.2 isCondition
      rw [← same pair.1 isCopy] at path hold checked
      apply Satisfies.bind (addConstraint_total path (boolean pair.2 isCondition) (checked pair.2 isCondition) hold isTrue)
      exact fun _ _ => trivial
    · exact fun _ _ => trivial
  obtain ⟨result, -, returns⟩ := halts.returns faults
  exact ⟨result, returns⟩

end

end Branch

/-- With a solver that answers rightly, nothing that limits forks and nothing that is
replayed, a fork leaves each side of the condition to one state, and `branch` each of
its conditions; both return where the path condition, and each condition with it, is
possible. -/
theorem fork_partitions (sound : solver.Sound) (state : ExecutionState) (executor : Executor)
    (unlimited : Unlimited options state) (path : PathCondition o state.constraints) :
    (∀ (e : Expr) (isInternal : Bool), NotReplaying options isInternal → e.width = 1 →
      Sensible o state.constraints e →
        (∀ fuel executor' first second,
          fork o options solver fuel executor state e isInternal = .ok (executor', first, second) →
            Side o state e 1#1 first ∧ Side o state e 0#1 second) ∧
        (Checked o state.constraints e → (∃ ρ, Hold ρ state.constraints) →
          ∃ result, Returns
            (fun fuel => fork o options solver fuel executor state e isInternal) result)) ∧
    (∀ conditions : List Expr, conditions ≠ [] →
      (∀ c ∈ conditions, c.width = 1 ∧ Sensible o state.constraints c) →
      (∀ c ∈ conditions, ∃ ρ, Hold ρ state.constraints ∧ c.eval ρ 1 = 1#1) →
        (∀ fuel executor' result,
          branch o options fuel executor state conditions = .ok (executor', result) →
            Branches o state conditions result) ∧
        ((∀ c ∈ conditions, Checked o state.constraints c) →
          ∃ result, Returns
            (fun fuel => branch o options fuel executor state conditions) result)) := by
  constructor
  · intro e isInternal notReplaying boolean sensible
    constructor
    · intro fuel executor' first second returned
      exact (fork_forked sound unlimited notReplaying path boolean sensible returned).sides path
        boolean sensible
    · exact fork_total sound unlimited notReplaying path boolean sensible
  · intro conditions nonempty boolean feasible
    constructor
    · intro fuel executor' result returned
      exact branch_branches unlimited.maxForks path boolean (fun _ => feasible) returned
    · intro checked
      exact branch_total unlimited.maxForks path nonempty (fun c member => (boolean c member).1)
        checked feasible

section Example

open Symbolic.ConstraintManager (sampleCondition sampleCondition_wellFormed sampleCondition_eval)

open scoped Classical in
noncomputable def idealSolver : Solver where
  evaluate constraints e :=
    some (if ∀ ρ, Hold ρ constraints → e.eval ρ 1 = 1#1 then .isTrue
      else if ∀ ρ, Hold ρ constraints → e.eval ρ 1 = 0#1 then .isFalse
      else .unknown)
  mustBeTrue constraints e :=
    some (if ∀ ρ, Hold ρ constraints → e.eval ρ 1 = 1#1 then true else false)
  getValue constraints e :=
    if possible : ∃ ρ, Hold ρ constraints then some ⟨e.width, e.eval possible.choose e.width⟩
    else none

theorem idealSolver_sound : idealSolver.Sound where
  evaluate constraints e := by
    refine ⟨_, rfl, ?_⟩
    split
    · assumption
    · rename_i notTrue
      split
      · assumption
      · rename_i notFalse
        simp only [not_forall, exists_prop] at notTrue notFalse
        obtain ⟨ρ₀, hold₀, isFalse⟩ := notTrue
        obtain ⟨ρ₁, hold₁, isTrue⟩ := notFalse
        rw [BitVector.ne_one_iff_eq_zero] at isFalse
        rw [BitVector.ne_zero_iff_eq_one] at isTrue
        exact ⟨⟨ρ₁, hold₁, isTrue⟩, ρ₀, hold₀, isFalse⟩
  mustBeTrue constraints e := ⟨_, rfl, by simp⟩
  getValue constraints e possible := ⟨possible.choose, possible.choose_spec, dif_pos possible⟩

def sampleOptions : ForkOptions :=
  ⟨false, false, false, false, none, 0, none, false, fun _ => 0⟩

def sampleState : ExecutionState := ⟨0, 0, [], 0, false, .empty, [], []⟩

def sampleExecutor : Executor := ⟨[], 0, 0, 0, []⟩

theorem sampleCondition_possible (byte : BitVec 8) :
    ∃ ρ, Hold ρ sampleState.constraints ∧ sampleCondition.eval ρ 1 = BitVec.ofBool (3#8 == byte) :=
  ⟨_, nofun, sampleCondition_eval byte⟩

theorem idealSolver_unknown : idealSolver.evaluate [] sampleCondition = some .unknown := by
  obtain ⟨ρ₁, hold₁, isTrue⟩ := sampleCondition_possible 3
  obtain ⟨ρ₀, hold₀, isFalse⟩ := sampleCondition_possible 4
  simp only [idealSolver]
  rw [if_neg, if_neg]
  · intro never
    have contradictory := (never ρ₁ hold₁).symm.trans isTrue
    contradiction
  · intro always
    have contradictory := (always ρ₀ hold₀).symm.trans isFalse
    contradiction

theorem sampleState_evaluates : TimingSolver.evaluate ⟨false, true⟩ false idealSolver 30
    sampleState.constraints sampleCondition = pure (some .unknown) := by
  rw [← idealSolver_unknown]
  rfl

/-- Two conditions of which exactly one is true. -/
def sampleConditions : List Expr := [sampleCondition, .cmp .eq (.constant (.alloc 0 1)) sampleCondition]

theorem sampleConditions_width : ∀ c ∈ sampleConditions, c.width = 1 := by decide

theorem sampleConditions_wellFormed {guards : Guards} {c : Expr} (member : c ∈ sampleConditions) : c.WellFormed guards := by
  rcases mem_pair.mp member with rfl | rfl
  · exact sampleCondition_wellFormed
  · exact ⟨trivial, sampleCondition_wellFormed, rfl⟩

theorem sampleConditions_possible {c : Expr} (member : c ∈ sampleConditions) :
    ∃ ρ, Hold ρ sampleState.constraints ∧ c.eval ρ 1 = 1#1 := by
  obtain ⟨ρ₁, hold₁, isTrue⟩ := sampleCondition_possible 3
  obtain ⟨ρ₀, hold₀, isFalse⟩ := sampleCondition_possible 4
  rcases mem_pair.mp member with rfl | rfl
  · exact ⟨ρ₁, hold₁, isTrue⟩
  · refine ⟨ρ₀, hold₀, ?_⟩
    change (BitVec.ofBool (0#1 == sampleCondition.eval ρ₀ 1)).setWidth 1 = 1#1
    rw [isFalse]
    rfl

theorem fork_partitions_sample :
    (∃ fuel executor' first second,
      fork ⟨false, true⟩ sampleOptions idealSolver fuel sampleExecutor sampleState sampleCondition
          false = .ok (executor', first, second) ∧
        Side ⟨false, true⟩ sampleState sampleCondition 1#1 first ∧
        Side ⟨false, true⟩ sampleState sampleCondition 0#1 second) ∧
      ∃ fuel executor' result,
        branch ⟨false, true⟩ sampleOptions fuel sampleExecutor sampleState sampleConditions =
          .ok (executor', result) ∧
          Branches ⟨false, true⟩ sampleState sampleConditions result := by
  have unlimited : Unlimited sampleOptions sampleState := ⟨rfl, rfl, rfl, rfl, rfl, rfl⟩
  have partitions := fork_partitions (o := ⟨false, true⟩) idealSolver_sound sampleState
    sampleExecutor unlimited nofun
  have checked {c : Expr} (member : c ∈ sampleConditions) :
      Checked ⟨false, true⟩ sampleState.constraints c := by
    intro ρ _ e memberE
    cases mem_singleton.mp memberE
    exact sampleConditions_wellFormed member
  constructor
  · have member : sampleCondition ∈ sampleConditions := mem_cons_self
    obtain ⟨sides, returns⟩ := partitions.1 sampleCondition false ⟨.inl rfl, rfl⟩ rfl
      fun _ _ => sampleCondition_wellFormed
    obtain ⟨ρ, hold, -⟩ := sampleConditions_possible member
    obtain ⟨⟨executor', first, second⟩, returned⟩ := returns (checked member) ⟨ρ, hold⟩
    obtain ⟨fuel, returned⟩ := returned.some_fuel
    exact ⟨fuel, executor', first, second, returned, sides fuel executor' first second returned⟩
  · obtain ⟨branches, returns⟩ := partitions.2 sampleConditions nofun
      (fun c member => ⟨sampleConditions_width c member, fun _ _ => sampleConditions_wellFormed member⟩)
      (fun c member => sampleConditions_possible member)
    obtain ⟨⟨executor', result⟩, returned⟩ := returns fun c member => checked member
    obtain ⟨fuel, returned⟩ := returned.some_fuel
    exact ⟨fuel, executor', result, returned, branches fuel executor' result returned⟩

/-- A fork that follows a recorded path returns one side of a condition that may be
either, and `branch` does not return for a condition that is never true. -/
theorem recorded_fork_drops_side :
    (∃ executor' first,
      fork ⟨false, true⟩ { sampleOptions with replayPath := some [true] } idealSolver 30
          sampleExecutor sampleState sampleCondition false = .ok (executor', some first, none) ∧
        ¬ Side ⟨false, true⟩ sampleState sampleCondition 0#1 none) ∧
      ¬ ∃ result, Returns (fun fuel => branch ⟨false, true⟩ sampleOptions fuel sampleExecutor
        sampleState [.constant (.alloc 1 1), .constant (.alloc 0 1)]) result := by
  constructor
  · have concretized : concretize ⟨false, true⟩ { sampleOptions with replayPath := some [true] }
        idealSolver 30 sampleState sampleCondition = pure (sampleState, sampleCondition) := rfl
    refine ⟨{ sampleExecutor with replayPosition := 1 },
      { sampleState with constraints := [sampleCondition] }, ?_, ?_⟩
    · rw [fork, concretized, pure_bind]
      dsimp only
      rw [show sampleOptions.simplifyExprs = false from rfl, sampleState_evaluates, pure_bind]
      rfl
    · intro side
      obtain ⟨ρ₀, hold₀, isFalse⟩ := sampleCondition_possible 4
      have dropped := (side ρ₀ nofun).mpr ⟨hold₀, isFalse⟩
      simp at dropped
  · intro returns
    obtain ⟨result, returns⟩ := returns
    obtain ⟨fuel, returned⟩ := returns.some_fuel
    cases returned

end Example

end Executor

end NeuroMerge.Execution
