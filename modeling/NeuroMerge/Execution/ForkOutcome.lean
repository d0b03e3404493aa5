import NeuroMerge.Execution.ForkProperties

/-!
# Forking on a possible condition

What becomes of a path condition that is well formed and possible when a constraint
that may be true is added to it, and which ways a fork on such a condition can end.
-/

namespace NeuroMerge.Execution

open Symbolic TimingSolver
open Symbolic.ConstraintManager (Hold Fails Lasting)
open Executor (Checked)

variable {ρ : Assignment} {o : Options} {fuel : Nat} {options : ForkOptions} {solver : Solver}
  {constraints : List Expr} {e : Expr} {executor executor' : Executor} {state state' : ExecutionState}

/-- Under an assignment all constraints are true, or one of them is false, with the
reads of constant arrays in bounds in either case; and where they are true no divisor
is zero. -/
structure Sane (o : Options) (constraints : List Expr) : Prop where
  possible : ∃ ρ, Hold ρ constraints
  decided : ∀ ρ, (∀ c ∈ constraints, Denotes (.bounded o ρ) ρ c 1#1) ∨
    Fails (.bounded o ρ) ρ constraints
  safe : ∀ ρ, Hold ρ constraints → ∀ c ∈ constraints, c.WellFormed (.safe o ρ)

theorem Sane.nil : Sane o [] :=
  ⟨⟨fun _ _ => 0, nofun⟩, fun _ => .inl nofun, fun _ _ => nofun⟩

theorem stricter_safe : (Guards.safe o ρ).Stricter (Guards.bounded o ρ) where
  readable := id
  divisible _ := trivial

section

variable (sane : Sane o constraints)
include sane

theorem Sane.denotes (hold : Hold ρ constraints) : ∀ c ∈ constraints, Denotes (.bounded o ρ) ρ c 1#1 :=
  (sane.decided ρ).resolve_right fun fails => fails.not_hold hold

theorem Sane.sensible (safe : ∀ ρ, Hold ρ constraints → e.WellFormed (.bounded o ρ)) : Sensible o constraints e := by
  intro ρ within
  by_cases enabled : o.constArrayOpt = true
  · exact safe ρ (within enabled)
  · obtain ⟨ρ₀, hold⟩ := sane.possible
    exact (safe ρ₀ hold).mono (Guards.stricter_bounded enabled)

theorem Sane.path : PathCondition o constraints := by
  obtain ⟨ρ₀, hold₀⟩ := sane.possible
  intro c member
  exact ⟨(sane.denotes hold₀ c member).width, sane.sensible fun ρ hold => (sane.denotes hold c member).wellFormed⟩

theorem Sane.checked (safe : ∀ ρ, Hold ρ constraints → e.WellFormed (.safe o ρ)) : Checked o constraints e := by
  intro ρ hold c member
  cases member with
  | head => exact safe ρ hold
  | tail _ old => exact sane.safe ρ hold c old

end

/-- A state whose path condition is that of another one and a further condition. -/
structure Takes (o : Options) (state : ExecutionState) (condition : Assignment → Prop)
    (state' : ExecutionState) : Prop where
  sane : Sane o state'.constraints
  hold_iff : ∀ ρ, Hold ρ state'.constraints ↔ Hold ρ state.constraints ∧ condition ρ
  rest : state' = { state with constraints := state'.constraints }

theorem Sane.addConstraint (sane : Sane o state.constraints) (boolean : e.width = 1)
    (safe : ∀ ρ, Hold ρ state.constraints → e.WellFormed (.safe o ρ)) (feasible : ∃ ρ, Hold ρ state.constraints ∧ e.eval ρ 1 = 1#1)
    (returned : Executor.addConstraint o fuel state e = .ok state') : Takes o state (fun ρ => e.eval ρ 1 = 1#1) state' := by
  obtain ⟨ρ₀, hold₀, isTrue₀⟩ := feasible
  rw [Executor.addConstraint.eq_def] at returned
  split at returned
  · rename_i ce isConstant
    obtain ⟨_, isTrue, returned⟩ := bind_eq_ok_iff.mp returned
    cases returned
    have holds (ρ : Assignment) : e.eval ρ 1 = 1#1 :=
      (isTrue_iff_of_constant isConstant boolean).mp ((isTrue_iff_of_constant isConstant boolean).mpr isTrue₀)
    exact ⟨sane, fun ρ => (and_iff_left (holds ρ)).symm, rfl⟩
  · obtain ⟨result, added, returned⟩ := bind_eq_ok_iff.mp returned
    cases returned
    have lasting := Lasting.holds (o := o) Guards.allows_bounded (Guards.extensional_bounded (ρ := ρ₀))
    have valid : Denotes (.bounded o ρ₀) ρ₀ e 1#1 := ⟨(safe ρ₀ hold₀).mono stricter_safe, boolean, isTrue₀⟩
    have fails (ρ : Assignment) (reason : Fails (.bounded o ρ) ρ state.constraints ∨
        (∀ c ∈ state.constraints, Denotes (.bounded o ρ) ρ c 1#1) ∧ Denotes (.bounded o ρ) ρ e 0#1) : Fails (.bounded o ρ) ρ result :=
      (ConstraintManager.addConstraint_fails lasting.steady Guards.allows_bounded Guards.extensional_bounded (sane.denotes hold₀)
        (lasting.simplifies fuel (sane.denotes hold₀) valid) reason).elim added
    have decides (ρ : Assignment) :
        (Hold ρ state.constraints ∧ e.eval ρ 1 = 1#1 ∧
            ∀ c ∈ result, Denotes (.bounded o ρ) ρ c 1#1) ∨
          (¬ (Hold ρ state.constraints ∧ e.eval ρ 1 = 1#1) ∧ Fails (.bounded o ρ) ρ result) := by
      cases sane.decided ρ with
      | inr old => exact .inr ⟨fun both => old.not_hold both.1, fails ρ (.inl old)⟩
      | inl all =>
        have hold : Hold ρ state.constraints := fun c member => (all c member).value
        have wellFormed := (safe ρ hold).mono stricter_safe
        by_cases isTrue : e.eval ρ 1 = 1#1
        · exact .inl ⟨hold, isTrue, (ConstraintManager.addConstraint_true Guards.allows_bounded Guards.extensional_bounded all
            ⟨wellFormed, boolean, isTrue⟩).elim added⟩
        · exact .inr ⟨fun both => isTrue both.2, fails ρ (.inr ⟨all, wellFormed, boolean, (BitVector.ne_one_iff_eq_zero _).mp isTrue⟩)⟩
    have hold_iff (ρ : Assignment) : Hold ρ result ↔ Hold ρ state.constraints ∧ e.eval ρ 1 = 1#1 := by
      cases decides ρ with
      | inl all => exact ⟨fun _ => ⟨all.1, all.2.1⟩, fun _ c member => (all.2.2 c member).value⟩
      | inr not => exact ⟨fun hold => absurd hold not.2.not_hold, fun both => absurd both not.1⟩
    refine ⟨⟨⟨ρ₀, (hold_iff ρ₀).mpr ⟨hold₀, isTrue₀⟩⟩, ?_, ?_⟩, hold_iff, rfl⟩
    · intro ρ
      exact (decides ρ).imp (fun all => all.2.2) And.right
    · intro ρ hold
      obtain ⟨old, isTrue⟩ := (hold_iff ρ).mp hold
      have all := (ConstraintManager.addConstraint_true Guards.allows_safe
        Guards.extensional_safe ((sane.checked safe).denotes sane.path old)
        ⟨safe ρ old, boolean, isTrue⟩).elim added
      exact fun c member => (all c member).wellFormed

/-!
## What is asked of the solver
-/

section Queries

structure Solver.Correct (solver : Solver) : Prop where
  mustBeTrue : ∀ {constraints e answer}, solver.mustBeTrue constraints e = some answer →
    (answer = true ↔ ∀ ρ, Hold ρ constraints → e.eval ρ 1 = 1#1)
  getValue : ∀ {constraints e value}, (∃ ρ, Hold ρ constraints) →
    solver.getValue constraints e = some value →
    ∃ ρ, Hold ρ constraints ∧ value = ⟨e.width, e.eval ρ e.width⟩

theorem Solver.Sound.correct (sound : solver.Sound) : solver.Correct where
  mustBeTrue := by
    intro constraints e answer answered
    obtain ⟨expected, answers, right⟩ := sound.mustBeTrue constraints e
    cases answered.symm.trans answers
    exact right
  getValue := by
    intro constraints e value possible answered
    obtain ⟨ρ, hold, answers⟩ := sound.getValue constraints e possible
    exact ⟨ρ, hold, Option.some.inj (answered.symm.trans answers)⟩

variable {w : Nat} {value : Assignment → BitVec w} {simplifyExprs : Bool}

/-- The expression has the value wherever the constraints hold, and no divisor in it is
zero there. -/
def Means (o : Options) (constraints : List Expr) (e : Expr) (value : Assignment → BitVec w) :
    Prop :=
  ∀ ρ, Hold ρ constraints → Denotes (.safe o ρ) ρ e (value ρ)

section

variable (means : Means o constraints e value)
include means

theorem Means.width (sane : Sane o constraints) : e.width = w := by
  obtain ⟨ρ, hold⟩ := sane.possible
  exact (means ρ hold).width

theorem Means.safe (hold : Hold ρ constraints) : e.WellFormed (.safe o ρ) :=
  (means ρ hold).wellFormed

theorem Means.sensible (sane : Sane o constraints) : Sensible o constraints e :=
  sane.sensible fun _ hold => (means.safe hold).mono stricter_safe

end

theorem Means.of_builds {computation : Except Fault Expr} (sane : Sane o constraints)
    (builds : ∀ ρ, Hold ρ constraints → Builds (.safe o ρ) ρ (value ρ) computation) :
    Satisfies (· = .outOfFuel) (fun e => Means o constraints e value) computation := by
  obtain ⟨ρ₀, hold₀⟩ := sane.possible
  apply ((only_outOfFuel (builds ρ₀ hold₀)).and .self).mono
  intro e facts ρ hold
  have built : Satisfies _ _ computation := builds ρ hold
  exact built.elim facts.2

theorem query_spec (sane : Sane o constraints) (means : Means o constraints e value) :
    Satisfies (· = .outOfFuel) (fun e' => ∀ ρ, Hold ρ constraints → Denotes (.bounded o ρ) ρ e' (value ρ))
      (query o simplifyExprs fuel constraints e) := by
  obtain ⟨ρ₀, hold₀⟩ := sane.possible
  have checked : Checked o constraints e := sane.checked fun _ hold => means.safe hold
  have total : Satisfies (· = .outOfFuel) (fun _ => True) (query o simplifyExprs fuel constraints e) := by
    rw [query]
    split
    · apply (only_outOfFuel (ConstraintManager.simplifyExpr_agrees Guards.allows_safe
        Guards.extensional_safe (checked.denotes sane.path hold₀) (means.safe hold₀))).mono
      exact fun _ _ => trivial
    · trivial
  apply (total.and .self).mono
  intro e' facts ρ hold
  have denotes := query_denotes sane.path (means.sensible sane) facts.2 hold
  obtain ⟨-, width, rightValue⟩ := means ρ hold
  subst width
  rw [← rightValue]
  exact denotes

theorem getValue_answers (correct : solver.Correct) (sane : Sane o constraints) (means : Means o constraints e value) :
    Satisfies (· = .outOfFuel)
      (fun answer => match answer with
        | none => ¬ solver.Sound
        | some found => ∃ ρ, Hold ρ constraints ∧ found = ⟨w, value ρ⟩)
      (TimingSolver.getValue o simplifyExprs solver fuel constraints e) := by
  rw [TimingSolver.getValue]
  split
  · rename_i ce isConstant
    rw [Expr.constant?_eq_some] at isConstant
    subst isConstant
    obtain ⟨ρ, hold⟩ := sane.possible
    exact ⟨ρ, hold, (means ρ hold).of_constant⟩
  · apply Satisfies.bind (query_spec sane means)
    intro e' denotes
    cases answered : solver.getValue constraints e' with
    | none =>
      intro sound
      obtain ⟨ρ, -, answers⟩ := sound.getValue constraints e' sane.possible
      rw [answered] at answers
      cases answers
    | some found =>
      obtain ⟨ρ, hold, right⟩ := correct.getValue sane.possible answered
      refine ⟨ρ, hold, ?_⟩
      obtain ⟨-, width, rightValue⟩ := denotes ρ hold
      subst width
      rw [← rightValue]
      exact right

theorem getValue_spec (sound : solver.Sound) (sane : Sane o constraints) (means : Means o constraints e value) :
    Satisfies (· = .outOfFuel) (fun answer => ∃ ρ, Hold ρ constraints ∧ answer = some ⟨w, value ρ⟩)
      (TimingSolver.getValue o simplifyExprs solver fuel constraints e) := by
  apply (getValue_answers sound.correct sane means).mono
  intro answer right
  cases answer with
  | none => exact absurd sound right
  | some found =>
    obtain ⟨ρ, hold, rfl⟩ := right
    exact ⟨ρ, hold, rfl⟩

theorem getValue_halts (constraints : List Expr) (e : Expr) :
    Halts .outOfFuel fun fuel => TimingSolver.getValue o simplifyExprs solver fuel constraints e := by
  cases isConstant : e.constant? with
  | some ce =>
    simp only [TimingSolver.getValue, isConstant]
    exact .pure _
  | none =>
    simp only [TimingSolver.getValue, query, isConstant]
    apply Halts.bind
    · exact .ite (fun _ => ConstraintManager.simplifyExpr_ends constraints e) fun _ => .pure e
    · exact fun _ _ => .pure _

end Queries

/-!
## How a fork ends
-/

section Fork

variable {bit : Assignment → BitVec 1}

theorem Sane.addConstraint_spec (sane : Sane o state.constraints) (means : Means o state.constraints e bit)
    (feasible : ∃ ρ, Hold ρ state.constraints ∧ bit ρ = 1#1) :
    Satisfies (· = .outOfFuel) (Takes o state fun ρ => bit ρ = 1#1) (Executor.addConstraint o fuel state e) := by
  obtain ⟨ρ₀, hold₀, isTrue₀⟩ := feasible
  have boolean : e.width = 1 := means.width sane
  have eval {ρ : Assignment} (hold : Hold ρ state.constraints) : e.eval ρ 1 = bit ρ := (means ρ hold).value
  apply ((Executor.addConstraint_total sane.path boolean
    (sane.checked fun _ hold => means.safe hold) hold₀ ((eval hold₀).trans isTrue₀)).and .self).mono
  intro state' facts
  have takes := sane.addConstraint boolean (fun _ hold => means.safe hold) ⟨ρ₀, hold₀, (eval hold₀).trans isTrue₀⟩ facts.2
  refine ⟨takes.sane, ?_, takes.rest⟩
  intro ρ
  rw [takes.hold_iff ρ]
  exact and_congr_right fun hold => by rw [eval hold]

theorem Takes.self {condition : Assignment → Prop} (sane : Sane o state.constraints)
    (always : ∀ ρ, Hold ρ state.constraints → condition ρ) : Takes o state condition state :=
  ⟨sane, fun ρ => ⟨fun hold => ⟨hold, always ρ hold⟩, And.left⟩, rfl⟩

theorem createIsZero_spec (sane : Sane o constraints) (means : Means o constraints e bit) :
    Satisfies (· = .outOfFuel) (fun isZero => Means o constraints isZero fun ρ => ~~~ bit ρ) (createIsZero o fuel e) :=
  Means.of_builds sane fun ρ hold => createIsZero_builds Guards.allows_safe (means ρ hold)

/-- That many forks with two sides can follow each other. -/
structure Affords (options : ForkOptions) (executor : Executor) (state : ExecutionState)
    (forks : Nat) : Prop where
  staticLimit : options.staticLimit = false
  atMemoryLimit : options.atMemoryLimit = false
  inhibitForking : options.inhibitForking = false
  forkDisabled : state.forkDisabled = false
  replayKTest : options.replayKTest = false
  maxForks : ∀ limit ∈ options.maxForks, executor.forks + forks ≤ limit
  maxDepth : options.maxDepth = 0 ∨ state.depth + forks < options.maxDepth

/-- Both sides are possible, but there cannot be a state for each. -/
def Limited (options : ForkOptions) (executor : Executor) (state : ExecutionState)
    (bit : Assignment → BitVec 1) : Prop :=
  (∃ ρ, Hold ρ state.constraints ∧ bit ρ = 0#1) ∧ ¬ Affords options executor state 1

inductive ForkOutcome (o : Options) (options : ForkOptions) (executor : Executor)
    (state : ExecutionState) (bit : Assignment → BitVec 1) :
    Executor × Option ExecutionState × Option ExecutionState → Prop where
  | whole {first : ExecutionState} (always : ∀ ρ, Hold ρ state.constraints → bit ρ = 1#1)
      (takes : Takes o state (fun ρ => bit ρ = 1#1) first) :
      ForkOutcome o options executor state bit (executor, some first, none)
  | both {first second : ExecutionState} (isTrue : ∃ ρ, Hold ρ state.constraints ∧ bit ρ = 1#1)
      (isFalse : ∃ ρ, Hold ρ state.constraints ∧ bit ρ = 0#1)
      (affords : Affords options executor state 1)
      (takesTrue : Takes o state.branch.1 (fun ρ => bit ρ = 1#1) first)
      (takesFalse : Takes o state.branch.2 (fun ρ => bit ρ = 0#1) second) :
      ForkOutcome o options executor state bit
        ({ executor with forks := executor.forks + 1 }, some first, some second)
  | onlyTrue {first : ExecutionState} (limited : Limited options executor state bit)
      (takes : Takes o state (fun ρ => bit ρ = 1#1) first) :
      ForkOutcome o options executor state bit (executor, some first, none)
  | onlyFalse {second : ExecutionState}
      (limited : (∃ ρ, Hold ρ state.constraints ∧ bit ρ = 1#1) → Limited options executor state bit)
      (takes : Takes o state (fun ρ => bit ρ = 0#1) second) :
      ForkOutcome o options executor state bit (executor, none, some second)
  | neither {executor' : Executor} (limited : Limited options executor state bit)
      (heap : executor'.heap = executor.heap) :
      ForkOutcome o options executor state bit (executor', none, none)

theorem evaluate_spec {simplifyExprs : Bool} (sound : solver.Sound) (sane : Sane o constraints) (means : Means o constraints e bit) :
    Satisfies (· = .outOfFuel) (fun answer => ∃ res, answer = some res ∧ res.Answers constraints e)
      (evaluate o simplifyExprs solver fuel constraints e) := by
  obtain ⟨ρ, hold⟩ := sane.possible
  apply ((Executor.evaluate_total sane.path (sane.checked fun _ hold => means.safe hold) hold).and .self).mono
  intro answer facts
  exact evaluate_answers sound sane.path (means.width sane) (means.sensible sane) facts.2

theorem concretize_spec (sound : solver.Sound) (sane : Sane o state.constraints) (means : Means o state.constraints e bit) :
    Satisfies (· = .outOfFuel)
      (fun result => result = (state, e) ∧ (options.staticLimit = false ∨ e.constant? ≠ none) ∨
        options.staticLimit = true ∧ ∃ ρ₀, Hold ρ₀ state.constraints ∧
          result.2 = .constant ⟨1, bit ρ₀⟩ ∧ Takes o state (fun ρ => bit ρ = bit ρ₀) result.1)
      (Executor.concretize o options solver fuel state e) := by
  rw [Executor.concretize]
  split
  · rename_i static
    apply Satisfies.bind (getValue_spec sound sane means)
    rintro answer ⟨ρ₀, hold₀, rfl⟩
    have equals : Satisfies (· = .outOfFuel) (fun equality =>
          Means o state.constraints equality fun ρ => BitVec.ofBool (bit ρ₀ == bit ρ))
        (EqExpr.create o fuel (.constant ⟨1, bit ρ₀⟩) e) :=
      Means.of_builds sane fun ρ hold =>
        EqExpr.create_builds Guards.allows_safe (Denotes.constant ⟨1, bit ρ₀⟩) (means ρ hold)
    apply Satisfies.bind equals
    intro equality meansEquality
    apply Satisfies.bind (sane.addConstraint_spec meansEquality ⟨ρ₀, hold₀, by simp⟩)
    intro s takes
    refine .inr ⟨static.1, ρ₀, hold₀, rfl, takes.sane, ?_, takes.rest⟩
    intro ρ
    rw [takes.hold_iff ρ]
    exact and_congr_right fun _ => by rw [BitVector.ofBool_eq_one, beq_iff_eq, eq_comm]
  · rename_i unchanged
    refine .inl ⟨rfl, ?_⟩
    by_cases static : options.staticLimit = true
    · exact .inr fun isNone => unchanged ⟨static, isNone⟩
    · exact .inl (by simpa using static)

theorem restrict_decided (res : Validity) (decided : res ≠ .unknown) :
    Executor.restrict o options fuel executor state e true res = pure (executor, state, res) := by
  cases path : options.replayPath <;> simp [Executor.restrict, path, decided]

theorem commit_spec (sane : Sane o state.constraints) (means : Means o state.constraints e bit)
    (isTrue : ∃ ρ, Hold ρ state.constraints ∧ bit ρ = 1#1) (isFalse : ∃ ρ, Hold ρ state.constraints ∧ bit ρ = 0#1) (branch : Bool) :
    Satisfies (· = .outOfFuel)
      (fun result => ∃ s, result = (executor, s, if branch then .isTrue else .isFalse) ∧
        Takes o state (fun ρ => bit ρ = BitVec.ofBool branch) s) (Executor.commit o fuel executor state e branch) := by
  cases branch with
  | true =>
    apply Satisfies.bind (sane.addConstraint_spec means isTrue)
    exact fun s takes => ⟨s, rfl, takes⟩
  | false =>
    apply Satisfies.bind (createIsZero_spec sane means)
    intro isZero negated
    have flipped : ∀ b : BitVec 1, ~~~ b = 1#1 ↔ b = 0#1 := by decide
    apply Satisfies.bind (sane.addConstraint_spec negated (by simpa only [flipped] using isFalse))
    intro s takes
    simp only [flipped] at takes
    exact ⟨s, rfl, takes⟩

theorem restrict_unknown :
    Executor.restrict o options fuel executor state e true .unknown = (do
      require (options.replayKTest = false) .forkInReplay
      if options.atMemoryLimit = true ∨ state.forkDisabled = true ∨ options.inhibitForking = true ∨
          (∃ limit ∈ options.maxForks, limit ≤ executor.forks) then
        Executor.commit o fuel executor state e (options.random 0 % 2 = 1) else pure (executor, state, .unknown)) := by
  cases path : options.replayPath <;> simp only [Executor.restrict, path, if_true]

theorem restrict_spec (sane : Sane o state.constraints) (means : Means o state.constraints e bit)
    (isTrue : ∃ ρ, Hold ρ state.constraints ∧ bit ρ = 1#1)
    (isFalse : ∃ ρ, Hold ρ state.constraints ∧ bit ρ = 0#1) (static : options.staticLimit = false) :
    Satisfies
      (fun fault => fault = .outOfFuel ∨
        options.replayKTest = true ∧ Limited options executor state bit)
      (fun result => result = (executor, state, .unknown) ∧
          (options.maxDepth = 0 ∨ state.depth + 1 < options.maxDepth →
            Affords options executor state 1) ∨
        Limited options executor state bit ∧ ∃ (branch : Bool) (s : ExecutionState),
          result = (executor, s, if branch then .isTrue else .isFalse) ∧
          Takes o state (fun ρ => bit ρ = BitVec.ofBool branch) s) (Executor.restrict o options fuel executor state e true .unknown) := by
  rw [restrict_unknown]
  apply require_satisfies
  · intro notReplayed
    split
    · rename_i limited
      apply ((commit_spec sane means isTrue isFalse _).weaken fun _ => Or.inl).mono
      rintro result ⟨s, rfl, takes⟩
      refine .inr ⟨⟨isFalse, fun affords => ?_⟩, _, s, rfl, takes⟩
      obtain atLimit | disabled | inhibited | ⟨limit, member, reached⟩ := limited
      · simp [affords.atMemoryLimit] at atLimit
      · simp [affords.forkDisabled] at disabled
      · simp [affords.inhibitForking] at inhibited
      · have within := affords.maxForks limit member
        omega
    · rename_i free
      simp only [not_or, Bool.not_eq_true, not_exists, not_and, Nat.not_le] at free
      obtain ⟨atMemoryLimit, forkDisabled, inhibitForking, maxForks⟩ := free
      exact .inl ⟨rfl, fun maxDepth =>
        ⟨static, atMemoryLimit, inhibitForking, forkDisabled, notReplayed, maxForks, maxDepth⟩⟩
  · intro replayed
    exact .inr ⟨by simpa using replayed, isFalse, fun affords => replayed affords.replayKTest⟩

theorem fork_outcome (sound : solver.Sound) (sane : Sane o state.constraints) (means : Means o state.constraints e bit) :
    Satisfies
      (fun fault => fault = .outOfFuel ∨
        options.replayKTest = true ∧ Limited options executor state bit) (ForkOutcome o options executor state bit)
      (Executor.fork o options solver fuel executor state e true) := by
  have value {ρ : Assignment} (hold : Hold ρ state.constraints) : e.eval ρ 1 = bit ρ := (means ρ hold).value
  apply Satisfies.bind_left (concretize_spec sound sane means)
  rintro ⟨s, c⟩ (⟨same, free⟩ | ⟨static, ρ₀, hold₀, rfl, takes⟩)
  · cases same
    apply Satisfies.bind_left (evaluate_spec sound sane means)
    rintro answer ⟨res, rfl, answers⟩
    cases res with
    | isTrue =>
      have always (ρ : Assignment) (hold : Hold ρ state.constraints) : bit ρ = 1#1 := (value hold).symm.trans (answers ρ hold)
      dsimp only
      rw [restrict_decided .isTrue (by simp), pure_bind]
      exact .whole always (.self sane always)
    | isFalse =>
      have never (ρ : Assignment) (hold : Hold ρ state.constraints) : bit ρ = 0#1 := (value hold).symm.trans (answers ρ hold)
      dsimp only
      rw [restrict_decided .isFalse (by simp), pure_bind]
      refine .onlyFalse ?_ (.self sane never)
      rintro ⟨ρ, hold, isTrue⟩
      rw [never ρ hold] at isTrue
      contradiction
    | unknown =>
      obtain ⟨⟨ρ₁, hold₁, evalTrue⟩, ρ₀, hold₀, evalFalse⟩ := answers
      have isTrue : ∃ ρ, Hold ρ state.constraints ∧ bit ρ = 1#1 := ⟨ρ₁, hold₁, (value hold₁).symm.trans evalTrue⟩
      have isFalse : ∃ ρ, Hold ρ state.constraints ∧ bit ρ = 0#1 := ⟨ρ₀, hold₀, (value hold₀).symm.trans evalFalse⟩
      have static : options.staticLimit = false := by
        refine free.resolve_right fun isConstant => ?_
        obtain ⟨ce, isConstant⟩ := Option.ne_none_iff_exists'.mp isConstant
        rw [Expr.constant?_eq_some] at isConstant
        subst isConstant
        obtain ⟨ρ₁, hold₁, isTrue⟩ := isTrue
        obtain ⟨ρ₀, hold₀, isFalse⟩ := isFalse
        have same : (⟨1, bit ρ₁⟩ : ConstantExpr) = ⟨1, bit ρ₀⟩ := (means ρ₁ hold₁).of_constant.symm.trans (means ρ₀ hold₀).of_constant
        have bits : bit ρ₁ = bit ρ₀ := eq_of_heq (ConstantExpr.mk.inj same).2
        rw [isTrue, isFalse] at bits
        contradiction
      apply Satisfies.bind (restrict_spec sane means isTrue isFalse static)
      rintro result (⟨rfl, affords⟩ | ⟨limited, branch, s, rfl, takes⟩)
      · have sides : Sane o state.branch.1.constraints ∧ Sane o state.branch.2.constraints := ⟨sane, sane⟩
        have meansTrue : Means o state.branch.1.constraints e bit := means
        have flipped : ∀ b : BitVec 1, ~~~ b = 1#1 ↔ b = 0#1 := by decide
        apply Satisfies.bind_left (sides.1.addConstraint_spec meansTrue isTrue)
        intro trueState takesTrue
        apply Satisfies.bind_left (createIsZero_spec sane means)
        intro isZero negated
        have meansFalse : Means o state.branch.2.constraints isZero fun ρ => ~~~ bit ρ := negated
        have possibleFalse : ∃ ρ, Hold ρ state.branch.2.constraints ∧ ~~~ bit ρ = 1#1 := by
          simp only [flipped]
          exact isFalse
        apply Satisfies.bind_left (sides.2.addConstraint_spec meansFalse possibleFalse)
        intro falseState takesFalse
        simp only [flipped] at takesFalse
        have depth : trueState.depth = state.depth + 1 := by rw [takesTrue.rest]; rfl
        split
        · rename_i deep
          refine .neither ⟨isFalse, fun affords => ?_⟩ rfl
          obtain unlimited | shallow := affords.maxDepth
          · exact deep.1 unlimited
          · omega
        · rename_i shallow
          exact .both isTrue isFalse (affords (by omega)) takesTrue takesFalse
      · cases branch with
        | true => exact .onlyTrue limited takes
        | false => exact .onlyFalse (fun _ => limited) takes
  · have notAffords : ¬ Affords options executor state 1 := by
      intro affords
      rw [affords.staticLimit] at static
      contradiction
    have evaluated : evaluate o options.simplifyExprs solver fuel s.constraints
        (.constant ⟨1, bit ρ₀⟩) = pure (some (if bit ρ₀ = 1#1 then .isTrue else .isFalse)) := by
      simp [evaluate, Expr.constant?]
    dsimp only
    rw [evaluated, pure_bind]
    by_cases isTrue : bit ρ₀ = 1#1
    · rw [if_pos isTrue]
      dsimp only
      rw [restrict_decided .isTrue (by simp), pure_bind]
      rw [isTrue] at takes
      by_cases always : ∀ ρ, Hold ρ state.constraints → bit ρ = 1#1
      · exact .whole always takes
      · simp only [not_forall, BitVector.ne_one_iff_eq_zero] at always
        obtain ⟨ρ, hold, isFalse⟩ := always
        exact .onlyTrue ⟨⟨ρ, hold, isFalse⟩, notAffords⟩ takes
    · rw [if_neg isTrue]
      dsimp only
      rw [restrict_decided .isFalse (by simp), pure_bind]
      rw [BitVector.ne_one_iff_eq_zero] at isTrue
      rw [isTrue] at takes
      exact .onlyFalse (fun _ => ⟨⟨ρ₀, hold₀, isTrue⟩, notAffords⟩) takes

theorem concretize_halts (state : ExecutionState) (e : Expr) :
    Halts .outOfFuel fun fuel => Executor.concretize o options solver fuel state e := by
  by_cases static : options.staticLimit = true ∧ e.constant? = none
  · simp only [Executor.concretize, if_pos static]
    apply (getValue_halts state.constraints e).bind
    intro answer _
    cases answer with
    | none => exact .error _ (by simp)
    | some value =>
      apply (EqExpr.create_ends (.constant value) e).bind
      intro equality _
      apply (Executor.addConstraint_halts state equality).bind
      exact fun _ _ => .pure _
  · simp only [Executor.concretize, if_neg static]
    exact .pure _

theorem commit_halts (branch : Bool) : Halts .outOfFuel fun fuel => Executor.commit o fuel executor state e branch := by
  cases branch with
  | true => exact (Executor.addConstraint_halts state e).bind fun _ _ => .pure _
  | false =>
    apply (createIsZero_ends e).bind
    intro isZero _
    exact (Executor.addConstraint_halts state isZero).bind fun _ _ => .pure _

theorem restrict_halts (res : Validity) : Halts .outOfFuel fun fuel => Executor.restrict o options fuel executor state e true res := by
  by_cases decided : res = .unknown
  · subst decided
    apply Halts.congr fun fuel => restrict_unknown
    by_cases notReplayed : options.replayKTest = false
    · simp only [require, if_pos notReplayed, pure_bind]
      exact .ite (fun _ => commit_halts _) fun _ => .pure _
    · simp only [require, if_neg notReplayed]
      exact .error _ (by simp)
  · simp only [restrict_decided res decided]
    exact .pure _

theorem internalFork_halts : Halts .outOfFuel fun fuel => Executor.fork o options solver fuel executor state e true := by
  apply (concretize_halts state e).bind
  intro concretized _
  apply (Executor.evaluate_halts concretized.1.constraints concretized.2).bind
  intro answer _
  cases answer with
  | none => exact .pure _
  | some res =>
    apply (restrict_halts res).bind
    intro restricted _
    obtain ⟨executor, current, res⟩ := restricted
    cases res with
    | isTrue => exact .pure _
    | isFalse => exact .pure _
    | unknown =>
      apply (Executor.addConstraint_halts current.branch.1 concretized.2).bind
      intro trueState _
      apply (createIsZero_ends concretized.2).bind
      intro isZero _
      apply (Executor.addConstraint_halts current.branch.2 isZero).bind
      intro falseState _
      exact .ite (fun _ => .pure _) fun _ => .pure _

end Fork

end NeuroMerge.Execution
