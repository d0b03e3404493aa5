import NeuroMerge.Symbolic.Typing

/-!
# Path conditions

What a set of constraints decides under one assignment, and what it decides once
more constraints have been added one after the other.
-/

namespace NeuroMerge.Symbolic.ConstraintManager

variable {guards : Guards} {ρ : Assignment} {o : Options} {fuel : Nat} {valid : Expr → Prop}
  {constraints result : List Expr} {e : Expr} {P : Prop}

/-- What all constraints are, and still are after others have been added. -/
structure Lasting (o : Options) (valid : Expr → Prop) : Prop where
  steady : Steady o (fun _ => True) valid
  simplifies : ∀ {constraints : List Expr} {e : Expr} (fuel : Nat), (∀ c ∈ constraints, valid c) →
    valid e → Satisfies (fun _ => True) valid (simplifyExpr o fuel constraints e)

theorem Steady.tolerant {tolerated : Fault → Prop} (steady : Steady o tolerated valid) : Steady o (fun _ => True) valid where
  outOfFuel := trivial
  constant _ := .inr trivial
  conjuncts := steady.conjuncts
  equal := steady.equal
  rewrites fuel holds validOld := (steady.rewrites fuel holds validOld).weaken fun _ _ => trivial

namespace Lasting

theorem holds (allowed : o.Allows guards ρ) (extensional : guards.Extensional ρ) : Lasting o fun c => Denotes guards ρ c 1#1 where
  steady := (steady_true allowed extensional).tolerant
  simplifies _ hold holds :=
    ((simplifyExpr_agrees allowed extensional hold holds.wellFormed).weaken fun _ _ => trivial).mono fun _ agrees => holds.agrees agrees

theorem typed (allowed : o.Allows guards ρ) (free : guards.Free) : Lasting o (Constraint guards) where
  steady := steady_typed allowed free
  simplifies _ hold holds := (simplifyExpr_typed allowed free hold holds.1).mono fun _ same =>
      ⟨same.1, same.2.trans holds.2⟩

theorem addConstraint (lasting : Lasting o valid) (hold : ∀ c ∈ constraints, valid c) (holds : valid e) :
    Satisfies (fun _ => True) (fun result => ∀ c ∈ result, valid c) (addConstraint o fuel constraints e) := by
  apply (lasting.simplifies fuel hold holds).bind
  intro simplified validSimplified
  exact lasting.steady.addConstraintInternal fuel constraints simplified hold validSimplified

end Lasting

/-- Under the assignment all of the constraints hold if `P` does, and otherwise
one of them is false. -/
def Decides (guards : Guards) (ρ : Assignment) (constraints : List Expr) (P : Prop) : Prop :=
  (P ∧ ∀ c ∈ constraints, Denotes guards ρ c 1#1) ∨ (¬ P ∧ Fails guards ρ constraints)

namespace Decides

theorem hold_iff (decides : Decides guards ρ constraints P) : Hold ρ constraints ↔ P := by
  cases decides with
  | inl both => exact ⟨fun _ => both.1, fun _ c member => (both.2 c member).value⟩
  | inr fails => exact ⟨fun hold => absurd hold fails.2.not_hold, fun holds => absurd holds fails.1⟩

theorem congr {Q : Prop} (decides : Decides guards ρ constraints P) (same : P ↔ Q) : Decides guards ρ constraints Q := by
  rwa [Decides, ← same]

theorem of_constraints (valid : ∀ c ∈ constraints, Constraint guards c) : Decides guards ρ constraints (Hold ρ constraints) := by
  cases hold_or_fails (ρ := ρ) (fun c member => (valid c member).2) (fun c member => (valid c member).1) with
  | inl hold => exact .inl ⟨fun c member => (hold c member).value, hold⟩
  | inr fails => exact .inr ⟨fails.not_hold, fails⟩

theorem nil : Decides guards ρ [] True := .inl ⟨trivial, nofun⟩

theorem addConstraint (lasting : Lasting o valid) (allowed : o.Allows guards ρ)
    (extensional : guards.Extensional ρ) (validOld : ∀ c ∈ constraints, valid c) (validNew : valid e)
    (decides : Decides guards ρ constraints P) (constraint : Constraint guards e) :
    Satisfies (fun _ => True) (fun result => Decides guards ρ result (P ∧ e.eval ρ 1 = 1#1) ∧ ∀ c ∈ result, valid c)
      (addConstraint o fuel constraints e) := by
  apply Satisfies.and _ (lasting.addConstraint validOld validNew)
  have denotes : Denotes guards ρ e (e.eval ρ 1) := ⟨constraint.1, constraint.2, rfl⟩
  by_cases both : P ∧ e.eval ρ 1 = 1#1
  · obtain ⟨holds, isTrue⟩ := both
    obtain ⟨-, hold⟩ := decides.resolve_right fun fails => fails.1 holds
    rw [isTrue] at denotes
    apply ((addConstraint_true allowed extensional hold denotes).weaken fun _ _ => trivial).mono
    intro result holdResult
    exact .inl ⟨⟨holds, isTrue⟩, holdResult⟩
  · have fails : Fails guards ρ constraints ∨ (∀ c ∈ constraints, Denotes guards ρ c 1#1) ∧ Denotes guards ρ e 0#1 := by
      cases decides with
      | inl holds =>
        have isFalse := (BitVector.ne_one_iff_eq_zero _).mp fun isTrue => both ⟨holds.1, isTrue⟩
        exact .inr ⟨holds.2, denotes.of_eq isFalse⟩
      | inr fails => exact .inl fails.2
    apply (addConstraint_fails lasting.steady allowed extensional validOld (lasting.simplifies fuel validOld validNew) fails).mono
    intro result failsResult
    exact .inr ⟨both, failsResult⟩

theorem addConstraints (lasting : Lasting o valid) (allowed : o.Allows guards ρ)
    (extensional : guards.Extensional ρ) {added : List Expr} (validNew : ∀ e ∈ added, valid e) (new : ∀ e ∈ added, Constraint guards e)
    (validOld : ∀ c ∈ constraints, valid c) (decides : Decides guards ρ constraints P) :
    Satisfies (fun _ => True) (fun result => Decides guards ρ result (P ∧ Hold ρ added) ∧ ∀ c ∈ result, valid c)
      (added.foldlM (ConstraintManager.addConstraint o fuel) constraints) := by
  apply Satisfies.foldlM fun seen result =>
    Decides guards ρ result (P ∧ Hold ρ seen) ∧ ∀ c ∈ result, valid c
  · exact ⟨decides.congr (by simp [Hold]), validOld⟩
  · intro seen e remaining state split facts
    obtain ⟨decidesState, validState⟩ := facts
    have member : e ∈ added := by simp [split]
    apply (decidesState.addConstraint lasting allowed extensional validState (validNew e member) (new e member)).mono
    intro result facts
    refine ⟨facts.1.congr ?_, facts.2⟩
    simp only [Hold, List.mem_append, List.mem_singleton, or_imp, forall_and, forall_eq, and_assoc]

end Decides

section Example

def sampleCondition : Expr := .cmp .eq (.constant (.alloc 3 8)) sampleByte

theorem sampleCondition_wellFormed : sampleCondition.WellFormed guards := by
  simp [sampleCondition, sampleByte, sampleArray, Array.isConstantArray, Array.isSymbolicArray, ConstantExpr.alloc]

theorem sampleCondition_eval (byte : BitVec 8) :
    sampleCondition.eval (fun root _ => byte.setWidth root.range) 1 = BitVec.ofBool (3#8 == byte) := by
  rfl

end Example

end NeuroMerge.Symbolic.ConstraintManager
