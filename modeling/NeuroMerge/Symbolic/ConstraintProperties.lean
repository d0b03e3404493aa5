import NeuroMerge.Symbolic.Constraints
import NeuroMerge.Symbolic.VisitorProperties

/-!
# Adding a constraint preserves the path condition

One equality rewrites all other constraints, which are added again and may
rewrite further ones. Where all constraints hold every rewriting keeps all
values; where one of them fails it goes on failing, since an equality that fails
itself becomes a constraint and any other constraint it rewrites contains its
right operand.
-/

namespace NeuroMerge.Symbolic.ConstraintManager

variable {guards : Guards} {ρ : Assignment} {o : Options} {fuel : Nat}
  {tolerated : Fault → Prop} {valid : Expr → Prop} {constraints : List Expr} {e : Expr}

/-- What holds of all constraints and still does after every rewriting. -/
structure Steady (o : Options) (tolerated : Fault → Prop) (valid : Expr → Prop) : Prop where
  outOfFuel : tolerated .outOfFuel
  constant : ∀ {value : ConstantExpr}, valid (.constant value) →
    value.isTrue = true ∨ tolerated (.assertion .invalidConstraint)
  conjuncts : ∀ {left right : Expr}, valid (.binary .and left right) → valid left ∧ valid right
  equal : ∀ {value : ConstantExpr} {right : Expr}, valid (.cmp .eq (.constant value) right) →
    right.width = value.width
  rewrites : ∀ {value : ConstantExpr} {right c : Expr} (fuel : Nat),
    valid (.cmp .eq (.constant value) right) → valid c →
    Satisfies tolerated valid ((ExprReplaceVisitor right (.constant value)).visit o fuel c)

namespace Steady

theorem append (validOld : ∀ c ∈ constraints, valid c) (validNew : valid e) : ∀ c ∈ constraints ++ [e], valid c := by
  intro c member
  obtain old | new := List.mem_append.mp member
  · exact validOld c old
  · rw [List.mem_singleton.mp new]
    exact validNew

theorem rewriteConstraints {visitor : ExprVisitor} {add : List Expr → Expr → Except Fault (List Expr)}
    (rewrites : ∀ c, valid c → Satisfies tolerated valid (visitor.visit o fuel c))
    (adds : ∀ constraints e, (∀ c ∈ constraints, valid c) → valid e →
      Satisfies tolerated (fun result => ∀ c ∈ result, valid c) (add constraints e)) (validOld : ∀ c ∈ constraints, valid c) :
    Satisfies tolerated (fun result => ∀ c ∈ result, valid c) (ConstraintManager.rewriteConstraints o fuel visitor add constraints) := by
  apply Satisfies.foldlM_const (by simp)
  intro ce member state validState
  apply Satisfies.bind (rewrites ce (validOld ce member))
  intro e validResult
  split
  · exact adds state e validState validResult
  · exact append validState (validOld ce member)

theorem addConstraintInternal (steady : Steady o tolerated valid) (fuel : Nat) :
    ∀ constraints e, (∀ c ∈ constraints, valid c) → valid e →
      Satisfies tolerated (fun result => ∀ c ∈ result, valid c) (ConstraintManager.addConstraintInternal o fuel constraints e) := by
  induction fuel with
  | zero =>
    intro constraints e _ _
    exact steady.outOfFuel
  | succ fuel ih =>
    intro constraints e validOld validNew
    rw [ConstraintManager.addConstraintInternal.eq_def]
    dsimp only
    split
    · apply require_satisfies
      · intro _
        exact validOld
      · intro fails
        exact (steady.constant validNew).resolve_left fails
    · obtain ⟨validLeft, validRight⟩ := steady.conjuncts validNew
      apply Satisfies.bind (ih constraints _ validOld validLeft)
      intro constraints validBoth
      exact ih constraints _ validBoth validRight
    · split
      · apply Satisfies.bind (rewriteConstraints (fun c => steady.rewrites fuel validNew) ih validOld)
        intro constraints validRewritten
        exact append validRewritten validNew
      · exact append validOld validNew
    · exact append validOld validNew

end Steady

def Fails (guards : Guards) (ρ : Assignment) (constraints : List Expr) : Prop :=
  ∃ c ∈ constraints, Denotes guards ρ c 0#1

namespace Fails

theorem append_left {more : List Expr} (fails : Fails guards ρ constraints) : Fails guards ρ (constraints ++ more) := by
  obtain ⟨c, member, isFalse⟩ := fails
  exact ⟨c, by simp [member], isFalse⟩

theorem append_right (isFalse : Denotes guards ρ e 0#1) : Fails guards ρ (constraints ++ [e]) :=
  ⟨e, by simp, isFalse⟩

theorem append_iff : Fails guards ρ (constraints ++ [e]) ↔ Fails guards ρ constraints ∨ Denotes guards ρ e 0#1 := by
  simp [Fails, or_and_right, exists_or]

/-- A false constraint stays false, or is kept, unless the equality is false. -/
theorem visit (allowed : o.Allows guards ρ) (extensional : guards.Extensional ρ)
    {value : ConstantExpr} {right c : Expr} (sameWidth : right.width = value.width)
    (holds : ¬ Denotes guards ρ (.cmp .eq (.constant value) right) 0#1) (isFalse : Denotes guards ρ c 0#1) :
    Satisfies (fun _ => True) (fun c' => Denotes guards ρ c' 0#1) ((ExprReplaceVisitor right (.constant value)).visit o fuel c) := by
  by_cases occurs : right.WellFormed guards
  · have denotes : Denotes guards ρ right (right.eval ρ value.width) := ⟨occurs, sameWidth, rfl⟩
    have same : value.value = right.eval ρ value.width := by
      by_contra different
      apply holds
      have isFalse := Denotes.cmp .eq (Denotes.constant value) denotes
      rwa [CmpKind.apply, beq_eq_false_iff_ne.mpr different] at isFalse
    have agrees : Agrees guards ρ right (.constant value) := by
      rw [Agrees, sameWidth, ← same]
      exact .constant value
    have sound := ExprReplaceVisitor.sound fun _ => agrees
    have visited := sound.visit allowed extensional fuel c isFalse.wellFormed
    exact (visited.weaken fun _ _ => trivial).mono fun c' agreesResult => isFalse.agrees agreesResult
  · apply (ExprReplaceVisitor.visit_kept fuel c isFalse.wellFormed).mono
    intro c' kept
    rw [kept.resolve_right occurs]
    exact isFalse

/-- The loop invariant: a false constraint among those seen so far has left a
false one behind. -/
theorem rewriteConstraints (steady : Steady o tolerated valid) {visitor : ExprVisitor}
    (rewrites : ∀ c, valid c → Satisfies tolerated valid (visitor.visit o fuel c))
    (visits : ∀ c, Denotes guards ρ c 0#1 →
      Satisfies (fun _ => True) (fun c' => Denotes guards ρ c' 0#1) (visitor.visit o fuel c))
    (adds : ∀ constraints e, (∀ c ∈ constraints, valid c) → valid e →
      Fails guards ρ constraints ∨ Denotes guards ρ e 0#1 →
      Satisfies (fun _ => True) (Fails guards ρ) (addConstraintInternal o fuel constraints e))
    (validOld : ∀ c ∈ constraints, valid c) (fails : Fails guards ρ constraints) :
    Satisfies (fun _ => True) (Fails guards ρ)
      (ConstraintManager.rewriteConstraints o fuel visitor (addConstraintInternal o fuel) constraints) := by
  have loop : Satisfies (fun _ => True) (fun result => (∀ c ∈ result, valid c) ∧ (Fails guards ρ constraints → Fails guards ρ result))
      (ConstraintManager.rewriteConstraints o fuel visitor (addConstraintInternal o fuel) constraints) := by
    apply Satisfies.foldlM fun seen state =>
      (∀ c ∈ state, valid c) ∧ (Fails guards ρ seen → Fails guards ρ state)
    · simp [Fails]
    · intro seen ce remaining state split invariant
      obtain ⟨validState, kept⟩ := invariant
      have validItem : valid ce := validOld ce (by simp [split])
      have visited : Satisfies (fun _ => True) (fun e => valid e ∧ (Denotes guards ρ ce 0#1 → Denotes guards ρ e 0#1))
          (visitor.visit o fuel ce) := by
        apply Satisfies.and ((rewrites ce validItem).weaken fun _ _ => trivial)
        by_cases isFalse : Denotes guards ρ ce 0#1
        · exact (visits ce isFalse).mono fun _ stays _ => stays
        · exact Satisfies.self.mono fun _ _ holds => absurd holds isFalse
      apply Satisfies.bind visited
      intro e both
      obtain ⟨validResult, stays⟩ := both
      split
      · apply Satisfies.and ((steady.addConstraintInternal fuel state e validState validResult).weaken fun _ _ => trivial)
        by_cases failing : Fails guards ρ (seen ++ [ce])
        · have before := (Fails.append_iff.mp failing).imp kept stays
          exact (adds state e validState validResult before).mono fun _ fails _ => fails
        · exact Satisfies.self.mono fun _ _ holds => absurd holds failing
      · refine ⟨Steady.append validState validItem, ?_⟩
        intro failing
        exact Fails.append_iff.mpr ((Fails.append_iff.mp failing).imp kept id)
  exact loop.mono fun _ both => both.2 fails

theorem addConstraintInternal (steady : Steady o tolerated valid)
    (allowed : o.Allows guards ρ) (extensional : guards.Extensional ρ) (fuel : Nat) :
    ∀ constraints e, (∀ c ∈ constraints, valid c) → valid e →
      Fails guards ρ constraints ∨ Denotes guards ρ e 0#1 →
      Satisfies (fun _ => True) (Fails guards ρ) (ConstraintManager.addConstraintInternal o fuel constraints e) := by
  induction fuel with
  | zero =>
    intro constraints e _ _ _
    trivial
  | succ fuel ih =>
    intro constraints e validOld validNew fails
    have stays := steady.addConstraintInternal fuel
    rw [ConstraintManager.addConstraintInternal.eq_def]
    dsimp only
    split
    · apply require_satisfies ?_ fun _ => trivial
      intro holds
      apply fails.resolve_right
      intro isFalse
      cases isFalse.of_constant
      simp at holds
    · rename_i left right
      obtain ⟨validLeft, validRight⟩ := steady.conjuncts validNew
      have first : Satisfies (fun _ => True) (fun result => (∀ c ∈ result, valid c) ∧
            (Fails guards ρ constraints ∨ Denotes guards ρ left 0#1 → Fails guards ρ result))
          (ConstraintManager.addConstraintInternal o fuel constraints left) := by
        apply Satisfies.and ((stays constraints left validOld validLeft).weaken fun _ _ => trivial)
        by_cases failing : Fails guards ρ constraints ∨ Denotes guards ρ left 0#1
        · exact (ih constraints left validOld validLeft failing).mono fun _ fails _ => fails
        · exact Satisfies.self.mono fun _ _ holds => absurd holds failing
      apply Satisfies.bind first
      intro result both
      obtain ⟨validResult, kept⟩ := both
      apply ih result right validResult validRight
      cases fails with
      | inl fails => exact .inl (kept (.inl fails))
      | inr isFalse =>
        obtain ⟨a, b, denotesLeft, denotesRight, -, conjunction⟩ := isFalse.of_binary
        obtain rfl | rfl := (BitVector.and_eq_zero a b).mp conjunction.symm
        · exact .inl (kept (.inr denotesLeft))
        · exact .inr denotesRight
    · rename_i value right
      by_cases isFalse : Denotes guards ρ (.cmp .eq (.constant value) right) 0#1
      · split
        · apply Satisfies.bind .self
          intro rewritten _
          exact append_right isFalse
        · exact append_right isFalse
      · have before := fails.resolve_right isFalse
        split
        · apply Satisfies.bind (rewriteConstraints steady (fun c => steady.rewrites fuel validNew)
            (fun c => visit allowed extensional (steady.equal validNew) isFalse) ih validOld before)
          intro rewritten after
          exact append_left after
        · exact append_left before
    · cases fails with
      | inl fails => exact append_left fails
      | inr isFalse => exact append_right isFalse

end Fails

section Termination

def weight (constraints : List Expr) : Nat := (constraints.map Expr.weight).sum

@[simp] theorem weight_nil : weight [] = 0 := rfl

@[simp] theorem weight_append (left right : List Expr) : weight (left ++ right) = weight left + weight right := by
  simp [weight]

@[simp] theorem weight_singleton (e : Expr) : weight [e] = e.weight := by
  simp [weight]

@[simp] theorem weight_cons (e : Expr) : weight (e :: constraints) = e.weight + weight constraints := by
  simp [weight]

section

variable {visitor : ExprVisitor} {add : List Expr → Expr → Except Fault (List Expr)}

theorem rewriteStep_light (lightens : visitor.Lightens)
    (adds : ∀ constraints e, Satisfies (fun _ => True)
      (fun result => weight result ≤ weight constraints + e.weight) (add constraints e)) (constraints : List Expr) (ce : Expr) :
    Satisfies (fun _ => True) (fun result => weight result ≤ weight constraints + ce.weight) (do
      let e ← visitor.visit o fuel ce
      if e ≠ ce then add constraints e else pure (constraints ++ [ce])) := by
  apply Satisfies.bind (lightens.visit fuel ce)
  intro e shrinks
  have light := shrinks.weight_le
  split
  · apply (adds constraints e).mono
    intro result lightAdded
    omega
  · simp

theorem rewriteConstraints_light (lightens : visitor.Lightens)
    (adds : ∀ constraints e, Satisfies (fun _ => True)
      (fun result => weight result ≤ weight constraints + e.weight) (add constraints e)) :
    Satisfies (fun _ => True) (fun result => weight result ≤ weight constraints) (rewriteConstraints o fuel visitor add constraints) := by
  apply Satisfies.foldlM fun seen state => weight state ≤ weight seen
  · exact Nat.le_refl _
  · intro seen ce remaining state _ light
    apply (rewriteStep_light lightens adds state ce).mono
    intro result lightResult
    simp only [weight_append, weight_singleton]
    omega

end

theorem addConstraintInternal_light (fuel : Nat) : ∀ constraints e,
    Satisfies (fun _ => True) (fun result => weight result ≤ weight constraints + e.weight)
      (addConstraintInternal o fuel constraints e) := by
  induction fuel with
  | zero =>
    intro constraints e
    trivial
  | succ fuel ih =>
    intro constraints e
    rw [addConstraintInternal.eq_def]
    dsimp only
    split
    · exact require_satisfies (fun _ => Nat.le_add_right _ _) fun _ => trivial
    · rename_i left right
      apply Satisfies.bind (ih constraints left)
      intro middle lightMiddle
      apply (ih middle right).mono
      intro result lightResult
      simp only [Expr.weight]
      omega
    · rename_i value right
      split
      · apply Satisfies.bind (rewriteConstraints_light (ExprReplaceVisitor.lightens value) ih)
        intro rewritten light
        simp only [Satisfies.pure_iff, weight_append, weight_singleton]
        omega
      · simp
    · simp

/-- By induction on the weight of all constraints and the new one together: what
is added again has become lighter. -/
theorem addConstraintInternal_ends_within (bound : Nat) : ∀ constraints e,
    weight constraints + e.weight ≤ bound → Ends fun fuel => addConstraintInternal o fuel constraints e := by
  induction bound with
  | zero =>
    intro constraints e within
    have positive := e.weight_pos
    omega
  | succ bound ih =>
    intro constraints e within
    apply Halts.succ
    apply Halts.congr fun fuel => addConstraintInternal.eq_def o (fuel + 1) constraints e
    dsimp only
    split
    · exact Ends.require (Halts.pure constraints)
    · rename_i left right
      simp only [Expr.weight, BinaryKind.weight] at within
      apply Halts.bind (ih constraints left (by omega))
      intro middle returned
      have light : weight middle ≤ weight constraints + left.weight :=
        returned.satisfies fun fuel => addConstraintInternal_light fuel constraints left
      exact ih middle right (by omega)
    · rename_i value right
      have lightens : (ExprReplaceVisitor right (.constant value)).Lightens := ExprReplaceVisitor.lightens value
      apply Halts.ite
      · intro _
        apply Halts.bind
        · apply Halts.foldlM fun seen state => weight state ≤ weight seen
          · exact Nat.le_refl _
          · intro seen ce remaining state split light
            apply Halts.bind (ExprVisitor.visit_ends lightens ce)
            intro visited returned
            have shrinks : Shrinks ce visited := returned.satisfies fun fuel => lightens.visit fuel ce
            apply Halts.ite
            · intro changed
              have lighter := shrinks.lighter changed
              apply ih state visited
              simp only [split, weight_append, weight_cons] at within
              omega
            · intro _
              exact .pure _
          · intro seen ce remaining state updated _ light returned
            have kept := returned.satisfies fun fuel =>
              rewriteStep_light lightens (addConstraintInternal_light fuel) state ce
            simp only [weight_append, weight_singleton]
            omega
        · intro rewritten _
          exact .pure _
      · intro _
        exact .pure _
    · exact .pure _

theorem addConstraintInternal_ends (constraints : List Expr) (e : Expr) : Ends fun fuel => addConstraintInternal o fuel constraints e :=
  addConstraintInternal_ends_within _ constraints e (Nat.le_refl _)

theorem equality_constant (c : Expr) : ∃ value, (equality c).2 = .constant value := by
  fun_cases equality c with
  | case1 value right => exact ⟨value, rfl⟩
  | case2 c _ => exact ⟨.alloc 1 1, rfl⟩

theorem simplifyExpr_ends (constraints : List Expr) (e : Expr) : Ends fun fuel => simplifyExpr o fuel constraints e := by
  cases isConstant : e.constant? with
  | some value =>
    simp only [simplifyExpr, isConstant]
    exact .pure e
  | none =>
    simp only [simplifyExpr, isConstant]
    apply ExprVisitor.visit_ends
    apply ExprReplaceVisitor2.lightens
    intro replacement member
    obtain ⟨c, -, rfl⟩ := List.mem_map.mp member
    exact equality_constant c

theorem addConstraint_ends (constraints : List Expr) (e : Expr) : Ends fun fuel => addConstraint o fuel constraints e :=
  .bind (simplifyExpr_ends constraints e) fun simplified _ =>
    addConstraintInternal_ends constraints simplified

end Termination

section Meaning

theorem equality_agrees {c : Expr} (holds : Denotes guards ρ c 1#1) : Agrees guards ρ (equality c).1 (equality c).2 := by
  fun_cases equality c with
  | case1 value right =>
    obtain ⟨n, a, b, denotesValue, denotesRight, same⟩ := holds.of_cmp
    cases denotesValue.of_constant
    obtain rfl : a = b := by
      simpa using (BitVector.ofBool_eq_one _).mp same.symm
    obtain ⟨-, rfl, rfl⟩ := denotesRight
    exact .constant _
  | case2 c _ =>
    obtain ⟨-, width, value⟩ := holds
    rw [Agrees, width, value]
    exact .alloc 1

section

variable (allowed : o.Allows guards ρ) (extensional : guards.Extensional ρ)
include allowed extensional

omit allowed extensional in
theorem simplifier_sound (hold : ∀ c ∈ constraints, Denotes guards ρ c 1#1) : (ExprReplaceVisitor2 (constraints.map equality)).Sound guards ρ := by
  apply ExprReplaceVisitor2.sound
  intro replacement member
  obtain ⟨c, memberConstraint, rfl⟩ := List.mem_map.mp member
  exact equality_agrees (hold c memberConstraint)

theorem simplifyExpr_agrees (hold : ∀ c ∈ constraints, Denotes guards ρ c 1#1) (wellFormed : e.WellFormed guards) :
    Satisfies (Excused guards ρ) (Agrees guards ρ e) (simplifyExpr o fuel constraints e) := by
  rw [simplifyExpr]
  split
  · exact wellFormed.denotes
  · exact (simplifier_sound hold).visit allowed extensional fuel e wellFormed

theorem steady_true : Steady o (Excused guards ρ) fun c => Denotes guards ρ c 1#1 where
  outOfFuel := excused_outOfFuel
  constant := by
    intro value holds
    cases holds.of_constant
    exact .inl (by simp)
  conjuncts := by
    intro left right holds
    obtain ⟨a, b, denotesLeft, denotesRight, -, both⟩ := holds.of_binary
    obtain ⟨rfl, rfl⟩ := (BitVector.and_eq_one a b).mp both.symm
    exact ⟨denotesLeft, denotesRight⟩
  equal := by
    intro value right holds
    obtain ⟨n, a, b, denotesValue, denotesRight, -⟩ := holds.of_cmp
    exact denotesRight.width.trans denotesValue.width.symm
  rewrites := by
    intro value right c fuel holds denotes
    have sound := ExprReplaceVisitor.sound fun _ => equality_agrees holds
    have visited := sound.visit allowed extensional fuel c denotes.wellFormed
    exact visited.mono fun c' agrees => denotes.agrees agrees

theorem addConstraint_true (hold : ∀ c ∈ constraints, Denotes guards ρ c 1#1) (holds : Denotes guards ρ e 1#1) :
    Satisfies (Excused guards ρ) (fun result => ∀ c ∈ result, Denotes guards ρ c 1#1) (addConstraint o fuel constraints e) := by
  apply Satisfies.bind (simplifyExpr_agrees allowed extensional hold holds.wellFormed)
  intro simplified agrees
  exact (steady_true allowed extensional).addConstraintInternal fuel constraints simplified hold (holds.agrees agrees)

end

theorem addConstraint_fails (steady : Steady o tolerated valid)
    (allowed : o.Allows guards ρ) (extensional : guards.Extensional ρ) (validOld : ∀ c ∈ constraints, valid c)
    (simplifies : Satisfies tolerated valid (simplifyExpr o fuel constraints e))
    (fails : Fails guards ρ constraints ∨
      (∀ c ∈ constraints, Denotes guards ρ c 1#1) ∧ Denotes guards ρ e 0#1) :
    Satisfies (fun _ => True) (Fails guards ρ) (addConstraint o fuel constraints e) := by
  have simplified : Satisfies (fun _ => True) (fun e => valid e ∧ (Fails guards ρ constraints ∨ Denotes guards ρ e 0#1))
      (simplifyExpr o fuel constraints e) := by
    apply Satisfies.and (simplifies.weaken fun _ _ => trivial)
    cases fails with
    | inl fails => exact Satisfies.self.mono fun _ _ => .inl fails
    | inr both =>
      have agrees : Satisfies (Excused guards ρ) (Agrees guards ρ e) (simplifyExpr o fuel constraints e) :=
        simplifyExpr_agrees allowed extensional both.1 both.2.wellFormed
      exact (agrees.weaken fun _ _ => trivial).mono fun _ agrees => .inr (both.2.agrees agrees)
  apply Satisfies.bind simplified
  intro e both
  exact Fails.addConstraintInternal steady allowed extensional fuel constraints e validOld both.1 both.2

end Meaning

def Hold (ρ : Assignment) (constraints : List Expr) : Prop :=
  ∀ c ∈ constraints, c.eval ρ 1 = 1#1

def Satisfiable (o : Options) (constraints : List Expr) : Prop :=
  ∃ ρ, ∀ c ∈ constraints, Denotes (.safe o ρ) ρ c 1#1

theorem hold_or_fails (boolean : ∀ c ∈ constraints, c.width = 1) (wellFormed : ∀ c ∈ constraints, c.WellFormed guards) :
    (∀ c ∈ constraints, Denotes guards ρ c 1#1) ∨ Fails guards ρ constraints := by
  by_cases hold : Hold ρ constraints
  · exact .inl fun c member => ⟨wellFormed c member, boolean c member, hold c member⟩
  · simp only [Hold, not_forall] at hold
    obtain ⟨c, member, fails⟩ := hold
    rw [BitVector.ne_one_iff_eq_zero] at fails
    exact .inr ⟨c, member, wellFormed c member, boolean c member, fails⟩

theorem Fails.not_hold (fails : Fails guards ρ constraints) : ¬ Hold ρ constraints := by
  intro hold
  obtain ⟨c, member, isFalse⟩ := fails
  have both := (hold c member).symm.trans isFalse.value
  contradiction

/-- Where the constraints and the new one are well formed, either all of them
hold, and those of the result do, or one of them fails, and so does one of the
result. -/
theorem addConstraint_iff (steady : Steady o tolerated valid) (allowed : o.Allows guards ρ) (extensional : guards.Extensional ρ)
    (validOld : ∀ c ∈ constraints, valid c) (simplifies : ∀ fuel, Satisfies tolerated valid (simplifyExpr o fuel constraints e))
    (boolean : ∀ c ∈ e :: constraints, c.width = 1) (wellFormed : ∀ c ∈ e :: constraints, c.WellFormed guards) {result : List Expr}
    (returned : addConstraint o fuel constraints e = .ok result) : Hold ρ result ↔ Hold ρ constraints ∧ e.eval ρ 1 = 1#1 := by
  have cases : ((∀ c ∈ constraints, Denotes guards ρ c 1#1) ∧ Denotes guards ρ e 1#1) ∨
      (Fails guards ρ constraints ∨ (∀ c ∈ constraints, Denotes guards ρ c 1#1) ∧ Denotes guards ρ e 0#1) := by
    have old : (∀ c ∈ constraints, Denotes guards ρ c 1#1) ∨ Fails guards ρ constraints :=
      hold_or_fails (fun c member => boolean c (by simp [member])) fun c member => wellFormed c (by simp [member])
    have new : (∀ c ∈ [e], Denotes guards ρ c 1#1) ∨ Fails guards ρ [e] :=
      hold_or_fails (fun c member => boolean c (by simp_all)) fun c member => wellFormed c (by simp_all)
    simp only [List.mem_singleton, forall_eq, Fails, exists_eq_left] at new
    tauto
  cases cases with
  | inl both =>
    have hold := (addConstraint_true allowed extensional both.1 both.2).elim returned
    constructor
    · intro _
      exact ⟨fun c member => (both.1 c member).value, both.2.value⟩
    · intro _ c member
      exact (hold c member).value
  | inr fails =>
    have failsResult := (addConstraint_fails steady allowed extensional validOld (simplifies fuel) fails).elim returned
    constructor
    · intro hold
      exact absurd hold failsResult.not_hold
    · intro hold
      cases fails with
      | inl fails => exact absurd hold.1 fails.not_hold
      | inr both =>
        have contradictory := hold.2.symm.trans both.2.value
        contradiction

/-- If constant arrays are rewritten, the assignment has to keep their reads
within bounds. -/
def Regular (o : Options) (ρ : Assignment) (constraints : List Expr) : Prop :=
  o.constArrayOpt = true → ∀ c ∈ constraints, c.WellFormed (.bounded o ρ)

theorem addConstraint_preserves (o : Options) (constraints : List Expr) (e : Expr)
    (satisfiable : Satisfiable o (e :: constraints)) :
    ∃ result, Returns (fun fuel => addConstraint o fuel constraints e) result ∧
      ∀ ρ, Regular o ρ (e :: constraints) →
        (Hold ρ result ↔ Hold ρ constraints ∧ e.eval ρ 1 = 1#1) := by
  obtain ⟨ρ₀, all⟩ := satisfiable
  have hold (c) (member : c ∈ constraints) : Denotes (.safe o ρ₀) ρ₀ c 1#1 :=
    all c (by simp [member])
  have holds : Denotes (.safe o ρ₀) ρ₀ e 1#1 := all e (by simp)
  obtain ⟨result, -, returns⟩ := (addConstraint_ends (o := o) constraints e).returns fun fuel =>
    only_outOfFuel (addConstraint_true Guards.allows_safe Guards.extensional_safe hold holds)
  refine ⟨result, returns, ?_⟩
  intro ρ regular
  have wellFormed (c) (member : c ∈ e :: constraints) : c.WellFormed (.bounded o ρ) := by
    by_cases enabled : o.constArrayOpt = true
    · exact regular enabled c member
    · exact (all c member).wellFormed.mono (Guards.stricter_bounded enabled)
  obtain ⟨fuel, returned⟩ := returns.some_fuel
  apply addConstraint_iff (steady_true Guards.allows_safe Guards.extensional_safe)
    Guards.allows_bounded Guards.extensional_bounded hold _ (fun c member => (all c member).width)
    wellFormed returned
  intro fuel
  exact (simplifyExpr_agrees Guards.allows_safe Guards.extensional_safe hold
    holds.wellFormed).mono fun _ agrees => holds.agrees agrees

section Example

def sampleArray : Array := .symbolic 0 "x" 1

def sampleByte : Expr := .read sampleArray .null (.constant (.alloc 0 32))

def sampleConstraint : Expr :=
  .cmp .ult (.binary .add (.constant (.alloc 1 8)) sampleByte) (.constant (.alloc 5 8))

theorem addConstraint_preserves_sample :
    ∃ result, Returns (fun fuel => addConstraint ⟨false, true⟩ fuel [sampleConstraint]
        (.cmp .eq (.constant (.alloc 3 8)) sampleByte)) result ∧
      ∀ ρ, Regular ⟨false, true⟩ ρ
          [.cmp .eq (.constant (.alloc 3 8)) sampleByte, sampleConstraint] →
        (Hold ρ result ↔ Hold ρ [sampleConstraint] ∧
          (Expr.cmp .eq (.constant (.alloc 3 8)) sampleByte).eval ρ 1 = 1#1) := by
  apply addConstraint_preserves
  refine ⟨fun root _ => BitVec.ofNat root.range 3, ?_⟩
  intro c member
  simp only [List.mem_cons, List.not_mem_nil, or_false] at member
  obtain rfl | rfl := member
  · refine ⟨?_, rfl, by decide⟩
    simp [sampleByte, sampleArray, Array.isConstantArray, Array.isSymbolicArray, ConstantExpr.alloc]
  · refine ⟨?_, rfl, by decide⟩
    simp [sampleConstraint, sampleByte, sampleArray, Array.isConstantArray,
      Array.isSymbolicArray, ConstantExpr.alloc, BinaryKind.isDivision]

end Example

end NeuroMerge.Symbolic.ConstraintManager
