import NeuroMerge.Symbolic.ConstraintProperties

/-!
# What rewriting keeps of the types

A visitor that replaces expressions by others of the same width keeps well-formed
expressions well formed, whether or not the replaced ones have the same values.
So contradictory constraints are rewritten without harm, too.
-/

namespace NeuroMerge.Symbolic

variable {guards : Guards} {ρ : Assignment} {o : Options} {fuel : Nat} {e e' src dst : Expr} {kids constraints : List Expr}

structure Guards.Free (guards : Guards) : Prop where
  readable : ∀ root index, guards.readable root index
  divisible : ∀ e, guards.divisible e

theorem Guards.free_bounded (disabled : ¬ o.constArrayOpt = true) : (Guards.bounded o ρ).Free where
  readable _ _ enabled := absurd enabled disabled
  divisible _ := trivial

def SameType (guards : Guards) (e e' : Expr) : Prop := e'.WellFormed guards ∧ e'.width = e.width

theorem SameType.trans {e'' : Expr} (first : SameType guards e e') (second : SameType guards e' e'') : SameType guards e e'' :=
  ⟨second.1, second.2.trans first.2⟩

theorem Expr.withKids_sameType (free : guards.Free) (wellFormed : e.WellFormed guards)
    (same : List.Forall₂ (SameType guards) e.kids kids) : SameType guards e (e.withKids kids) := by
  cases e with
  | constant value => exact ⟨wellFormed, rfl⟩
  | notOptimized src =>
    obtain _ | ⟨first, _ | _⟩ := same
    exact first
  | read root head index =>
    obtain _ | ⟨first, _ | _⟩ := same
    obtain ⟨updates, -, width, narrow, -⟩ := wellFormed
    exact ⟨⟨updates, first.1, first.2.trans width, narrow, fun _ => free.readable _ _⟩, rfl⟩
  | select cond trueExpr falseExpr =>
    obtain _ | ⟨condition, _ | ⟨whenTrue, _ | ⟨whenFalse, _ | _⟩⟩⟩ := same
    obtain ⟨-, -, -, boolean, width⟩ := wellFormed
    exact ⟨⟨condition.1, whenTrue.1, whenFalse.1, condition.2.trans boolean, (whenFalse.2.trans width).trans whenTrue.2.symm⟩, whenTrue.2⟩
  | concat left right =>
    obtain _ | ⟨first, _ | ⟨second, _ | _⟩⟩ := same
    exact ⟨⟨first.1, second.1⟩, congrArg₂ (· + ·) first.2 second.2⟩
  | extract expr offset width =>
    obtain _ | ⟨first, _ | _⟩ := same
    obtain ⟨-, positive, within⟩ := wellFormed
    exact ⟨⟨first.1, positive, by rwa [first.2]⟩, rfl⟩
  | not expr =>
    obtain _ | ⟨first, _ | _⟩ := same
    exact first
  | zext src width =>
    obtain _ | ⟨first, _ | _⟩ := same
    exact ⟨⟨first.1, by rw [first.2]; exact wellFormed.2⟩, rfl⟩
  | sext src width =>
    obtain _ | ⟨first, _ | _⟩ := same
    exact ⟨⟨first.1, by rw [first.2]; exact wellFormed.2⟩, rfl⟩
  | binary kind left right =>
    obtain _ | ⟨first, _ | ⟨second, _ | _⟩⟩ := same
    obtain ⟨-, -, width, division⟩ := wellFormed
    refine ⟨⟨first.1, second.1, (second.2.trans width).trans first.2.symm, ?_⟩, first.2⟩
    intro isDivision
    rw [first.2]
    exact ⟨(division isDivision).1, free.divisible _⟩
  | cmp kind left right =>
    obtain _ | ⟨first, _ | ⟨second, _ | _⟩⟩ := same
    obtain ⟨-, -, width⟩ := wellFormed
    exact ⟨⟨first.1, second.1, (second.2.trans width).trans first.2.symm⟩, rfl⟩

structure ExprVisitor.Typed (guards : Guards) (visitor : ExprVisitor) : Prop where
  visitExpr : ∀ {e e' : Expr}, e.WellFormed guards → visitor.visitExpr e = some e' →
    SameType guards e e'
  visitExprPost : ∀ {e e' : Expr}, e.WellFormed guards → visitor.visitExprPost e = some e' →
    SameType guards e e'

namespace ExprVisitor.Typed

variable {visitor : ExprVisitor}

theorem post (typed : visitor.Typed guards) (wellFormed : e.WellFormed guards) : SameType guards e (visitor.post e) := by
  rw [ExprVisitor.post]
  split
  · exact ⟨wellFormed, rfl⟩
  · cases replaced : visitor.visitExprPost e with
    | none => exact ⟨wellFormed, rfl⟩
    | some e' => exact typed.visitExprPost wellFormed replaced

theorem visit (typed : visitor.Typed guards) (allowed : o.Allows guards ρ) (free : guards.Free)
    (fuel : Nat) : ∀ e : Expr, e.WellFormed guards → Satisfies (fun _ => True) (SameType guards e) (visitor.visit o fuel e) := by
  induction fuel with
  | zero =>
    intro e _
    trivial
  | succ fuel ih =>
    intro e wellFormed
    rw [ExprVisitor.visit.eq_def]
    dsimp only
    split
    · exact ⟨wellFormed, rfl⟩
    · rename_i argument replaced
      exact typed.visitExpr wellFormed replaced
    · rename_i compound _
      apply Satisfies.bind (.mapM (SameType guards) fun kid member =>
          ih kid (wellFormed.of_mem_kids kid member))
      intro kids same
      split
      · exact typed.post wellFormed
      · have replaced := Expr.withKids_sameType free wellFormed same
        have builds : Builds guards ρ _ (e.rebuild o fuel kids) :=
          Expr.rebuild_builds allowed same.length_eq.symm compound replaced.1.denotes
        apply Satisfies.bind (builds.weaken fun _ _ => trivial)
        intro rebuilt denotes
        have sameType : SameType guards e rebuilt := ⟨denotes.wellFormed, denotes.width.trans replaced.2⟩
        split
        · rw [map_eq_pure_bind]
          apply Satisfies.bind (ih rebuilt sameType.1)
          intro result sameResult
          exact (sameType.trans sameResult).trans (typed.post sameResult.1)
        · exact sameType.trans (typed.post sameType.1)

end ExprVisitor.Typed

theorem ExprReplaceVisitor.typed (same : src.WellFormed guards → SameType guards src dst) :
    (ExprReplaceVisitor src dst).Typed guards := by
  constructor <;>
  · intro e e' wellFormed replaced
    simp only [ExprReplaceVisitor, Option.ite_none_right_eq_some, Option.some.injEq] at replaced
    obtain ⟨rfl, rfl⟩ := replaced
    exact same wellFormed

theorem ExprReplaceVisitor2.typed {replacements : List (Expr × Expr)}
    (same : ∀ replacement ∈ replacements, SameType guards replacement.1 replacement.2) :
    (ExprReplaceVisitor2 replacements).Typed guards := by
  constructor
  · intro e e' _ replaced
    simp [ExprReplaceVisitor2] at replaced
  · intro e e' _ replaced
    obtain ⟨before, after, split, -⟩ := List.lookup_eq_some_iff.mp replaced
    exact same (e, e') (by simp [split])

namespace ConstraintManager

def Constraint (guards : Guards) (c : Expr) : Prop := c.WellFormed guards ∧ c.width = 1

theorem steady_typed (allowed : o.Allows guards ρ) (free : guards.Free) : Steady o (fun _ => True) (Constraint guards) where
  outOfFuel := trivial
  constant _ := .inr trivial
  conjuncts valid := by
    obtain ⟨⟨left, right, width, -⟩, boolean⟩ := valid
    exact ⟨⟨left, boolean⟩, ⟨right, width.trans boolean⟩⟩
  equal valid := valid.1.2.2
  rewrites := by
    intro value right c fuel valid validOld
    have typed : (ExprReplaceVisitor right (.constant value)).Typed guards :=
      ExprReplaceVisitor.typed fun _ => ⟨trivial, valid.1.2.2.symm⟩
    apply (typed.visit allowed free fuel c validOld.1).mono
    intro result same
    exact ⟨same.1, same.2.trans validOld.2⟩

theorem simplifyExpr_typed (allowed : o.Allows guards ρ) (free : guards.Free)
    (valid : ∀ c ∈ constraints, Constraint guards c) (wellFormed : e.WellFormed guards) :
    Satisfies (fun _ => True) (SameType guards e) (simplifyExpr o fuel constraints e) := by
  rw [simplifyExpr]
  split
  · exact ⟨wellFormed, rfl⟩
  · have typed : (ExprReplaceVisitor2 (constraints.map equality)).Typed guards := by
      apply ExprReplaceVisitor2.typed
      intro replacement member
      obtain ⟨c, old, rfl⟩ := List.mem_map.mp member
      obtain ⟨wellFormedC, boolean⟩ := valid c old
      rw [equality.eq_def]
      split
      · exact ⟨trivial, wellFormedC.2.2.symm⟩
      · exact ⟨trivial, boolean.symm⟩
    exact typed.visit allowed free fuel e wellFormed

end ConstraintManager

end NeuroMerge.Symbolic
