import Mathlib.Data.List.Forall2
import NeuroMerge.Symbolic.Weight

/-!
# What visiting preserves

A visitor that replaces expressions by others of the same value preserves the
value of what it visits. One that replaces them by lighter ones terminates.
-/

namespace NeuroMerge.Symbolic

open NeuroMerge.Symbolic.Expr

variable {guards : Guards} {ρ : Assignment} {o : Options} {fuel w n : Nat} {e e' src dst : Expr} {kids : List Expr}

def Expr.withKids : Expr → List Expr → Expr
  | .notOptimized _, [src] => .notOptimized src
  | .read root head _, [index] => .read root head index
  | .select _ _ _, [cond, trueExpr, falseExpr] => .select cond trueExpr falseExpr
  | .concat _ _, [left, right] => .concat left right
  | .extract _ offset width, [expr] => .extract expr offset width
  | .not _, [expr] => .not expr
  | .zext _ width, [src] => .zext src width
  | .sext _ width, [src] => .sext src width
  | .binary kind _ _, [left, right] => .binary kind left right
  | .cmp kind _ _, [left, right] => .cmp kind left right
  | e, _ => e

theorem Expr.withKids_kids (e : Expr) : e.withKids e.kids = e := by
  cases e <;> rfl

section Meaning

theorem ZExtExpr.create_builds_wider {a : BitVec n} (denotes : Denotes guards ρ e a)
    (wider : n ≤ w) : Builds guards ρ (a.setWidth w) (ZExtExpr.create fuel e w) := by
  by_cases same : w = n
  · subst same
    rw [ZExtExpr.create, if_pos denotes.width.symm]
    simpa using .pure denotes
  · exact ZExtExpr.create_builds denotes (by omega)

theorem SExtExpr.create_builds_wider {a : BitVec n} (denotes : Denotes guards ρ e a)
    (wider : n ≤ w) : Builds guards ρ (a.signExtend w) (SExtExpr.create fuel e w) := by
  by_cases same : w = n
  · subst same
    rw [SExtExpr.create, if_pos denotes.width.symm]
    simpa using .pure denotes
  · exact SExtExpr.create_builds denotes (by omega)

theorem Expr.rebuild_builds (allowed : o.Allows guards ρ) {v : BitVec w}
    (replaced : kids.length = e.kids.length) (compound : e.constant? = none) (denotes : Denotes guards ρ (e.withKids kids) v) :
    Builds guards ρ v (e.rebuild o fuel kids) := by
  cases e with
  | constant value => simp [constant?] at compound
  | notOptimized src =>
    obtain ⟨kid, rfl⟩ := List.length_eq_one_iff.mp replaced
    exact denotes
  | read root head index =>
    obtain ⟨kid, rfl⟩ := List.length_eq_one_iff.mp replaced
    have wellFormed := denotes.wellFormed
    obtain rfl : root.range = w := denotes.width
    obtain ⟨updates, indexWellFormed, indexWidth, narrow, within⟩ := wellFormed
    apply Builds.of_eq (ReadExpr.create_builds allowed updates ⟨indexWellFormed, indexWidth, rfl⟩ narrow within)
    simpa [withKids] using denotes.value
  | select cond trueExpr falseExpr =>
    obtain ⟨c, t, f, rfl⟩ := List.length_eq_three.mp replaced
    have wellFormed := denotes.wellFormed
    have width : t.width = w := denotes.width
    obtain ⟨condWellFormed, trueWellFormed, falseWellFormed, boolean, sameWidth⟩ := wellFormed
    apply Builds.of_eq (SelectExpr.create_builds allowed ⟨condWellFormed, boolean, rfl⟩
        ⟨trueWellFormed, width, rfl⟩ ⟨falseWellFormed, sameWidth.trans width, rfl⟩)
    simpa [withKids] using denotes.value
  | concat left right =>
    obtain ⟨l, r, rfl⟩ := List.length_eq_two.mp replaced
    obtain ⟨m, n, a, b, rfl, denotesLeft, denotesRight, rfl⟩ := Denotes.of_concat denotes
    exact (ConcatExpr.create_builds denotesLeft denotesRight).of_eq (by simp)
  | extract expr offset width =>
    obtain ⟨kid, rfl⟩ := List.length_eq_one_iff.mp replaced
    obtain ⟨n, a, rfl, denotesExpr, positive, within, rfl⟩ := Denotes.of_extract denotes
    exact ExtractExpr.create_builds denotesExpr positive within
  | not expr =>
    obtain ⟨kid, rfl⟩ := List.length_eq_one_iff.mp replaced
    obtain ⟨wellFormed, width, value⟩ := denotes
    exact .of_eq (NotExpr.create_denotes ⟨wellFormed, width, rfl⟩) (by simpa [withKids] using value)
  | zext src width =>
    obtain ⟨kid, rfl⟩ := List.length_eq_one_iff.mp replaced
    obtain ⟨n, a, rfl, denotesSrc, wider, rfl⟩ := Denotes.of_zext denotes
    exact ZExtExpr.create_builds_wider denotesSrc wider
  | sext src width =>
    obtain ⟨kid, rfl⟩ := List.length_eq_one_iff.mp replaced
    obtain ⟨n, a, rfl, denotesSrc, wider, rfl⟩ := Denotes.of_sext denotes
    exact SExtExpr.create_builds_wider denotesSrc wider
  | binary kind left right =>
    obtain ⟨l, r, rfl⟩ := List.length_eq_two.mp replaced
    obtain ⟨a, b, denotesLeft, denotesRight, division, rfl⟩ := Denotes.of_binary denotes
    apply kind.create_builds allowed denotesLeft denotesRight
    intro isDivision
    exact ⟨(division isDivision).2, fun boolean => absurd boolean (division isDivision).1⟩
  | cmp kind left right =>
    obtain ⟨l, r, rfl⟩ := List.length_eq_two.mp replaced
    obtain rfl : 1 = w := denotes.width
    obtain ⟨n, a, b, denotesLeft, denotesRight, rfl⟩ := Denotes.of_cmp denotes
    exact kind.create_builds allowed denotesLeft denotesRight

def Agrees (guards : Guards) (ρ : Assignment) (e e' : Expr) : Prop :=
  Denotes guards ρ e' (e.eval ρ e.width)

theorem Denotes.agrees {v : BitVec w} (denotes : Denotes guards ρ e v) (agrees : Agrees guards ρ e e') : Denotes guards ρ e' v := by
  obtain ⟨-, rfl, rfl⟩ := denotes
  exact agrees

structure Guards.Extensional (guards : Guards) (ρ : Assignment) : Prop where
  readable : ∀ {root : Array} {e e' : Expr}, e.width = root.domain → Agrees guards ρ e e' →
    guards.readable root e → guards.readable root e'
  divisible : ∀ {e e' : Expr}, Agrees guards ρ e e' → guards.divisible e → guards.divisible e'

/-- Constant arrays are read within bounds where an optimization relies on it. -/
def Guards.bounded (o : Options) (ρ : Assignment) : Guards where
  readable root index := o.constArrayOpt = true →
    (index.eval ρ root.domain).toNat < root.size ∧ root.size ≤ 2 ^ root.domain
  divisible _ := True

def Guards.safe (o : Options) (ρ : Assignment) : Guards where
  readable := (Guards.bounded o ρ).readable
  divisible d := d.eval ρ d.width ≠ 0#d.width

theorem Guards.allows_bounded : o.Allows (Guards.bounded o ρ) ρ :=
  fun enabled _ _ readable => readable enabled

theorem Guards.allows_safe : o.Allows (Guards.safe o ρ) ρ :=
  fun enabled _ _ readable => readable enabled

theorem Guards.nonzero_safe : (Guards.safe o ρ).Nonzero ρ := fun _ divisible => divisible

theorem only_outOfFuel {α : Type} {post : α → Prop} {computation : Except Fault α}
    (satisfies : Satisfies (Excused (.safe o ρ) ρ) post computation) : Satisfies (· = .outOfFuel) post computation :=
  satisfies.weaken fun _ excused => excused.resolve_right fun divided => divided.2 Guards.nonzero_safe

theorem Guards.stricter_bounded {σ : Assignment} (disabled : ¬ o.constArrayOpt = true) : guards.Stricter (Guards.bounded o σ) where
  readable _ enabled := absurd enabled disabled
  divisible _ := trivial

theorem Guards.extensional_bounded : (Guards.bounded o ρ).Extensional ρ where
  readable := by
    intro root e e' width agrees readable
    obtain ⟨-, -, value⟩ := agrees
    rw [width] at value
    simpa only [Guards.bounded, value] using readable
  divisible _ := id

theorem Guards.extensional_safe : (Guards.safe o ρ).Extensional ρ where
  readable := by
    intro root e e' width agrees readable
    obtain ⟨-, -, value⟩ := agrees
    rw [width] at value
    simpa only [Guards.safe, Guards.bounded, value] using readable
  divisible := by
    intro e e' agrees divisible
    obtain ⟨-, width, value⟩ := agrees
    change e'.eval ρ e'.width ≠ BitVec.ofNat e'.width 0
    rw [width, value]
    exact divisible

theorem Expr.WellFormed.of_mem_kids (wellFormed : e.WellFormed guards) : ∀ kid ∈ e.kids, kid.WellFormed guards := by
  cases e <;> simp_all [Expr.kids]

theorem Expr.withKids_agrees (extensional : guards.Extensional ρ) (wellFormed : e.WellFormed guards)
    (agree : List.Forall₂ (Agrees guards ρ) e.kids kids) : Agrees guards ρ e (e.withKids kids) := by
  cases e with
  | constant value => exact (Denotes.constant value).of_eq (by simp)
  | notOptimized src =>
    obtain _ | ⟨agrees, _ | _⟩ := agree
    exact Denotes.notOptimized_iff.mpr agrees
  | read root head index =>
    obtain _ | ⟨agrees, _ | _⟩ := agree
    obtain ⟨updates, indexWellFormed, indexWidth, narrow, within⟩ := wellFormed
    have denotes : Denotes guards ρ index (index.eval ρ root.domain) := ⟨indexWellFormed, indexWidth, rfl⟩
    have within' (isConstant : root.isConstantArray) : guards.readable root _ :=
      extensional.readable indexWidth agrees (within isConstant)
    exact (Denotes.read updates (denotes.agrees agrees) narrow within').of_eq (by simp)
  | select cond trueExpr falseExpr =>
    obtain _ | ⟨agreesCond, _ | ⟨agreesTrue, _ | ⟨agreesFalse, _ | _⟩⟩⟩ := agree
    obtain ⟨condWellFormed, trueWellFormed, falseWellFormed, boolean, sameWidth⟩ := wellFormed
    have denotesCond : Denotes guards ρ cond (cond.eval ρ 1) := ⟨condWellFormed, boolean, rfl⟩
    have denotesFalse : Denotes guards ρ falseExpr (falseExpr.eval ρ trueExpr.width) := ⟨falseWellFormed, sameWidth, rfl⟩
    exact (denotesCond.agrees agreesCond).select agreesTrue (denotesFalse.agrees agreesFalse)
  | concat left right =>
    obtain _ | ⟨agreesLeft, _ | ⟨agreesRight, _ | _⟩⟩ := agree
    exact (Denotes.concat agreesLeft agreesRight).of_eq (by simp)
  | extract expr offset width =>
    obtain _ | ⟨agrees, _ | _⟩ := agree
    exact (Denotes.extract agrees wellFormed.2.1 wellFormed.2.2).of_eq (by simp)
  | not expr =>
    obtain _ | ⟨agrees, _ | _⟩ := agree
    exact .not agrees
  | zext src width =>
    obtain _ | ⟨agrees, _ | _⟩ := agree
    exact (Denotes.zext agrees wellFormed.2).of_eq (by simp)
  | sext src width =>
    obtain _ | ⟨agrees, _ | _⟩ := agree
    exact (Denotes.sext agrees wellFormed.2).of_eq (by simp)
  | binary kind left right =>
    obtain _ | ⟨agreesLeft, _ | ⟨agreesRight, _ | _⟩⟩ := agree
    obtain ⟨leftWellFormed, rightWellFormed, sameWidth, division⟩ := wellFormed
    have denotesRight : Denotes guards ρ right (right.eval ρ left.width) := ⟨rightWellFormed, sameWidth, rfl⟩
    apply Denotes.binary kind agreesLeft (denotesRight.agrees agreesRight)
    intro isDivision
    exact ⟨(division isDivision).1, extensional.divisible agreesRight (division isDivision).2⟩
  | cmp kind left right =>
    obtain _ | ⟨agreesLeft, _ | ⟨agreesRight, _ | _⟩⟩ := agree
    obtain ⟨leftWellFormed, rightWellFormed, sameWidth⟩ := wellFormed
    have denotesRight : Denotes guards ρ right (right.eval ρ left.width) := ⟨rightWellFormed, sameWidth, rfl⟩
    exact (Denotes.cmp kind agreesLeft (denotesRight.agrees agreesRight)).of_eq (by simp)

structure ExprVisitor.Sound (guards : Guards) (ρ : Assignment) (visitor : ExprVisitor) :
    Prop where
  visitExpr : ∀ {e e' : Expr}, e.WellFormed guards → visitor.visitExpr e = some e' →
    Agrees guards ρ e e'
  visitExprPost : ∀ {e e' : Expr}, e.WellFormed guards → visitor.visitExprPost e = some e' →
    Agrees guards ρ e e'

theorem Agrees.trans {e'' : Expr} (first : Agrees guards ρ e e') (second : Agrees guards ρ e' e'') : Agrees guards ρ e e'' :=
  first.agrees second

theorem ExprVisitor.Sound.post {visitor : ExprVisitor} (sound : visitor.Sound guards ρ)
    (wellFormed : e.WellFormed guards) : Agrees guards ρ e (visitor.post e) := by
  rw [ExprVisitor.post]
  split
  · exact wellFormed.denotes
  · cases replaced : visitor.visitExprPost e with
    | none => exact wellFormed.denotes
    | some e' => exact sound.visitExprPost wellFormed replaced

theorem ExprVisitor.Sound.visit {visitor : ExprVisitor} (sound : visitor.Sound guards ρ)
    (allowed : o.Allows guards ρ) (extensional : guards.Extensional ρ) (fuel : Nat) :
    ∀ e : Expr, e.WellFormed guards → Satisfies (Excused guards ρ) (Agrees guards ρ e) (visitor.visit o fuel e) := by
  induction fuel with
  | zero =>
    intro e _
    exact excused_outOfFuel
  | succ fuel ih =>
    intro e wellFormed
    rw [ExprVisitor.visit.eq_def]
    dsimp only
    split
    · exact wellFormed.denotes
    · rename_i argument replaced
      exact sound.visitExpr wellFormed replaced
    · rename_i compound _
      apply Satisfies.bind (.mapM (Agrees guards ρ) fun kid member =>
          ih kid (wellFormed.of_mem_kids kid member))
      intro kids agree
      split
      · exact sound.post wellFormed
      · have builds : Satisfies (Excused guards ρ) (Agrees guards ρ e) (e.rebuild o fuel kids) :=
          rebuild_builds allowed agree.length_eq.symm compound (withKids_agrees extensional wellFormed agree)
        apply Satisfies.bind builds
        intro rebuilt agrees
        split
        · rw [map_eq_pure_bind]
          apply Satisfies.bind (ih rebuilt agrees.wellFormed)
          intro result agreesResult
          exact (agrees.trans agreesResult).trans (sound.post agreesResult.wellFormed)
        · exact agrees.trans (sound.post agrees.wellFormed)

theorem ExprReplaceVisitor.sound (agrees : src.WellFormed guards → Agrees guards ρ src dst) :
    (ExprReplaceVisitor src dst).Sound guards ρ := by
  constructor <;>
  · intro e e' wellFormed replaced
    simp only [ExprReplaceVisitor, Option.ite_none_right_eq_some, Option.some.injEq] at replaced
    obtain ⟨rfl, rfl⟩ := replaced
    exact agrees wellFormed

theorem ExprReplaceVisitor2.sound {replacements : List (Expr × Expr)}
    (agree : ∀ replacement ∈ replacements, Agrees guards ρ replacement.1 replacement.2) :
    (ExprReplaceVisitor2 replacements).Sound guards ρ := by
  constructor
  · intro e e' _ replaced
    simp [ExprReplaceVisitor2] at replaced
  · intro e e' _ replaced
    obtain ⟨before, after, split, -⟩ := List.lookup_eq_some_iff.mp replaced
    exact agree (e, e') (by simp [split])

theorem ExprReplaceVisitor.visit_kept (fuel : Nat) :
    ∀ e : Expr, e.WellFormed guards → Satisfies (fun _ => True)
      (fun e' => e' = e ∨ src.WellFormed guards) ((ExprReplaceVisitor src dst).visit o fuel e) := by
  induction fuel with
  | zero =>
    intro e _
    trivial
  | succ fuel ih =>
    intro e wellFormed
    rw [ExprVisitor.visit.eq_def]
    dsimp only
    split
    · exact .inl rfl
    · rename_i argument replaced
      simp only [ExprReplaceVisitor, Option.ite_none_right_eq_some] at replaced
      obtain ⟨rfl, -⟩ := replaced
      exact .inr wellFormed
    · rename_i different
      by_cases occurs : src.WellFormed guards
      · exact Satisfies.self.mono fun _ _ => .inr occurs
      apply Satisfies.bind (.mapM (· = ·) fun kid member =>
          (ih kid (wellFormed.of_mem_kids kid member)).mono fun _ kept =>
            (kept.resolve_right occurs).symm)
      intro kids kept
      rw [List.forall₂_eq_eq_eq] at kept
      subst kept
      have absent : e ≠ src := by
        intro same
        exact occurs (same ▸ wellFormed)
      simp only [if_true]
      refine .inl ?_
      rw [ExprVisitor.post]
      split
      · rfl
      · simp [ExprReplaceVisitor, absent]

end Meaning

section Shrinking

def Shrinks (e e' : Expr) : Prop := e' = e ∨ e'.weight < e.weight

theorem Shrinks.weight_le (shrinks : Shrinks e e') : e'.weight ≤ e.weight := by
  cases shrinks with
  | inl same => exact Nat.le_of_eq (congrArg Expr.weight same)
  | inr lighter => exact Nat.le_of_lt lighter

theorem Shrinks.lighter (shrinks : Shrinks e e') (different : e' ≠ e) : e'.weight < e.weight :=
  shrinks.resolve_left different

theorem Expr.weight_compound (compound : e.constant? = none) : 1 < e.weight := by
  cases e with
  | constant value => simp [constant?] at compound
  | notOptimized src | extract src offset width | not src | zext src width | sext src width =>
    have positive := src.weight_pos
    simp
    omega
  | read root head index =>
    have positive := index.weight_pos
    simp
    omega
  | select cond trueExpr falseExpr => simp
  | concat left right | binary kind left right | cmp kind left right =>
    have positiveLeft := left.weight_pos
    have positiveRight := right.weight_pos
    simp
    omega

theorem Expr.rebuild_made {divides : Prop} (e : Expr) (kids : List Expr)
    (divided : ∀ kind left right, e = .binary kind left right → kind.isDivision = true →
      ∀ l cr, kids = [l, .constant cr] → cr.isZero = true → divides) :
    Made divides False (e.withKids kids).weight (e.rebuild o fuel kids) := by
  rw [Expr.rebuild.eq_def]
  split
  · exact ⟨False.elim, Nat.le_refl _⟩
  · exact ReadExpr.create_made _ False.elim False.elim
  · exact SelectExpr.create_made False.elim False.elim False.elim
  · exact (slices_made fuel).1 False.elim False.elim
  · exact (slices_made fuel).2 _ _ False.elim
  · refine ⟨False.elim, ?_⟩
    rw [NotExpr.create]
    split <;> simp [withKids]
  · exact ZExtExpr.create_made False.elim _
  · exact SExtExpr.create_made False.elim _
  · rename_i kind left right l r
    refine kind.create_made False.elim False.elim ?_ fun _ => False.elim
    intro isDivision cr isConstant
    exact divided kind left right rfl isDivision l cr (isConstant ▸ rfl)
  · exact CmpKind.create_made False.elim False.elim _
  · nofun

theorem Expr.weight_kids {kid : Expr} (member : kid ∈ e.kids) : kid.weight < e.weight := by
  have positiveKid := kid.weight_pos
  cases e with
  | constant value => simp [Expr.kids] at member
  | notOptimized src | read _ _ src | extract src _ _ | not src | zext src _ | sext src _ =>
    obtain rfl : kid = src := by simpa [Expr.kids] using member
    simp
    try omega
  | select cond trueExpr falseExpr =>
    simp [Expr.kids] at member
    obtain rfl | rfl | rfl := member <;>
    · simp
      omega
  | concat left right | binary kind left right | cmp kind left right =>
    have positiveLeft := left.weight_pos
    have positiveRight := right.weight_pos
    simp [Expr.kids] at member
    obtain rfl | rfl := member <;>
    · simp only [Expr.weight]
      omega

theorem Expr.withKids_lighter (shrink : List.Forall₂ Shrinks e.kids kids)
    (changed : kids ≠ e.kids) : (e.withKids kids).weight < e.weight := by
  cases e with
  | constant value =>
    cases shrink
    exact absurd rfl changed
  | notOptimized src | read _ _ src | extract src _ _ | not src | zext src _ | sext src _ =>
    obtain _ | ⟨shrinks, _ | _⟩ := shrink
    have lighter := shrinks.lighter fun same => changed (by simp [Expr.kids, same])
    simp [withKids]
    try omega
  | select cond trueExpr falseExpr =>
    obtain _ | ⟨shrinksCond, _ | ⟨shrinksTrue, _ | ⟨shrinksFalse, _ | _⟩⟩⟩ := shrink
    have lightTrue := shrinksTrue.weight_le
    have lightFalse := shrinksFalse.weight_le
    simp only [withKids, Expr.weight]
    obtain rfl | lighterCond := shrinksCond
    · obtain rfl | lighterTrue := shrinksTrue
      · have lighterFalse := shrinksFalse.lighter fun same => changed (by simp [Expr.kids, same])
        omega
      · omega
    · omega
  | concat left right | binary kind left right | cmp kind left right =>
    obtain _ | ⟨shrinksLeft, _ | ⟨shrinksRight, _ | _⟩⟩ := shrink
    have lightRight := shrinksRight.weight_le
    simp only [withKids, Expr.weight]
    obtain rfl | lighterLeft := shrinksLeft
    · have lighterRight := shrinksRight.lighter fun same => changed (by simp [Expr.kids, same])
      omega
    · omega

structure ExprVisitor.Lightens (visitor : ExprVisitor) : Prop where
  visitExpr : ∀ {e e' : Expr}, e.constant? = none → visitor.visitExpr e = some e' →
    e'.weight < e.weight
  visitExprPost : ∀ {e e' : Expr}, e.constant? = none → visitor.visitExprPost e = some e' →
    e'.weight < e.weight

namespace ExprVisitor.Lightens

variable {visitor : ExprVisitor}

theorem post (lightens : visitor.Lightens) (e : Expr) : Shrinks e (visitor.post e) := by
  rw [ExprVisitor.post]
  split
  · exact .inl rfl
  · rename_i compound
    cases replaced : visitor.visitExprPost e with
    | none => exact .inl rfl
    | some e' => exact .inr (lightens.visitExprPost compound replaced)

theorem rebuild (shrink : List.Forall₂ Shrinks e.kids kids) (changed : kids ≠ e.kids) :
    Satisfies (fun _ => True) (fun rebuilt => rebuilt.weight < e.weight) (e.rebuild o fuel kids) :=
  (Satisfies.weaken (e.rebuild_made kids fun _ _ _ _ _ _ _ _ _ => trivial) fun _ _ => trivial).mono fun _ made =>
      Nat.lt_of_le_of_lt made.2 (withKids_lighter shrink changed)

theorem visit (lightens : visitor.Lightens) (fuel : Nat) :
    ∀ e : Expr, Satisfies (fun _ => True) (Shrinks e) (visitor.visit o fuel e) := by
  induction fuel with
  | zero =>
    intro e
    trivial
  | succ fuel ih =>
    intro e
    rw [ExprVisitor.visit.eq_def]
    dsimp only
    split
    · exact .inl rfl
    · rename_i compound replaced
      exact .inr (lightens.visitExpr compound replaced)
    · apply Satisfies.bind (.mapM Shrinks fun kid _ => ih kid)
      intro kids shrink
      split
      · exact lightens.post e
      · rename_i changed
        apply Satisfies.bind (rebuild shrink changed)
        intro rebuilt lighter
        split
        · rw [map_eq_pure_bind]
          apply Satisfies.bind (ih rebuilt)
          intro result shrinks
          have lightResult := shrinks.weight_le
          have lightPost := (lightens.post result).weight_le
          exact .inr (by omega)
        · have lightPost := (lightens.post rebuilt).weight_le
          exact .inr (by omega)

end ExprVisitor.Lightens

theorem Expr.rebuild_ends (replaced : kids.length = e.kids.length)
    (compound : e.constant? = none) : Ends fun fuel => e.rebuild o fuel kids := by
  cases e with
  | constant value => simp [constant?] at compound
  | notOptimized src | not src =>
    obtain ⟨kid, rfl⟩ := List.length_eq_one_iff.mp replaced
    exact .pure _
  | read root head index =>
    obtain ⟨kid, rfl⟩ := List.length_eq_one_iff.mp replaced
    exact ReadExpr.create_ends root head kid
  | select cond trueExpr falseExpr =>
    obtain ⟨c, t, f, rfl⟩ := List.length_eq_three.mp replaced
    exact SelectExpr.create_ends c t f
  | concat left right =>
    obtain ⟨l, r, rfl⟩ := List.length_eq_two.mp replaced
    exact ConcatExpr.create_ends l r
  | extract expr offset width =>
    obtain ⟨kid, rfl⟩ := List.length_eq_one_iff.mp replaced
    exact ExtractExpr.create_ends kid offset width
  | zext src width =>
    obtain ⟨kid, rfl⟩ := List.length_eq_one_iff.mp replaced
    exact ZExtExpr.create_ends kid width
  | sext src width =>
    obtain ⟨kid, rfl⟩ := List.length_eq_one_iff.mp replaced
    exact SExtExpr.create_ends kid width
  | binary kind left right =>
    obtain ⟨l, r, rfl⟩ := List.length_eq_two.mp replaced
    exact kind.create_ends l r
  | cmp kind left right =>
    obtain ⟨l, r, rfl⟩ := List.length_eq_two.mp replaced
    exact kind.create_ends l r

/-- By induction on the weight, which the rebuilt expression does not reach. -/
theorem ExprVisitor.visit_ends {visitor : ExprVisitor} (lightens : visitor.Lightens) (e : Expr) :
    Ends fun fuel => visitor.visit o fuel e := by
  apply Halts.succ
  apply Halts.congr fun fuel => ExprVisitor.visit.eq_def o visitor (fuel + 1) e
  dsimp only
  cases isConstant : e.constant? with
  | some value => exact .pure e
  | none =>
    cases visitor.visitExpr e with
    | some argument => exact .pure argument
    | none =>
      apply Halts.bind
      · apply Halts.mapM
        intro kid member
        have lighter := weight_kids member
        exact visit_ends lightens kid
      · intro kids returned
        have shrink : List.Forall₂ Shrinks e.kids kids := returned.satisfies fun fuel =>
            .mapM Shrinks fun kid _ => lightens.visit fuel kid
        apply Halts.ite fun _ => .pure _
        intro changed
        apply Halts.bind (rebuild_ends shrink.length_eq.symm isConstant)
        intro rebuilt returnedRebuilt
        have lighter : rebuilt.weight < e.weight := returnedRebuilt.satisfies fun fuel => Lightens.rebuild shrink changed
        apply Halts.ite
        · intro _
          exact (visit_ends lightens rebuilt).map
        · intro _
          exact .pure _
termination_by e.weight

theorem ExprReplaceVisitor.lightens (value : ConstantExpr) : (ExprReplaceVisitor src (.constant value)).Lightens := by
  constructor <;>
  · intro e e' compound replaced
    simp only [ExprReplaceVisitor, Option.ite_none_right_eq_some, Option.some.injEq] at replaced
    obtain ⟨-, rfl⟩ := replaced
    exact weight_compound compound

theorem ExprReplaceVisitor2.lightens {replacements : List (Expr × Expr)}
    (constants : ∀ replacement ∈ replacements, ∃ value, replacement.2 = .constant value) :
    (ExprReplaceVisitor2 replacements).Lightens := by
  constructor
  · intro e e' _ replaced
    simp [ExprReplaceVisitor2] at replaced
  · intro e e' compound replaced
    obtain ⟨before, after, split, -⟩ := List.lookup_eq_some_iff.mp replaced
    obtain ⟨value, rfl⟩ := constants (e, e') (by simp [split])
    exact weight_compound compound

end Shrinking

end NeuroMerge.Symbolic
