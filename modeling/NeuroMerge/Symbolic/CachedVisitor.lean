import NeuroMerge.Foundations.Memo
import NeuroMerge.Symbolic.ConstraintProperties
import NeuroMerge.Symbolic.EvaluatorProperties

/-!
# Visitors with their cache

`ExprVisitor::visit` keeps the expressions it has visited, with what became of
them, for as long as the visitor lives. It returns what the visitor without the
cache does, and so `simplifyExpr` keeps the value of an expression. The evaluator is
a visitor of the same kind.
-/

namespace NeuroMerge.Symbolic

abbrev Visited := List (Expr × Expr)

/-- `ExprVisitor::visitActual`, where `visit` serves the children. -/
def ExprVisitor.visitActual (o : Options) (visitor : ExprVisitor) (fuel : Nat)
    (visit : Expr → StateT Visited (Except Fault) Expr) (e : Expr) :
    StateT Visited (Except Fault) Expr :=
  match e.constant?, visitor.visitExpr e with
  | some _, _ => pure e
  | none, some argument => pure argument
  | none, none => do
    let kids ← e.kids.mapM visit
    if kids = e.kids then pure (visitor.post e)
    else do
      let rebuilt ← StateT.lift (e.rebuild o fuel kids)
      if visitor.recursive then visitor.post <$> visit rebuilt
      else pure (visitor.post rebuilt)

/-- `ExprVisitor::visit`. The option `use-visitor-hash` turns the cache on, which
constants never enter. -/
def ExprVisitor.visitHashed (o : Options) (useVisitorHash : Bool) (visitor : ExprVisitor) :
    Nat → Expr → StateT Visited (Except Fault) Expr
  | 0, _ => throw .outOfFuel
  | fuel + 1, e =>
    if !useVisitorHash || e.constant?.isSome then
      visitor.visitActual o fuel (visitor.visitHashed o useVisitorHash fuel) e
    else memo e (visitor.visitActual o fuel (visitor.visitHashed o useVisitorHash fuel) e)

namespace ExprVisitor

variable {o : Options} {visitor : ExprVisitor} {useVisitorHash : Bool}

/-- A visit does not notice the cache. The induction is that of `visit_ends`. -/
theorem visitHashed_tracks (lightens : visitor.Lightens) (e : Expr) :
    Tracks .outOfFuel (Cached (visitor.visit o)) (fun fuel => visitor.visit o fuel e)
      fun fuel => visitor.visitHashed o useVisitorHash fuel e := by
  have actual : Tracks .outOfFuel (Cached (visitor.visit o)) (fun fuel => visitor.visit o (fuel + 1) e)
      fun fuel => visitor.visitActual o fuel (visitor.visitHashed o useVisitorHash fuel) e := by
    apply Tracks.congr (fun fuel => ExprVisitor.visit.eq_def o visitor (fuel + 1) e)
      fun fuel => ExprVisitor.visitActual.eq_def o visitor fuel _ e
    dsimp only
    cases isConstant : e.constant? with
    | some value => exact Tracks.pure e
    | none =>
      cases visitor.visitExpr e with
      | some argument => exact Tracks.pure argument
      | none =>
        apply Tracks.bind
        · apply Tracks.mapM
          intro kid member
          have lighter := Expr.weight_kids member
          exact visitHashed_tracks lightens kid
        · intro kids returned
          have shrink : List.Forall₂ Shrinks e.kids kids := returned.satisfies fun fuel =>
              .mapM Shrinks fun kid _ => lightens.visit fuel kid
          apply Tracks.ite fun _ => Tracks.pure _
          intro changed
          apply Tracks.bind (Tracks.lift (Expr.rebuild_ends shrink.length_eq.symm isConstant))
          intro rebuilt returnedRebuilt
          have lighter : rebuilt.weight < e.weight := returnedRebuilt.satisfies fun fuel => Lightens.rebuild shrink changed
          apply Tracks.ite
          · intro _
            exact (visitHashed_tracks lightens rebuilt).map
          · intro _
            exact Tracks.pure _
  apply Tracks.succ
  apply Tracks.congr (fun _ => rfl) fun fuel => ExprVisitor.visitHashed.eq_def o useVisitorHash visitor (fuel + 1) e
  by_cases bypassed : (!useVisitorHash || e.constant?.isSome) = true
  · simpa only [bypassed, if_true] using actual
  · simp only [bypassed, Bool.false_eq_true, if_false]
    exact Tracks.memo (fun value => @Returns.succ_iff _ _ (fun fuel => visitor.visit o fuel e) value) actual
termination_by e.weight

end ExprVisitor

namespace ExprEvaluator

section Hashed

variable (o : Options) (a : PartialAssignment) (visit : Expr → StateT Visited (Except Fault) Expr) (fuel : Nat)

def evalReadHashed (root : Array) (index : Nat) : UpdateNode → StateT Visited (Except Fault) Expr
  | .null =>
    match root.constantValues[index]? with
    | some value => pure (.constant ⟨root.range, value⟩)
    | none => StateT.lift (a.evaluateByte o fuel root index)
  | .node position value next => do
    let ui ← visit position
    match ui.constant? with
    | some ce =>
      if ce.value.toNat = index then visit value
      else evalReadHashed root index next
    | none => StateT.lift (ReadExpr.create o fuel root (.node position value next)
        (.constant (.alloc index root.domain)))

def doChildrenHashed (e : Expr) : StateT Visited (Except Fault) Expr := do
  let kids ← e.kids.mapM visit
  post <$> if kids = e.kids then pure e else StateT.lift (e.rebuild o fuel kids)

def protectedDivOperationHashed (e left right : Expr) : StateT Visited (Except Fault) Expr := do
  let left' ← visit left
  let visited ← visit right
  let right' := protectedDivisor right visited
  if left' ≠ left ∨ right' ≠ right then StateT.lift (e.rebuild o fuel [left', right']) else pure e

def visitActual (e : Expr) : StateT Visited (Except Fault) Expr :=
  if e.constant?.isSome then pure e
  else if isRead e = false ∧ ∀ kid ∈ e.kids, kid.constant?.isSome = true then
    StateT.lift (e.rebuild o fuel e.kids)
  else
    match e with
    | .read root head index => do
      let v ← visit index
      match v.constant? with
      | some ce => do
        StateT.lift (require (ce.width ≤ 64) .indexTooLarge)
        evalReadHashed o a visit fuel root (ce.value.toNat % 2 ^ 32) head
      | none => doChildrenHashed o visit fuel (.read root head index)
    | .binary kind left right =>
      if kind.isDivision then
        protectedDivOperationHashed o visit fuel (.binary kind left right) left right
      else doChildrenHashed o visit fuel (.binary kind left right)
    | e => doChildrenHashed o visit fuel e

end Hashed

/-- `visit` with the table of the visitor. -/
def visitHashed (o : Options) (a : PartialAssignment) (useVisitorHash : Bool) :
    Nat → Expr → StateT Visited (Except Fault) Expr
  | 0, _ => throw .outOfFuel
  | fuel + 1, e =>
    if !useVisitorHash || e.constant?.isSome then
      visitActual o a (visitHashed o a useVisitorHash fuel) fuel e
    else memo e (visitActual o a (visitHashed o a useVisitorHash fuel) fuel e)

variable {o : Options} {a : PartialAssignment} {useVisitorHash : Bool} {e : Expr} {valid : Visited → Prop}
  {visit : Nat → Expr → Except Fault Expr} {hashed : Nat → Expr → StateT Visited (Except Fault) Expr}

theorem evalReadHashed_tracks (root : Array) (index : Nat) : ∀ head : UpdateNode,
    (∀ kid ∈ head.kids, Tracks .outOfFuel valid (fun fuel => visit fuel kid) fun fuel => hashed fuel kid) →
      Tracks .outOfFuel valid (fun fuel => evalRead o a (visit fuel) fuel root index head)
        fun fuel => evalReadHashed o a (hashed fuel) fuel root index head
  | .null, _ => by
    simp only [evalRead, evalReadHashed]
    cases root.constantValues[index]? with
    | some value => exact Tracks.pure _
    | none => exact Tracks.lift (evaluateByte_ends root index)
  | .node position value next, tracks => by
    apply (tracks position (.head _)).bind
    intro ui _
    cases ui.constant? with
    | some ce =>
      apply Tracks.ite fun _ => tracks value (.tail _ (.head _))
      intro _
      exact evalReadHashed_tracks root index next fun kid member => tracks kid (.tail _ (.tail _ member))
    | none => exact Tracks.lift (ReadExpr.create_ends _ _ _)

theorem doChildrenHashed_tracks (compound : e.constant? = none)
    (tracks : ∀ kid ∈ e.kids, Tracks .outOfFuel valid (fun fuel => visit fuel kid) fun fuel => hashed fuel kid) :
    Tracks .outOfFuel valid (fun fuel => doChildren o (visit fuel) fuel e)
      fun fuel => doChildrenHashed o (hashed fuel) fuel e := by
  apply (Tracks.mapM tracks).bind
  intro kids returned
  apply Tracks.map
  apply Tracks.ite fun _ => Tracks.pure e
  intro _
  exact Tracks.lift (Expr.rebuild_ends (length_mapM returned) compound)

theorem protectedDivOperationHashed_tracks (kind : BinaryKind) {left right : Expr}
    (tracks : ∀ kid ∈ [left, right], Tracks .outOfFuel valid (fun fuel => visit fuel kid) fun fuel => hashed fuel kid) :
    Tracks .outOfFuel valid
      (fun fuel => protectedDivOperation o (visit fuel) fuel (.binary kind left right) left right)
      fun fuel => protectedDivOperationHashed o (hashed fuel) fuel (.binary kind left right) left right := by
  apply (tracks left (.head _)).bind
  intro left' _
  apply (tracks right (.tail _ (.head _))).bind
  intro visited _
  exact Tracks.ite (fun _ => Tracks.lift (kind.create_ends _ _)) fun _ => Tracks.pure _

/-- The induction is that of `visit_ends`. -/
theorem visitHashed_tracks (e : Expr) : Tracks .outOfFuel (Cached (ExprEvaluator.visit o a))
    (fun fuel => ExprEvaluator.visit o a fuel e) fun fuel => visitHashed o a useVisitorHash fuel e := by
  have actual : Tracks .outOfFuel (Cached (ExprEvaluator.visit o a)) (fun fuel => ExprEvaluator.visit o a (fuel + 1) e)
      fun fuel => visitActual o a (visitHashed o a useVisitorHash fuel) fuel e := by
    apply Tracks.ite fun _ => Tracks.pure e
    intro notConstant
    have compound : e.constant? = none := by simpa using notConstant
    apply Tracks.ite fun _ => Tracks.lift (Expr.rebuild_ends rfl compound)
    intro _
    have tracks (kid) (member : kid ∈ e.kids) : Tracks .outOfFuel (Cached (ExprEvaluator.visit o a))
        (fun fuel => ExprEvaluator.visit o a fuel kid) fun fuel => visitHashed o a useVisitorHash fuel kid :=
      have fewer := e.nodes_of_mem_kids member
      visitHashed_tracks kid
    match e with
    | .read root head index =>
      apply (tracks index (.head _)).bind
      intro v _
      cases v.constant? with
      | some ce =>
        have checked : Ends fun _ => require (ce.width ≤ 64) .indexTooLarge := .ite (fun _ => .pure ()) fun _ => .error _ (by simp)
        apply (Tracks.lift checked).bind
        intro _ _
        apply evalReadHashed_tracks
        intro kid member
        have fewer := head.nodes_of_mem_kids member
        have whole : (Expr.read root head index).nodes = index.nodes + head.nodes + 1 := by
          rw [Expr.nodes]
        exact visitHashed_tracks kid
      | none => exact doChildrenHashed_tracks compound tracks
    | .binary kind left right =>
      apply Tracks.ite fun _ => protectedDivOperationHashed_tracks kind tracks
      intro _
      exact doChildrenHashed_tracks compound tracks
    | .constant _ | .notOptimized _ | .select _ _ _ | .concat _ _ | .extract _ _ _ | .not _
    | .zext _ _ | .sext _ _ | .cmp _ _ _ => exact doChildrenHashed_tracks compound tracks
  apply Tracks.succ
  apply Tracks.congr (fun _ => rfl) fun fuel => visitHashed.eq_def o a useVisitorHash (fuel + 1) e
  by_cases bypassed : (!useVisitorHash || e.constant?.isSome) = true
  · simpa only [bypassed, if_true] using actual
  · simp only [bypassed, Bool.false_eq_true, if_false]
    exact Tracks.memo (fun value => @Returns.succ_iff _ _ (fun fuel => ExprEvaluator.visit o a fuel e) value) actual
termination_by e.nodes
decreasing_by all_goals omega

end ExprEvaluator

/-- `Assignment::evaluate` with the visitor that the program has. -/
def PartialAssignment.evaluateHashed (o : Options) (useVisitorHash : Bool) (fuel : Nat) (a : PartialAssignment)
    (e : Expr) : Except Fault Expr :=
  (ExprEvaluator.visitHashed o a useVisitorHash fuel e).run' []

theorem PartialAssignment.evaluateHashed_returns {o : Options} {useVisitorHash : Bool} {a : PartialAssignment} {e : Expr}
    (result : Expr) : Returns (fun fuel => a.evaluateHashed o useVisitorHash fuel e) result ↔
      Returns (fun fuel => a.evaluate o fuel e) result :=
  (ExprEvaluator.visitHashed_tracks e).returns_iff (by simp [Cached]) result

namespace ConstraintManager

variable {o : Options} {useVisitorHash : Bool} {constraints : List Expr} {e : Expr}

/-- `ConstraintManager::simplifyExpr` with the visitor that the program has. -/
def simplifyExprHashed (o : Options) (useVisitorHash : Bool) (fuel : Nat)
    (constraints : List Expr) (e : Expr) : Except Fault Expr :=
  match e.constant? with
  | some _ => pure e
  | none =>
    ((ExprReplaceVisitor2 (constraints.map equality)).visitHashed o useVisitorHash fuel e).run' []

theorem simplifyExprHashed_returns (result : Expr) :
    Returns (fun fuel => simplifyExprHashed o useVisitorHash fuel constraints e) result ↔
      Returns (fun fuel => simplifyExpr o fuel constraints e) result := by
  cases isConstant : e.constant? with
  | some value => simp only [simplifyExprHashed, simplifyExpr, isConstant]
  | none =>
    simp only [simplifyExprHashed, simplifyExpr, isConstant]
    have lightens : (ExprReplaceVisitor2 (constraints.map equality)).Lightens := by
      apply ExprReplaceVisitor2.lightens
      intro replacement member
      obtain ⟨c, -, rfl⟩ := List.mem_map.mp member
      exact equality_constant c
    exact (ExprVisitor.visitHashed_tracks lightens e).returns_iff (by simp [Cached]) result

/-- Some assignment satisfies the constraints and divides by zero nowhere, neither
in them nor in the expression. -/
def Simplifiable (o : Options) (constraints : List Expr) (e : Expr) : Prop :=
  ∃ ρ, (∀ c ∈ constraints, Denotes (.safe o ρ) ρ c 1#1) ∧ e.WellFormed (.safe o ρ)

/-- Whatever the simplifier returns has the value of the expression under every
assignment that satisfies the constraints, and only a division by zero can keep it
from returning. -/
theorem simplifyExprHashed_sound (o : Options) (useVisitorHash : Bool)
    (constraints : List Expr) (e : Expr) :
    (∀ result, Returns (fun fuel => simplifyExprHashed o useVisitorHash fuel constraints e) result →
      ∀ ρ, (∀ c ∈ e :: constraints, c.WellFormed (.bounded o ρ)) →
        (∀ c ∈ constraints, c.width = 1) → Hold ρ constraints →
        result.width = e.width ∧ result.eval ρ e.width = e.eval ρ e.width) ∧
    (Simplifiable o constraints e →
      ∃ result, Returns
        (fun fuel => simplifyExprHashed o useVisitorHash fuel constraints e) result) := by
  constructor
  · intro result returned ρ wellFormed boolean hold
    rw [simplifyExprHashed_returns] at returned
    have denote (c) (member : c ∈ constraints) : Denotes (.bounded o ρ) ρ c 1#1 :=
      ⟨wellFormed c (by simp [member]), boolean c member, hold c member⟩
    have agrees : Agrees (.bounded o ρ) ρ e result :=
      returned.satisfies fun fuel => simplifyExpr_agrees Guards.allows_bounded
        Guards.extensional_bounded denote (wellFormed e (by simp))
    exact ⟨agrees.width, agrees.value⟩
  · rintro ⟨ρ, hold, wellFormed⟩
    obtain ⟨result, -, returns⟩ := (simplifyExpr_ends (o := o) constraints e).returns fun fuel =>
      only_outOfFuel (simplifyExpr_agrees Guards.allows_safe Guards.extensional_safe hold wellFormed)
    exact ⟨result, (simplifyExprHashed_returns result).mpr returns⟩

section Example

theorem simplifyExprHashed_sound_sample :
    ∃ result, Returns (fun fuel => simplifyExprHashed ⟨false, true⟩ true fuel
        [.cmp .eq (.constant (.alloc 3 8)) sampleByte]
        (.binary .add (.constant (.alloc 1 8)) sampleByte)) result ∧
      result.eval (fun root _ => BitVec.ofNat root.range 3) 8 = 4#8 := by
  have sound := simplifyExprHashed_sound ⟨false, true⟩ true
    [.cmp .eq (.constant (.alloc 3 8)) sampleByte]
    (.binary .add (.constant (.alloc 1 8)) sampleByte)
  obtain ⟨result, returned⟩ := sound.2 (by
    refine ⟨fun root _ => BitVec.ofNat root.range 3, ?_, ?_⟩
    · intro c member
      rw [List.mem_singleton] at member
      subst member
      refine ⟨?_, rfl, by decide⟩
      simp [sampleByte, sampleArray, Array.isConstantArray, Array.isSymbolicArray,
        ConstantExpr.alloc]
    · simp [sampleByte, sampleArray, Array.isConstantArray, Array.isSymbolicArray,
        ConstantExpr.alloc, BinaryKind.isDivision])
  refine ⟨result, returned, ?_⟩
  have kept := sound.1 result returned (fun root _ => BitVec.ofNat root.range 3)
    (by simp [sampleByte, sampleArray, Array.isConstantArray, Array.isSymbolicArray,
      ConstantExpr.alloc, BinaryKind.isDivision]) (by simp) (by unfold Hold; decide)
  have four : (Expr.binary .add (.constant (.alloc 1 8)) sampleByte).eval
      (fun root _ => BitVec.ofNat root.range 3) 8 = 4#8 := by decide
  exact kept.2.trans four

end Example

end ConstraintManager

end NeuroMerge.Symbolic
