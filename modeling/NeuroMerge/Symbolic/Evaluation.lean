import NeuroMerge.Symbolic.CachedVisitor

/-!
# What evaluation computes

Under an assignment that has all bytes an expression evaluates to the constant
that it means, unless a constant is marked as not to be optimized: such a mark is
only taken off what had to be visited.
-/

namespace NeuroMerge.Symbolic

variable {guards : Guards} {ρ : Assignment} {o : Options} {a : PartialAssignment} {e : Expr}

mutual

theorem Expr.All.of_inherited {p q : Expr → Prop} (here : ∀ e, q e → p e) (kids : ∀ e, q e → ∀ kid ∈ e.kids, q kid)
    (updates : ∀ root head index, q (.read root head index) → ∀ kid ∈ head.kids, q kid) :
    ∀ e : Expr, q e → e.All p
  | .constant _, holds => here _ holds
  | .notOptimized src, holds =>
    ⟨here _ holds, .of_inherited here kids updates src (kids _ holds src (.head _))⟩
  | .read root head index, holds =>
    ⟨here _ holds, UpdateNode.All.of_inherited here kids updates head (updates root head index holds),
      .of_inherited here kids updates index (kids _ holds index (.head _))⟩
  | .select cond trueExpr falseExpr, holds =>
    ⟨here _ holds, .of_inherited here kids updates cond (kids _ holds cond (.head _)),
      .of_inherited here kids updates trueExpr (kids _ holds trueExpr (.tail _ (.head _))),
      .of_inherited here kids updates falseExpr (kids _ holds falseExpr (.tail _ (.tail _ (.head _))))⟩
  | .concat left right, holds =>
    ⟨here _ holds, .of_inherited here kids updates left (kids _ holds left (.head _)),
      .of_inherited here kids updates right (kids _ holds right (.tail _ (.head _)))⟩
  | .extract expr _ _, holds =>
    ⟨here _ holds, .of_inherited here kids updates expr (kids _ holds expr (.head _))⟩
  | .not expr, holds =>
    ⟨here _ holds, .of_inherited here kids updates expr (kids _ holds expr (.head _))⟩
  | .zext src _, holds =>
    ⟨here _ holds, .of_inherited here kids updates src (kids _ holds src (.head _))⟩
  | .sext src _, holds =>
    ⟨here _ holds, .of_inherited here kids updates src (kids _ holds src (.head _))⟩
  | .binary _ left right, holds =>
    ⟨here _ holds, .of_inherited here kids updates left (kids _ holds left (.head _)),
      .of_inherited here kids updates right (kids _ holds right (.tail _ (.head _)))⟩
  | .cmp _ left right, holds =>
    ⟨here _ holds, .of_inherited here kids updates left (kids _ holds left (.head _)),
      .of_inherited here kids updates right (kids _ holds right (.tail _ (.head _)))⟩

theorem UpdateNode.All.of_inherited {p q : Expr → Prop} (here : ∀ e, q e → p e) (kids : ∀ e, q e → ∀ kid ∈ e.kids, q kid)
    (updates : ∀ root head index, q (.read root head index) → ∀ kid ∈ head.kids, q kid) :
    ∀ head : UpdateNode, (∀ kid ∈ head.kids, q kid) → head.All p
  | .null, _ => trivial
  | .node position value next, holds =>
    ⟨.of_inherited here kids updates position (holds position (.head _)),
      .of_inherited here kids updates value (holds value (.tail _ (.head _))),
      UpdateNode.All.of_inherited here kids updates next fun kid member =>
        holds kid (.tail _ (.tail _ member))⟩

end

def Computes (o : Options) (a : PartialAssignment) (e : Expr) : Prop :=
  Returns (fun fuel => a.evaluate o fuel e) (.constant ⟨e.width, e.eval a.toAssignment e.width⟩)

/-- No divisor is zero under the assignment, which has the bytes that are read. -/
structure Complete (o : Options) (a : PartialAssignment) (e : Expr) : Prop where
  wellFormed : e.WellFormed (.safe o a.toAssignment)
  narrow : e.Narrow
  bound : a.Bound a.toAssignment e

namespace Complete

theorem of_mem_kids (complete : Complete o a e) : ∀ kid ∈ e.kids, Complete o a kid :=
  fun kid member =>
    have fewer := Expr.reads_of_mem_kids member
    ⟨complete.wellFormed.of_mem_kids kid member, complete.narrow.mono fewer, complete.bound.mono fewer⟩

theorem of_mem_updates {root : Array} {head : UpdateNode} {index : Expr}
    (complete : Complete o a (.read root head index)) : ∀ kid ∈ head.kids, Complete o a kid :=
  fun kid member =>
    have fewer : kid.reads ⊆ (Expr.read root head index).reads := Expr.reads_of_mem_updates member
    have updates : head.WellFormed (.safe o a.toAssignment) root := complete.wellFormed.1
    ⟨updates.of_mem_kids kid member, complete.narrow.mono fewer, complete.bound.mono fewer⟩

end Complete

theorem safe_nonzero (c : ConstantExpr) (divisible : (Guards.safe o ρ).divisible (.constant c)) : c.isZero = false := by
  have nonzero : c.value.setWidth c.width ≠ 0#(c.width) := divisible
  simpa [ConstantExpr.isZero] using nonzero

theorem computes_of_plain (complete : Complete o a e) (isPlain : e.plain = true) : Computes o a e := by
  have extended := a.extends_toAssignment
  have constants (fuel : Nat) : Satisfies (· = .outOfFuel)
      (· = .constant ⟨e.width, e.eval a.toAssignment e.width⟩) (a.evaluate o fuel e) := by
    have agrees := ExprEvaluator.visit_agrees Guards.allows_safe Guards.extensional_safe extended
      fuel e complete.wellFormed complete.narrow
    have undivided : Undivided (ExprEvaluator.visit o a fuel e) := ExprEvaluator.visit_undivided safe_nonzero fuel e complete.wellFormed
    have constant : BuildsConstant (ExprEvaluator.visit o a fuel e) :=
      ExprEvaluator.visit_constant extended fuel e complete.wellFormed complete.narrow isPlain complete.bound
    apply Satisfies.of_forall
    · intro value returned
      obtain ⟨c, found⟩ := Option.isSome_iff_exists.mp (constant.elim returned)
      rw [Expr.constant?_eq_some] at found
      subst found
      have agreesValue : Agrees _ _ e (.constant c) := agrees.elim returned
      rw [agreesValue.of_constant]
    · intro fault raised
      exact (agrees.fault raised).resolve_right fun divided => undivided.fault raised divided.1
  obtain ⟨value, rfl, returns⟩ := (ExprEvaluator.visit_ends e).returns constants
  exact returns

theorem evaluate_marked (c : ConstantExpr) :
    Returns (fun fuel => a.evaluate o fuel (.notOptimized (.constant c))) (.notOptimized (.constant c)) :=
  .succ (.of_eq fun _ => rfl)

theorem marked_not_computes (c : ConstantExpr) : ¬ Computes o a (.notOptimized (.constant c)) :=
  fun computes => nomatch (evaluate_marked c).unique computes

mutual

theorem plain_of_computes : ∀ e : Expr, e.All (Computes o a) → e.plain = true
  | .constant _, _ => rfl
  | .notOptimized src, all => by
    refine Bool.and_eq_true_iff.mpr ⟨?_, plain_of_computes src all.2⟩
    cases isConstant : src.constant? with
    | none => rfl
    | some c =>
      rw [Expr.constant?_eq_some] at isConstant
      subst isConstant
      exact absurd all.1 (marked_not_computes c)
  | .read _ head index, all =>
    Bool.and_eq_true_iff.mpr ⟨plain_of_computes index all.2.2, updates_plain_of_computes head all.2.1⟩
  | .select cond trueExpr falseExpr, all =>
    Bool.and_eq_true_iff.mpr ⟨plain_of_computes cond all.2.1, Bool.and_eq_true_iff.mpr
      ⟨plain_of_computes trueExpr all.2.2.1, plain_of_computes falseExpr all.2.2.2⟩⟩
  | .concat left right, all =>
    Bool.and_eq_true_iff.mpr ⟨plain_of_computes left all.2.1, plain_of_computes right all.2.2⟩
  | .extract expr _ _, all => plain_of_computes expr all.2
  | .not expr, all => plain_of_computes expr all.2
  | .zext src _, all => plain_of_computes src all.2
  | .sext src _, all => plain_of_computes src all.2
  | .binary _ left right, all =>
    Bool.and_eq_true_iff.mpr ⟨plain_of_computes left all.2.1, plain_of_computes right all.2.2⟩
  | .cmp _ left right, all =>
    Bool.and_eq_true_iff.mpr ⟨plain_of_computes left all.2.1, plain_of_computes right all.2.2⟩

theorem updates_plain_of_computes :
    ∀ head : UpdateNode, head.All (Computes o a) → head.plain = true
  | .null, _ => rfl
  | .node position value next, all =>
    Bool.and_eq_true_iff.mpr ⟨plain_of_computes position all.1, Bool.and_eq_true_iff.mpr
      ⟨plain_of_computes value all.2.1, updates_plain_of_computes next all.2.2⟩⟩

end

theorem all_computes : ∀ e : Expr, Complete o a e ∧ e.plain = true → e.All (Computes o a) := by
  apply Expr.All.of_inherited
  · intro e both
    exact computes_of_plain both.1 both.2
  · intro e both kid member
    exact ⟨both.1.of_mem_kids kid member, Expr.plain_of_mem_kids both.2 kid member⟩
  · intro root head index both kid member
    have plainUpdates : head.plain = true := (Bool.and_eq_true_iff.mp both.2).2
    exact ⟨both.1.of_mem_updates kid member, UpdateNode.plain_of_mem_kids plainUpdates kid member⟩

def twoBytes : Array := .symbolic 0 "two" 2

def twoBytesSum : Expr :=
  .binary .add (.read twoBytes .null (.constant (.alloc 0 32)))
    (.read twoBytes (.node (.zext (.read twoBytes .null (.constant (.alloc 1 32))) 32)
      (.read twoBytes .null (.constant (.alloc 0 32))) .null) (.constant (.alloc 1 32)))

def twoBytesAssignment : PartialAssignment where
  allowFreeValues := false
  bindings := Finmap.singleton twoBytes [5, 1]

theorem twoBytesSum_complete : Complete ⟨false, true⟩ twoBytesAssignment twoBytesSum where
  wellFormed := by
    simp [twoBytesSum, twoBytes, Array.isConstantArray, Array.isSymbolicArray, ConstantExpr.alloc, BinaryKind.isDivision]
  narrow := by
    intro re member
    simp only [twoBytesSum, Expr.reads, UpdateNode.reads, List.append_nil, List.nil_append,
      List.cons_append, List.mem_cons, List.not_mem_nil, or_false] at member
    obtain rfl | rfl | rfl | rfl := member <;> exact Nat.le_refl 32
  bound := nofun

/-- An expression without a marked constant evaluates to its value, and all its parts do exactly
then. The table of the visitor makes no difference. -/
theorem evaluate_computes_iff (complete : Complete o a e) :
    (e.plain = true → Computes o a e) ∧ (e.All (Computes o a) ↔ e.plain = true) ∧
      ∀ useVisitorHash result, Returns (fun fuel => a.evaluateHashed o useVisitorHash fuel e) result ↔
        Returns (fun fuel => a.evaluate o fuel e) result :=
  ⟨computes_of_plain complete, ⟨plain_of_computes e, fun isPlain => all_computes e ⟨complete, isPlain⟩⟩,
    fun _ => PartialAssignment.evaluateHashed_returns⟩

theorem twoBytesSum_computes : Computes ⟨false, true⟩ twoBytesAssignment twoBytesSum :=
  (evaluate_computes_iff twoBytesSum_complete).1 (by decide)

theorem markedConstant_not_computed : ¬ ∀ (o : Options) (a : PartialAssignment) (e : Expr),
    Complete o a e → Computes o a e := by
  intro claim
  have complete : Complete ⟨false, true⟩ twoBytesAssignment
      (.notOptimized (.constant (.alloc 1 8))) := ⟨trivial, nofun, nofun⟩
  exact marked_not_computes _ (claim _ _ _ complete)

end NeuroMerge.Symbolic
