import NeuroMerge.Symbolic.Visitor

/-!
# What equalities are made of

The equality constructor takes its operands apart, compares the parts with constants
and joins what comes out. A property that survives this holds of whatever it builds.
-/

namespace NeuroMerge.Symbolic

variable {tolerated : Fault → Prop} {o : Options} {fuel : Nat} {l r e : Expr}

section Macros

variable {post : Expr → Prop} {createPartial : Expr → ConstantExpr → Except Fault Expr}
  {createPartialR : ConstantExpr → Expr → Except Fault Expr} {create : Expr → Expr → Except Fault Expr}

/-- Operands of these widths can be compared, or the assertion may fail. -/
abbrev Comparable (tolerated : Fault → Prop) (w w' : Nat) : Prop :=
  w = w' ∨ tolerated (.assertion .typeMismatch)

variable (comparable : Comparable tolerated l.width r.width)
include comparable

theorem bcreateR_satisfies {kind : BinaryKind} (notDivision : kind.isDivision = false)
    (folded : ∀ cl value, l = .constant cl → post (.constant ⟨cl.width, value⟩))
    (whenPartial : ∀ cr, r = .constant cr → l.constant? = none →
      Satisfies tolerated post (createPartial l cr))
    (whenPartialR : ∀ cl, l = .constant cl → r.constant? = none →
      Satisfies tolerated post (createPartialR cl r))
    (otherwise : l.constant? = none → r.constant? = none → Satisfies tolerated post (create l r)) :
    Satisfies tolerated post (bcreateR kind createPartial createPartialR create l r) := by
  apply require_satisfies (fun _ => ?_) comparable.resolve_left
  cases isConstantL : l.constant? with
  | some cl =>
    rw [Expr.constant?_eq_some] at isConstantL
    cases isConstantR : r.constant? with
    | some cr =>
      simp only [ConstantExpr.binary, notDivision, Bool.false_eq_true, false_and, if_false]
      exact folded cl _ isConstantL
    | none => exact whenPartialR cl isConstantL isConstantR
  | none =>
    cases isConstantR : r.constant? with
    | some cr => exact whenPartial cr (Expr.constant?_eq_some.mp isConstantR) isConstantL
    | none => exact otherwise isConstantL isConstantR

theorem cmpcreateT_satisfies {kind : CmpKind} (folded : ∀ value, post (.constant ⟨1, value⟩))
    (whenPartial : ∀ cr, r = .constant cr → l.constant? = none →
      Satisfies tolerated post (createPartial l cr))
    (whenPartialR : ∀ cl, l = .constant cl → r.constant? = none →
      Satisfies tolerated post (createPartialR cl r))
    (otherwise : l.constant? = none → r.constant? = none → Satisfies tolerated post (create l r)) :
    Satisfies tolerated post (cmpcreateT kind createPartial createPartialR create l r) := by
  apply require_satisfies (fun _ => ?_) comparable.resolve_left
  cases isConstantL : l.constant? with
  | some cl =>
    cases isConstantR : r.constant? with
    | some cr => exact folded _
    | none => exact whenPartialR cl (Expr.constant?_eq_some.mp isConstantL) isConstantR
  | none =>
    cases isConstantR : r.constant? with
    | some cr => exact whenPartial cr (Expr.constant?_eq_some.mp isConstantR) isConstantL
    | none => exact otherwise isConstantL isConstantR

/-- A constant all ones or zero decides a conjunction, or drops out of it. -/
def Expr.Absorbed (e : Expr) : Prop := ∃ c, e = .constant c ∧ (c.isAllOnes ∨ c.isZero)

theorem junction_satisfies {kind : BinaryKind} (notDivision : kind.isDivision = false)
    {junction : Expr → ConstantExpr → Except Fault Expr}
    (joins : ∀ e c, Satisfies tolerated (fun x => x = e ∨ x = .constant c ∨
      x = .binary kind e (.constant c) ∧ ¬ (Expr.constant c).Absorbed) (junction e c)) (left : post l) (right : post r)
    (folded : ∀ cl value, l = .constant cl → post (.constant ⟨cl.width, value⟩))
    (joined : l.constant? = none → ¬ r.Absorbed → post (.binary kind l r))
    (swapped : r.constant? = none → ¬ l.Absorbed → post (.binary kind r l)) :
    Satisfies tolerated post (bcreateR kind junction (fun cl e => junction e cl) (fun l r => pure (.binary kind l r)) l r) := by
  apply bcreateR_satisfies comparable notDivision folded
  · rintro cr rfl varies
    apply (joins l cr).mono
    rintro _ (rfl | rfl | ⟨rfl, apart⟩)
    · exact left
    · exact right
    · exact joined varies apart
  · rintro cl rfl varies
    apply (joins r cl).mono
    rintro _ (rfl | rfl | ⟨rfl, apart⟩)
    · exact right
    · exact left
    · exact swapped varies apart
  · intro compound varies
    apply joined compound
    rintro ⟨c, rfl, _⟩
    cases varies

variable (left : post l) (right : post r) (folded : ∀ cl value, l = .constant cl → post (.constant ⟨cl.width, value⟩))
include left right folded

theorem AndExpr.create_satisfies (joined : l.constant? = none → ¬ r.Absorbed → post (.binary .and l r))
    (swapped : r.constant? = none → ¬ l.Absorbed → post (.binary .and r l)) : Satisfies tolerated post (AndExpr.create l r) := by
  refine junction_satisfies comparable rfl (fun e c => ?_) left right folded joined swapped
  rw [andExprCreatePartial]
  split
  · exact .inl rfl
  split
  · exact .inr (.inl rfl)
  · exact .inr (.inr ⟨rfl, by rintro ⟨_, ⟨⟩, _ | _⟩ <;> contradiction⟩)

theorem OrExpr.create_satisfies (joined : l.constant? = none → ¬ r.Absorbed → post (.binary .or l r))
    (swapped : r.constant? = none → ¬ l.Absorbed → post (.binary .or r l)) : Satisfies tolerated post (OrExpr.create l r) := by
  refine junction_satisfies comparable rfl (fun e c => ?_) left right folded joined swapped
  rw [orExprCreatePartial]
  split
  · exact .inr (.inl rfl)
  split
  · exact .inl rfl
  · exact .inr (.inr ⟨rfl, by rintro ⟨_, ⟨⟩, _ | _⟩ <;> contradiction⟩)

end Macros

/-- The operands can be taken apart, and the results can be joined. What `varies` is no
constant, as far as it matters. -/
structure EqClosed (tolerated : Fault → Prop) (operand varies result : Expr → Prop) : Prop where
  outOfFuel : tolerated .outOfFuel
  constant : ∀ c, operand (.constant c)
  kid : ∀ {e kid}, operand e → kid ∈ e.kids → operand kid
  typedBinary : ∀ {kind left right}, operand (.binary kind left right) →
    Comparable tolerated left.width right.width
  typedCmp : ∀ {kind left right}, operand (.cmp kind left right) →
    Comparable tolerated left.width right.width
  compound : ∀ {e}, e.constant? = none → varies e
  sum : ∀ {kind left right}, operand (.binary kind left right) → kind = .add ∨ kind = .sub →
    varies right
  compared : ∀ {left right}, operand (.cmp .eq left right) → varies right
  itself : ∀ {e}, operand e → varies e → Comparable tolerated 1 e.width → result e
  equality : ∀ {left right}, operand left → operand right → varies right →
    (∀ c, left = .constant c → ¬ c.isTrue = true) → result (.cmp .eq left right)
  bit : ∀ value, result (.constant ⟨1, value⟩)
  folded : ∀ {c} value, result (.constant c) → result (.constant ⟨c.width, value⟩)
  typed : ∀ {left right}, result left → result right → Comparable tolerated left.width right.width
  join : ∀ {left right} kind, result left → result right → ¬ right.Absorbed →
    result (.binary kind left right)

/-- What is known of the equality constructor and its helpers at some fuel. -/
structure EqKept (tolerated : Fault → Prop) (operand varies result : Expr → Prop) (o : Options)
    (fuel : Nat) : Prop where
  create : ∀ {l r}, operand l → operand r → Comparable tolerated l.width r.width →
    Satisfies tolerated result (EqExpr.create o fuel l r)
  partialR : ∀ (cl : ConstantExpr) {r}, operand r → varies r →
    Comparable tolerated cl.width r.width → Satisfies tolerated result (eqExprCreatePartialR o fuel cl r)
  constArray : ∀ (cl : ConstantExpr), ¬ cl.isTrue = true → ∀ {root head index},
    operand (.read root head index) → varies (.read root head index) → Satisfies tolerated result (tryConstArrayOpt o fuel cl root head index)

namespace EqClosed

variable {operand varies result : Expr → Prop} (closed : EqClosed tolerated operand varies result)
include closed

theorem andExpr (left : result l) (right : result r) : Satisfies tolerated result (AndExpr.create l r) :=
  AndExpr.create_satisfies (closed.typed left right) left right
    (fun _ value same => closed.folded value (same ▸ left)) (fun _ => closed.join .and left right)
    fun _ => closed.join .and right left

theorem orExpr (left : result l) (right : result r) : Satisfies tolerated result (OrExpr.create l r) :=
  OrExpr.create_satisfies (closed.typed left right) left right
    (fun _ value same => closed.folded value (same ▸ left)) (fun _ => closed.join .or left right)
    fun _ => closed.join .or right left

theorem eqExprCreate (left : operand l) (right : operand r) (varying : varies r)
    (notTrue : ∀ c, l = .constant c → ¬ c.isTrue = true) : Satisfies tolerated result (eqExprCreate l r) :=
  .ite (closed.bit 1) (closed.equality left right varying notTrue)

theorem tryConstArrayOptLoop {isMatch : Nat → Bool} {mayBe : Nat → Except Fault Expr}
    {unchanged : Except Fault Expr} (equality : ∀ i, Satisfies tolerated result (mayBe i))
    (same : Satisfies tolerated result unchanged) (positions : List Nat) (numMatches : Nat) {res : Expr} (start : result res) :
    Satisfies tolerated result (tryConstArrayOptLoop isMatch mayBe unchanged positions numMatches res) := by
  induction positions generalizing numMatches res with
  | nil => exact start
  | cons i rest ih =>
    apply Satisfies.ite _ (ih numMatches start)
    apply Satisfies.ite same
    apply Satisfies.bind (equality i)
    intro equal keptEqual
    apply Satisfies.bind (closed.orExpr start keptEqual)
    intro disjunction kept
    exact ih (numMatches + 1) kept

variable (ih : EqKept tolerated operand varies result o fuel) (cl : ConstantExpr)
include ih

theorem create_constant (kept : operand e) (c : ConstantExpr) (sameWidth : e.width = c.width) :
    Satisfies tolerated result (EqExpr.create o fuel e (.constant c)) :=
  ih.create kept (closed.constant c) (.inl sameWidth)

theorem create_succ (left : operand l) (right : operand r) (comparable : Comparable tolerated l.width r.width) :
    Satisfies tolerated result (EqExpr.create o (fuel + 1) l r) := by
  apply cmpcreateT_satisfies comparable closed.bit
  · rintro cr rfl varying
    exact ih.partialR cr left (closed.compound varying) (comparable.imp_left Eq.symm)
  · rintro cl rfl varying
    exact ih.partialR cl right (closed.compound varying) comparable
  · intro compound varying
    apply closed.eqExprCreate left right (closed.compound varying)
    rintro c rfl
    cases compound

theorem partialR_difference {kind : BinaryKind} {value : ConstantExpr} {right : Expr}
    {w : Nat} {v : BitVec w} (kept : operand (.binary kind (.constant value) right))
    (sum : kind = .add ∨ kind = .sub) (same : w = value.width) :
    Satisfies tolerated result (eqExprCreatePartialR o fuel ⟨w, v⟩ right) := by
  subst same
  exact ih.partialR _ (closed.kid kept (.tail _ (.head _))) (closed.sum kept sum) (closed.typedBinary kept)

theorem partialR_succ (right : operand r) (varying : varies r) (comparable : Comparable tolerated cl.width r.width) :
    Satisfies tolerated result (eqExprCreatePartialR o (fuel + 1) cl r) := by
  have general (notTrue : ¬ cl.isTrue = true) :
      Satisfies tolerated result (Symbolic.eqExprCreate (.constant cl) r) :=
    closed.eqExprCreate (closed.constant cl) right varying fun c same => by
      obtain rfl := Expr.constant.inj same
      exact notTrue
  rw [eqExprCreatePartialR.eq_def]
  dsimp only
  by_cases boolean : cl.width = 1
  · rw [if_pos boolean]
    rw [boolean] at comparable
    split
    · exact closed.itself right varying comparable
    rename_i notTrue
    split
    · rename_i value right'
      split
      case isTrue isFalse =>
        simp only [ConstantExpr.isFalse, Bool.decide_and, Bool.and_eq_true, decide_eq_true_eq] at isFalse
        have typed := closed.typedCmp right
        rw [Expr.width, isFalse.1] at typed
        exact closed.itself (closed.kid right (.tail _ (.head _))) (closed.compared right) typed
      case isFalse => exact general notTrue
    · apply Satisfies.bind (closed.create_constant ih (closed.kid right (.head _)) _ rfl)
      intro notLeft keptLeft
      apply Satisfies.bind (closed.create_constant ih (closed.kid right (.tail _ (.head _))) _ rfl)
      intro notRight keptRight
      exact closed.andExpr keptLeft keptRight
    · exact general notTrue
  · rw [if_neg boolean]
    have notTrue : ¬ cl.isTrue = true := by simp [ConstantExpr.isTrue, boolean]
    split
    · exact .ite (closed.create_constant ih (closed.kid right (.head _)) _ rfl) (closed.bit 0)
    · exact .ite (closed.create_constant ih (closed.kid right (.head _)) _ rfl) (closed.bit 0)
    · exact require_satisfies (fun same => closed.partialR_difference ih right (.inl rfl) same) comparable.resolve_left
    · exact require_satisfies (fun same => closed.partialR_difference ih right (.inr rfl) rfl)
        fun different => comparable.resolve_left (Ne.symm different)
    · exact .ite (ih.constArray cl notTrue right varying) (general notTrue)
    · exact general notTrue

theorem constArray_succ (notTrue : ¬ cl.isTrue = true) {root : Array} {head : UpdateNode}
    {index : Expr} (kept : operand (.read root head index)) (varying : varies (.read root head index)) :
    Satisfies tolerated result (tryConstArrayOpt o (fuel + 1) cl root head index) := by
  have general := closed.eqExprCreate (closed.constant cl) kept varying fun c same => by
    obtain rfl := Expr.constant.inj same
    exact notTrue
  apply Satisfies.ite general
  apply closed.tryConstArrayOptLoop _ general _ _ (closed.bit 0)
  exact fun i => closed.create_constant ih (closed.kid kept (.head _)) _ rfl

omit ih in
theorem eqKept (o : Options) (fuel : Nat) : EqKept tolerated operand varies result o fuel := by
  induction fuel with
  | zero => constructor <;> intros <;> exact closed.outOfFuel
  | succ fuel ih =>
    exact ⟨closed.create_succ ih, fun cl => closed.partialR_succ ih cl, fun cl => closed.constArray_succ ih cl⟩

end EqClosed

end NeuroMerge.Symbolic
