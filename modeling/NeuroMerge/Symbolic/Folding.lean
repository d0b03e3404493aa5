import NeuroMerge.Symbolic.Reads

/-!
# Folding constants

The constructors fold constant operands. Only `NotOptimizedExpr` keeps a constant from
being folded, and negating an expression does not bring it in.
-/

namespace NeuroMerge.Symbolic

variable {o : Options} {fuel : Nat} {e : Expr} {kids : List Expr}

variable {create : Expr → Expr → Except Fault Expr}

section Constants

/-- Constant, whatever else may happen. -/
abbrev BuildsConstant (computation : Except Fault Expr) : Prop :=
  Satisfies (fun _ => True) (fun e => e.constant?.isSome = true) computation

theorem BuildsConstant.map (computation : Except Fault ConstantExpr) : BuildsConstant (Expr.constant <$> computation) := by
  cases computation with
  | error fault => trivial
  | ok c => rfl

theorem bcreateR_constant (kind : BinaryKind) {createPartial : Expr → ConstantExpr → Except Fault Expr}
    {createPartialR : ConstantExpr → Expr → Except Fault Expr} (cl cr : ConstantExpr) :
    BuildsConstant (bcreateR kind createPartial createPartialR create (.constant cl) (.constant cr)) :=
  require_satisfies (fun _ => BuildsConstant.map _) fun _ => trivial

theorem bcreate_constant (kind : BinaryKind) (cl cr : ConstantExpr) :
    BuildsConstant (bcreate kind create (.constant cl) (.constant cr)) :=
  require_satisfies (fun _ => BuildsConstant.map _) fun _ => trivial

theorem cmpcreate_constant (kind : CmpKind) (cl cr : ConstantExpr) :
    BuildsConstant (cmpcreate kind create (.constant cl) (.constant cr)) :=
  require_satisfies (fun _ => rfl) fun _ => trivial

theorem EqExpr.create_constant (cl cr : ConstantExpr) : BuildsConstant (EqExpr.create o fuel (.constant cl) (.constant cr)) := by
  cases fuel with
  | zero => trivial
  | succ fuel =>
    exact require_satisfies (fun _ => rfl) fun _ => trivial

theorem NeExpr.create_constant (cl cr : ConstantExpr) : BuildsConstant (NeExpr.create o fuel (.constant cl) (.constant cr)) := by
  apply Satisfies.bind (EqExpr.create_constant cl cr)
  intro equal isConstant
  obtain ⟨c, found⟩ := Option.isSome_iff_exists.mp isConstant
  rw [Expr.constant?_eq_some] at found
  subst found
  exact EqExpr.create_constant _ _

theorem ExtractExpr.create_constant (c : ConstantExpr) (off w : Nat) : BuildsConstant (ExtractExpr.create fuel (.constant c) off w) := by
  cases fuel with
  | zero => trivial
  | succ fuel =>
    apply require_satisfies (fun _ => ?_) fun _ => trivial
    split
    · rfl
    · rfl

theorem ConcatExpr.create_constant (cl cr : ConstantExpr) : BuildsConstant (ConcatExpr.create fuel (.constant cl) (.constant cr)) := by
  cases fuel with
  | zero => trivial
  | succ fuel => rfl

theorem ZExtExpr.create_constant (c : ConstantExpr) (w : Nat) : BuildsConstant (ZExtExpr.create fuel (.constant c) w) := by
  rw [ZExtExpr.create]
  split
  · rfl
  · split
    · exact ExtractExpr.create_constant c 0 w
    · rfl

theorem SExtExpr.create_constant (c : ConstantExpr) (w : Nat) : BuildsConstant (SExtExpr.create fuel (.constant c) w) := by
  rw [SExtExpr.create]
  split
  · rfl
  · split
    · exact ExtractExpr.create_constant c 0 w
    · rfl

theorem SelectExpr.create_constant (c t f : ConstantExpr) :
    BuildsConstant (SelectExpr.create o fuel (.constant c) (.constant t) (.constant f)) := by
  apply require_satisfies (fun _ => ?_) fun _ => trivial
  apply require_satisfies (fun _ => ?_) fun _ => trivial
  dsimp only [Expr.constant?]
  split
  · rfl
  · rfl

theorem BinaryKind.create_constant (kind : BinaryKind) (cl cr : ConstantExpr) :
    BuildsConstant (kind.create o fuel (.constant cl) (.constant cr)) := by
  cases kind with
  | add =>
    cases fuel with
    | zero => trivial
    | succ fuel =>
      rw [BinaryKind.create, AddExpr.create]
      exact bcreateR_constant _ cl cr
  | sub =>
    cases fuel with
    | zero => trivial
    | succ fuel =>
      rw [BinaryKind.create, SubExpr.create]
      exact bcreateR_constant _ cl cr
  | mul =>
    rw [BinaryKind.create, MulExpr.create]
    exact bcreateR_constant _ cl cr
  | and =>
    rw [BinaryKind.create, AndExpr.create]
    exact bcreateR_constant _ cl cr
  | or =>
    rw [BinaryKind.create, OrExpr.create]
    exact bcreateR_constant _ cl cr
  | xor =>
    rw [BinaryKind.create, XorExpr.create]
    exact bcreateR_constant _ cl cr
  | udiv =>
    rw [BinaryKind.create, UDivExpr.create]
    exact bcreate_constant _ cl cr
  | sdiv =>
    rw [BinaryKind.create, SDivExpr.create]
    exact bcreate_constant _ cl cr
  | urem =>
    rw [BinaryKind.create, URemExpr.create]
    exact bcreate_constant _ cl cr
  | srem =>
    rw [BinaryKind.create, SRemExpr.create]
    exact bcreate_constant _ cl cr
  | shl =>
    rw [BinaryKind.create, ShlExpr.create]
    exact bcreate_constant _ cl cr
  | lshr =>
    rw [BinaryKind.create, LShrExpr.create]
    exact bcreate_constant _ cl cr
  | ashr =>
    rw [BinaryKind.create, AShrExpr.create]
    exact bcreate_constant _ cl cr

section

variable (cl cr : ConstantExpr)
include cl cr

theorem UltExpr.create_constant : BuildsConstant (UltExpr.create o fuel (.constant cl) (.constant cr)) := by
  exact cmpcreate_constant _ cl cr

theorem UleExpr.create_constant : BuildsConstant (UleExpr.create o fuel (.constant cl) (.constant cr)) := by
  exact cmpcreate_constant _ cl cr

theorem SltExpr.create_constant : BuildsConstant (SltExpr.create o fuel (.constant cl) (.constant cr)) := by
  exact cmpcreate_constant _ cl cr

theorem SleExpr.create_constant : BuildsConstant (SleExpr.create o fuel (.constant cl) (.constant cr)) := by
  exact cmpcreate_constant _ cl cr

end

theorem CmpKind.create_constant (kind : CmpKind) (cl cr : ConstantExpr) :
    BuildsConstant (kind.create o fuel (.constant cl) (.constant cr)) := by
  cases kind with
  | eq => exact EqExpr.create_constant cl cr
  | ne => exact NeExpr.create_constant cl cr
  | ult => exact UltExpr.create_constant cl cr
  | ule => exact UleExpr.create_constant cl cr
  | ugt =>
    rw [CmpKind.create, UgtExpr.create]
    exact UltExpr.create_constant cr cl
  | uge =>
    rw [CmpKind.create, UgeExpr.create]
    exact UleExpr.create_constant cr cl
  | slt => exact SltExpr.create_constant cl cr
  | sle => exact SleExpr.create_constant cl cr
  | sgt =>
    rw [CmpKind.create, SgtExpr.create]
    exact SltExpr.create_constant cr cl
  | sge =>
    rw [CmpKind.create, SgeExpr.create]
    exact SleExpr.create_constant cr cl

theorem Expr.rebuild_constant (notRead : ∀ root head index, e ≠ .read root head index)
    (constants : ∀ kid ∈ kids, kid.constant?.isSome = true) :
    Satisfies (fun _ => True)
      (fun e' => e'.constant?.isSome = true ∨
        ∃ src c, e = .notOptimized src ∧ e' = .notOptimized (.constant c)) (e.rebuild o fuel kids) := by
  have isConstant {kid : Expr} (member : kid ∈ kids) : ∃ c, kid = .constant c := by
    obtain ⟨c, found⟩ := Option.isSome_iff_exists.mp (constants kid member)
    exact ⟨c, Expr.constant?_eq_some.mp found⟩
  have folded {computation : Except Fault Expr} (builds : BuildsConstant computation) :
      Satisfies (fun _ => True) (fun e' => e'.constant?.isSome = true ∨
          ∃ src c, e = .notOptimized src ∧ e' = .notOptimized (.constant c)) computation :=
    builds.mono fun _ => .inl
  rw [Expr.rebuild.eq_def]
  split
  · rename_i src kid
    obtain ⟨c, rfl⟩ := isConstant (.head _)
    exact .inr ⟨src, c, rfl, rfl⟩
  · exact absurd rfl (notRead _ _ _)
  · obtain ⟨c, rfl⟩ := isConstant (.head _)
    obtain ⟨t, rfl⟩ := isConstant (.tail _ (.head _))
    obtain ⟨f, rfl⟩ := isConstant (.tail _ (.tail _ (.head _)))
    exact folded (SelectExpr.create_constant c t f)
  · obtain ⟨cl, rfl⟩ := isConstant (.head _)
    obtain ⟨cr, rfl⟩ := isConstant (.tail _ (.head _))
    exact folded (ConcatExpr.create_constant cl cr)
  · obtain ⟨c, rfl⟩ := isConstant (.head _)
    exact folded (ExtractExpr.create_constant c _ _)
  · obtain ⟨c, rfl⟩ := isConstant (.head _)
    exact .inl rfl
  · obtain ⟨c, rfl⟩ := isConstant (.head _)
    exact folded (ZExtExpr.create_constant c _)
  · obtain ⟨c, rfl⟩ := isConstant (.head _)
    exact folded (SExtExpr.create_constant c _)
  · rename_i kind _ _ _ _
    obtain ⟨cl, rfl⟩ := isConstant (.head _)
    obtain ⟨cr, rfl⟩ := isConstant (.tail _ (.head _))
    exact folded (kind.create_constant cl cr)
  · rename_i kind _ _ _ _
    obtain ⟨cl, rfl⟩ := isConstant (.head _)
    obtain ⟨cr, rfl⟩ := isConstant (.tail _ (.head _))
    exact folded (kind.create_constant cl cr)
  · trivial

end Constants

mutual

def Expr.plain : Expr → Bool
  | .constant _ => true
  | .notOptimized src => src.constant?.isNone && src.plain
  | .read _ head index => index.plain && head.plain
  | .select cond trueExpr falseExpr => cond.plain && (trueExpr.plain && falseExpr.plain)
  | .concat left right => left.plain && right.plain
  | .extract expr _ _ => expr.plain
  | .not expr => expr.plain
  | .zext src _ => src.plain
  | .sext src _ => src.plain
  | .binary _ left right => left.plain && right.plain
  | .cmp _ left right => left.plain && right.plain

def UpdateNode.plain : UpdateNode → Bool
  | .null => true
  | .node position value next => position.plain && (value.plain && next.plain)

end

theorem Expr.plain_of_mem_kids (isPlain : e.plain = true) : ∀ kid ∈ e.kids, kid.plain = true := by
  cases e <;> simp_all [Expr.kids, Expr.plain]

theorem UpdateNode.plain_of_mem_kids : ∀ {head : UpdateNode}, head.plain = true →
    ∀ kid ∈ head.kids, kid.plain = true
  | .null, _, _, member => nomatch member
  | .node _ _ _, isPlain, kid, member => by
    simp only [UpdateNode.plain, Bool.and_eq_true] at isPlain
    obtain ⟨position, value, next⟩ := isPlain
    obtain _ | ⟨_, _ | ⟨_, later⟩⟩ := member
    · exact position
    · exact value
    · exact UpdateNode.plain_of_mem_kids next kid later

section Plain

/-- The computation builds an expression in which no constant is so marked. -/
abbrev BuildsPlain (computation : Except Fault Expr) : Prop :=
  Satisfies (fun _ => True) (fun e => e.plain = true) computation

theorem eqClosed_plain : EqClosed (fun _ => True) (·.plain = true) (fun _ => True) (·.plain = true) where
  outOfFuel := trivial
  constant _ := rfl
  kid isPlain := Expr.plain_of_mem_kids isPlain _
  typedBinary _ := .inr trivial
  typedCmp _ := .inr trivial
  compound _ := trivial
  sum _ _ := trivial
  compared _ := trivial
  itself isPlain _ _ := isPlain
  equality left right _ _ := by rw [Expr.plain, left, right, Bool.and_self]
  bit _ := rfl
  folded _ _ := rfl
  typed _ _ := .inr trivial
  join _ left right _ := by rw [Expr.plain, left, right, Bool.and_self]

theorem createIsZero_plain (isPlain : e.plain = true) : BuildsPlain (createIsZero o fuel e) :=
  (eqClosed_plain.eqKept o fuel).create isPlain rfl (.inr trivial)

end Plain

end NeuroMerge.Symbolic
