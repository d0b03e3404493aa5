import NeuroMerge.Symbolic.Create
import NeuroMerge.Foundations.Outcome

/-!
# What expressions denote

Introduction and inversion of `Denotes` for every kind of expression.
-/

namespace NeuroMerge.Symbolic

variable {guards : Guards} {ρ : Assignment} {w n : Nat}

variable {e : Expr}

theorem Expr.WellFormed.denotes (wellFormed : e.WellFormed guards) : Denotes guards ρ e (e.eval ρ e.width) :=
  ⟨wellFormed, rfl, rfl⟩

variable {v' b : BitVec w} {a : BitVec n} {left right : Expr} {width : Nat}

namespace Denotes

theorem unique {v : BitVec w} (left : Denotes guards ρ e v) (right : Denotes guards ρ e v') : v = v' :=
  left.value.symm.trans right.value

theorem of_eq {v : BitVec w} (denotes : Denotes guards ρ e v) (same : v = v') : Denotes guards ρ e v' :=
  same ▸ denotes

theorem constant (c : ConstantExpr) : Denotes guards ρ (.constant c) c.value := by
  refine ⟨by simp, rfl, ?_⟩
  simp

theorem alloc (value : Nat) : Denotes guards ρ (.constant (.alloc value w)) (BitVec.ofNat w value) :=
  constant (.alloc value w)

theorem of_constant {c : ConstantExpr} {v : BitVec w} (denotes : Denotes guards ρ (.constant c) v) : c = ⟨w, v⟩ := by
  obtain ⟨width, value⟩ := c
  have sameWidth : width = w := denotes.width
  subst sameWidth
  simpa using denotes.value

theorem notOptimized_iff {src : Expr} {v : BitVec w} : Denotes guards ρ (.notOptimized src) v ↔ Denotes guards ρ src v := by
  constructor
  · intro denotes
    exact ⟨by simpa using denotes.wellFormed, denotes.width, by simpa using denotes.value⟩
  · intro denotes
    exact ⟨by simpa using denotes.wellFormed, denotes.width, by simpa using denotes.value⟩

theorem select {cond trueExpr falseExpr : Expr} {c : BitVec 1} {a : BitVec w}
    (condition : Denotes guards ρ cond c) (whenTrue : Denotes guards ρ trueExpr a) (whenFalse : Denotes guards ρ falseExpr b) :
    Denotes guards ρ (.select cond trueExpr falseExpr) (if c = 1#1 then a else b) := by
  refine ⟨?_, whenTrue.width, ?_⟩
  · simp only [Expr.WellFormed]
    exact ⟨condition.wellFormed, whenTrue.wellFormed, whenFalse.wellFormed, condition.width, by rw [whenFalse.width, whenTrue.width]⟩
  · simp [condition.value, whenTrue.value, whenFalse.value]

theorem concat {m : Nat} {a : BitVec m} {b : BitVec n} (denotesLeft : Denotes guards ρ left a)
    (denotesRight : Denotes guards ρ right b) : Denotes guards ρ (.concat left right) (a ++ b) := by
  obtain ⟨leftWellFormed, rfl, rfl⟩ := denotesLeft
  obtain ⟨rightWellFormed, rfl, rfl⟩ := denotesRight
  exact ⟨by simp [leftWellFormed, rightWellFormed], rfl, by simp⟩

theorem of_concat {v : BitVec w} (denotes : Denotes guards ρ (.concat left right) v) :
    ∃ (m n : Nat) (a : BitVec m) (b : BitVec n), w = m + n ∧
      Denotes guards ρ left a ∧ Denotes guards ρ right b ∧ v = (a ++ b).setWidth w := by
  have wellFormed := denotes.wellFormed
  refine ⟨_, _, _, _, denotes.width.symm, wellFormed.1.denotes, wellFormed.2.denotes, ?_⟩
  simpa using denotes.value.symm

theorem extract {offset : Nat} (denotes : Denotes guards ρ e a) (positive : 0 < w) (within : offset + w ≤ n) :
    Denotes guards ρ (.extract e offset w) (a.extractLsb' offset w) := by
  obtain ⟨wellFormed, rfl, rfl⟩ := denotes
  exact ⟨by simp [wellFormed, positive, within], rfl, by simp⟩

theorem of_extract {v : BitVec w} {offset : Nat} (denotes : Denotes guards ρ (.extract e offset width) v) :
    ∃ (n : Nat) (a : BitVec n), width = w ∧ Denotes guards ρ e a ∧ 0 < w ∧ offset + w ≤ n ∧ v = a.extractLsb' offset w := by
  have sameWidth : width = w := denotes.width
  subst sameWidth
  have wellFormed := denotes.wellFormed
  refine ⟨_, _, rfl, wellFormed.1.denotes, wellFormed.2.1, wellFormed.2.2, ?_⟩
  simpa using denotes.value.symm

theorem not {a : BitVec w} (denotes : Denotes guards ρ e a) : Denotes guards ρ (.not e) (~~~ a) :=
  ⟨by simpa using denotes.wellFormed, denotes.width, by simp [denotes.value]⟩

theorem zext (denotes : Denotes guards ρ e a) (wider : n ≤ w) : Denotes guards ρ (.zext e w) (a.setWidth w) := by
  obtain ⟨wellFormed, rfl, rfl⟩ := denotes
  exact ⟨by simp [wellFormed, wider], rfl, by simp⟩

theorem of_zext {v : BitVec w} (denotes : Denotes guards ρ (.zext e width) v) :
    ∃ (n : Nat) (a : BitVec n), width = w ∧ Denotes guards ρ e a ∧ n ≤ w ∧ v = a.setWidth w := by
  have sameWidth : width = w := denotes.width
  subst sameWidth
  have wellFormed := denotes.wellFormed
  exact ⟨_, _, rfl, wellFormed.1.denotes, wellFormed.2, by simpa using denotes.value.symm⟩

theorem sext (denotes : Denotes guards ρ e a) (wider : n ≤ w) : Denotes guards ρ (.sext e w) (a.signExtend w) := by
  obtain ⟨wellFormed, rfl, rfl⟩ := denotes
  exact ⟨by simp [wellFormed, wider], rfl, by simp⟩

theorem of_sext {v : BitVec w} (denotes : Denotes guards ρ (.sext e width) v) :
    ∃ (n : Nat) (a : BitVec n), width = w ∧ Denotes guards ρ e a ∧ n ≤ w ∧ v = a.signExtend w := by
  have sameWidth : width = w := denotes.width
  subst sameWidth
  have wellFormed := denotes.wellFormed
  exact ⟨_, _, rfl, wellFormed.1.denotes, wellFormed.2, by simpa using denotes.value.symm⟩

theorem binary (kind : BinaryKind) {a : BitVec w} (denotesLeft : Denotes guards ρ left a)
    (denotesRight : Denotes guards ρ right b) (division : kind.isDivision → w ≠ 1 ∧ guards.divisible right) :
    Denotes guards ρ (.binary kind left right) (kind.apply a b) := by
  refine ⟨?_, denotesLeft.width, ?_⟩
  · simp only [Expr.WellFormed]
    exact ⟨denotesLeft.wellFormed, denotesRight.wellFormed, by rw [denotesRight.width, denotesLeft.width], by rwa [denotesLeft.width]⟩
  · simp [denotesLeft.value, denotesRight.value]

theorem of_binary {kind : BinaryKind} {v : BitVec w} (denotes : Denotes guards ρ (.binary kind left right) v) :
    ∃ a b : BitVec w, Denotes guards ρ left a ∧ Denotes guards ρ right b ∧
      (kind.isDivision → w ≠ 1 ∧ guards.divisible right) ∧ v = kind.apply a b := by
  obtain ⟨wellFormed, width, value⟩ := denotes
  subst width
  obtain ⟨leftWellFormed, rightWellFormed, sameWidth, division⟩ := wellFormed
  refine ⟨_, _, leftWellFormed.denotes, ⟨rightWellFormed, sameWidth, rfl⟩, division, ?_⟩
  simpa using value.symm

theorem cmp (kind : CmpKind) {b : BitVec n} (denotesLeft : Denotes guards ρ left a) (denotesRight : Denotes guards ρ right b) :
    Denotes guards ρ (.cmp kind left right) (BitVec.ofBool (kind.apply a b)) := by
  obtain ⟨leftWellFormed, rfl, rfl⟩ := denotesLeft
  obtain ⟨rightWellFormed, sameWidth, rfl⟩ := denotesRight
  exact ⟨by simp [leftWellFormed, rightWellFormed, sameWidth], rfl, by simp⟩

theorem of_cmp {kind : CmpKind} {v : BitVec 1} (denotes : Denotes guards ρ (.cmp kind left right) v) :
    ∃ (n : Nat) (a b : BitVec n), Denotes guards ρ left a ∧ Denotes guards ρ right b ∧ v = BitVec.ofBool (kind.apply a b) := by
  obtain ⟨wellFormed, width, value⟩ := denotes
  obtain ⟨leftWellFormed, rightWellFormed, sameWidth⟩ := wellFormed
  refine ⟨_, _, _, leftWellFormed.denotes, ⟨rightWellFormed, sameWidth, rfl⟩, ?_⟩
  simpa using value.symm

theorem read {root : Array} {head : UpdateNode} {index : Expr} {i : BitVec root.domain}
    (updates : head.WellFormed guards root) (denotes : Denotes guards ρ index i)
    (narrow : root.domain ≤ 64) (within : root.isConstantArray → guards.readable root index) :
    Denotes guards ρ (.read root head index) (head.eval ρ root i) := by
  refine ⟨?_, rfl, ?_⟩
  · simp only [Expr.WellFormed]
    exact ⟨updates, denotes.wellFormed, denotes.width, narrow, within⟩
  · simp [denotes.value]

end Denotes

structure Guards.Stricter (guards weaker : Guards) : Prop where
  readable : ∀ {root : Array} {index : Expr}, guards.readable root index →
    weaker.readable root index
  divisible : ∀ {e : Expr}, guards.divisible e → weaker.divisible e

mutual

theorem Expr.WellFormed.mono {guards weaker : Guards} (stricter : guards.Stricter weaker) :
    ∀ {e : Expr}, e.WellFormed guards → e.WellFormed weaker
  | .constant _, _ => trivial
  | .notOptimized src, wellFormed => .mono stricter (e := src) wellFormed
  | .read _ _ _, ⟨updates, index, width, narrow, within⟩ =>
    ⟨UpdateNode.WellFormed.mono stricter updates, .mono stricter index, width,
      narrow, fun isConstant => stricter.readable (within isConstant)⟩
  | .select _ _ _, ⟨cond, whenTrue, whenFalse, widths⟩ =>
    ⟨.mono stricter cond, .mono stricter whenTrue, .mono stricter whenFalse, widths⟩
  | .concat _ _, ⟨left, right⟩ =>
    ⟨.mono stricter left, .mono stricter right⟩
  | .extract _ _ _, ⟨expr, within⟩ => ⟨.mono stricter expr, within⟩
  | .not expr, wellFormed => .mono stricter (e := expr) wellFormed
  | .zext _ _, ⟨src, wider⟩ => ⟨.mono stricter src, wider⟩
  | .sext _ _, ⟨src, wider⟩ => ⟨.mono stricter src, wider⟩
  | .binary _ _ _, ⟨left, right, width, division⟩ =>
    ⟨.mono stricter left, .mono stricter right, width, fun isDivision => (division isDivision).imp_right stricter.divisible⟩
  | .cmp _ _ _, ⟨left, right, width⟩ =>
    ⟨.mono stricter left, .mono stricter right, width⟩

theorem UpdateNode.WellFormed.mono {guards weaker : Guards} (stricter : guards.Stricter weaker) {root : Array} :
    ∀ {head : UpdateNode}, head.WellFormed guards root → head.WellFormed weaker root
  | .null, _ => trivial
  | .node _ _ _, ⟨position, positionWidth, value, valueWidth, next⟩ =>
    ⟨.mono stricter position, positionWidth, .mono stricter value, valueWidth, UpdateNode.WellFormed.mono stricter next⟩

end

def Guards.Nonzero (guards : Guards) (ρ : Assignment) : Prop :=
  ∀ e, guards.divisible e → e.eval ρ e.width ≠ 0#e.width

/-- The faults that well-formed operands can still lead to. -/
def Excused (guards : Guards) (ρ : Assignment) (fault : Fault) : Prop :=
  fault = .outOfFuel ∨ fault = .divisionByZero ∧ ¬ guards.Nonzero ρ

@[simp] theorem excused_outOfFuel : Excused guards ρ .outOfFuel := .inl rfl

theorem Excused.divisionByZero (denotes : Denotes guards ρ e b) (divisible : guards.divisible e)
    (zero : b = 0#w) : Excused guards ρ .divisionByZero := by
  refine .inr ⟨rfl, fun nonzero => nonzero e divisible ?_⟩
  obtain ⟨-, rfl, value⟩ := denotes
  rw [value, zero]

theorem require_satisfies {α : Type} {tolerated : Fault → Prop} {post : α → Prop}
    {condition : Prop} [Decidable condition] {failed : Assertion} {next : Except Fault α}
    (holds : condition → Satisfies tolerated post next) (fails : ¬ condition → tolerated (.assertion failed)) :
    Satisfies tolerated post (require condition failed >>= fun _ => next) := by
  by_cases decided : condition
  · simpa [require, decided] using holds decided
  · rw [require, if_neg decided]
    exact fails decided

/-- The computation builds an expression that denotes `v`; no assertion in it
fails. -/
def Builds (guards : Guards) (ρ : Assignment) {w : Nat} (v : BitVec w)
    (computation : Except Fault Expr) : Prop :=
  Satisfies (Excused guards ρ) (fun e => Denotes guards ρ e v) computation

namespace Builds

variable {v : BitVec w}

theorem pure (denotes : Denotes guards ρ e v) : Builds guards ρ v (Pure.pure e) :=
  denotes

theorem bind {u : BitVec n} {first : Except Fault Expr} {next : Expr → Except Fault Expr} (before : Builds guards ρ u first)
    (after : ∀ e, Denotes guards ρ e u → Builds guards ρ v (next e)) : Builds guards ρ v (first >>= next) :=
  Satisfies.bind before after

theorem require {condition : Prop} [Decidable condition] {failed : Assertion}
    {next : Except Fault Expr} (holds : condition) (after : Builds guards ρ v next) :
    Builds guards ρ v (Symbolic.require condition failed >>= fun _ => next) :=
  require_satisfies (fun _ => after) fun fails => absurd holds fails

theorem of_eq {computation : Except Fault Expr} (builds : Builds guards ρ v computation)
    (same : v = v') : Builds guards ρ v' computation :=
  same ▸ builds

theorem cast {computation : Except Fault Expr} (builds : Builds guards ρ v computation)
    (same : w = n) : Builds guards ρ (v.cast same) computation := by
  subst same
  exact builds

theorem outOfFuel : Builds guards ρ v (throw .outOfFuel) := excused_outOfFuel

end Builds

end NeuroMerge.Symbolic
