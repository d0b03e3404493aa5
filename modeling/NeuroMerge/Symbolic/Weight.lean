import NeuroMerge.Symbolic.EqualityClosure

/-!
# What the constructors keep

A measure that no constructor increases: the expression that `create` returns
is at most as heavy as the node it stands for. Replacing an operand by a lighter
one therefore makes the rebuilt expression lighter, however it is rewritten.
The nodes that are built have their constants on the left; and only a division
divides.
-/

namespace NeuroMerge.Symbolic

open BinaryKind

/-- A disjunction pays for being negated, a boolean shift for its conjunction. -/
def BinaryKind.weight : BinaryKind → Nat
  | .or | .shl | .lshr => 3
  | .add | .sub | .mul | .udiv | .sdiv | .urem | .srem | .and | .xor | .ashr => 1

def CmpKind.weight : CmpKind → Nat
  | .eq => 1
  | .ne | .ult | .ule | .ugt | .uge | .slt | .sle | .sgt | .sge => 5

mutual

/-- The factor of a read pays for the disjunction of up to a hundred equalities
that `TryConstArrayOpt` makes of it. -/
def Expr.weight : Expr → Nat
  | .constant _ => 1
  | .notOptimized src => src.weight + 1
  | .read _ head index => head.weight + 1000 * index.weight
  | .select cond trueExpr falseExpr => cond.weight + trueExpr.weight + falseExpr.weight + 5
  | .concat left right => left.weight + right.weight + 1
  | .extract expr _ _ => 2 * expr.weight
  | .not expr => expr.weight + 1
  | .zext src _ => 2 * src.weight
  | .sext src _ => 2 * src.weight
  | .binary kind left right => left.weight + right.weight + kind.weight
  | .cmp kind left right => left.weight + right.weight + kind.weight

def UpdateNode.weight : UpdateNode → Nat
  | .null => 0
  | .node position value next => position.weight + value.weight + next.weight

end

attribute [simp] Expr.weight UpdateNode.weight

theorem Expr.weight_pos (e : Expr) : 0 < e.weight := by
  cases e with
  | read root head index =>
    have positive := Expr.weight_pos index
    simp only [Expr.weight]
    omega
  | extract expr offset width =>
    have positive := Expr.weight_pos expr
    simp only [Expr.weight]
    omega
  | zext src width =>
    have positive := Expr.weight_pos src
    simp only [Expr.weight]
    omega
  | sext src width =>
    have positive := Expr.weight_pos src
    simp only [Expr.weight]
    omega
  | binary kind left right =>
    have positive := Expr.weight_pos left
    simp only [Expr.weight]
    omega
  | cmp kind left right =>
    have positive := Expr.weight_pos left
    simp only [Expr.weight]
    omega
  | _ => simp

/-- The kinds for which a constant on the right is moved or folded. -/
def BinaryKind.movesConstant : BinaryKind → Bool
  | .add | .sub | .mul | .and | .or | .xor => true
  | .udiv | .sdiv | .urem | .srem | .shl | .lshr | .ashr => false

/-- A node as `Expr.h` wants it: a constant operand of a commutative operator is on the left, a
constant is not subtracted, `Ne`, `Ugt`, `Uge`, `Sgt` and `Sge` are not used, booleans are not
compared except for equality, and that not with the constant true. -/
def Expr.Normal : Expr → Prop
  | .binary kind _ right => kind.movesConstant → right.constant? = none
  | .cmp .eq left right => right.constant? = none ∧ ∀ c, left = .constant c → ¬ c.isTrue = true
  | .cmp .ult left _ | .cmp .ule left _ | .cmp .slt left _ | .cmp .sle left _ => left.width ≠ 1
  | .cmp _ _ _ => False
  | _ => True

/-- If the nodes of the operands are `canonical`, those of `e` are normal. -/
def Expr.Kept (canonical : Prop) (e : Expr) : Prop := canonical → e.All Expr.Normal

def Expr.Bit (canonical : Prop) (e : Expr) : Prop :=
  canonical → ∀ c, e = .constant c → c.width = 1

/-- Division by zero is tolerated if it `divides`. -/
abbrev Tolerates (divides : Prop) (fault : Fault) : Prop := fault = .divisionByZero → divides

abbrev Made (divides canonical : Prop) (bound : Nat) (computation : Except Fault Expr) : Prop :=
  Satisfies (Tolerates divides) (fun e => e.Kept canonical ∧ e.weight ≤ bound) computation

def Light (bound : Nat) (computation : Except Fault Expr) : Prop :=
  Satisfies (fun _ => True) (fun e => e.weight ≤ bound) computation

variable {o : Options} {fuel bound larger : Nat} {l r e : Expr} {divides canonical : Prop}

namespace Light

theorem pure (light : e.weight ≤ bound) : Light bound (Pure.pure e) := light

theorem mono {computation : Except Fault Expr} (light : Light bound computation) (fits : bound ≤ larger) : Light larger computation :=
  Satisfies.mono light fun _ within => Nat.le_trans within fits

theorem bind {first : Except Fault Expr} {next : Expr → Except Fault Expr} (before : Light larger first)
    (after : ∀ e, e.weight ≤ larger → Light bound (next e)) : Light bound (first >>= next) :=
  Satisfies.bind before after

theorem require {condition : Prop} [Decidable condition] {failed : Assertion}
    {next : Except Fault Expr} (after : Light bound next) : Light bound (Symbolic.require condition failed >>= fun _ => next) :=
  require_satisfies (fun _ => after) fun _ => trivial

end Light

section Bitwise

theorem Light.and (l r : Expr) : Light (l.weight + r.weight + 1) (AndExpr.create l r) := by
  refine AndExpr.create_satisfies (.inr trivial) (by omega) (by omega) (fun _ _ _ => by simp) (fun _ _ => Nat.le_refl _) fun _ _ => ?_
  simp only [Expr.weight, weight]
  omega

theorem Light.or (l r : Expr) : Light (l.weight + r.weight + 3) (OrExpr.create l r) := by
  refine OrExpr.create_satisfies (.inr trivial) (by omega) (by omega) (fun _ _ _ => by simp) (fun _ _ => Nat.le_refl _) fun _ _ => ?_
  simp only [Expr.weight, weight]
  omega

end Bitwise

section Equality

theorem eqExprCreate_light (l r : Expr) : Light (l.weight + r.weight + 1) (eqExprCreate l r) := by
  rw [eqExprCreate]
  split
  · exact Light.pure (by simp)
  · exact Light.pure (by simp [CmpKind.weight])

theorem tryConstArrayOptLoop_light {isMatch : Nat → Bool} {mayBe : Nat → Except Fault Expr}
    {unchanged : Except Fault Expr} {each : Nat} (equality : ∀ i, Light each (mayBe i))
    (same : Light bound unchanged) (positions : List Nat) :
    ∀ {numMatches : Nat} {res : Expr}, numMatches ≤ 100 →
      res.weight + (100 - numMatches) * (each + 3) ≤ bound →
      Light bound (tryConstArrayOptLoop isMatch mayBe unchanged positions numMatches res) := by
  induction positions with
  | nil =>
    intro numMatches res few fits
    exact Light.pure (Nat.le_of_add_right_le fits)
  | cons i rest ih =>
    intro numMatches res few fits
    rw [tryConstArrayOptLoop]
    split
    · split
      · exact same
      · rename_i limit
        apply Light.bind (equality i)
        intro equal lightEqual
        apply Light.bind (Light.or res equal)
        intro disjunction lightDisjunction
        apply ih (by omega)
        have split : (100 - numMatches) * (each + 3) = (100 - (numMatches + 1)) * (each + 3) + (each + 3) := by
          rw [← Nat.succ_mul]
          congr 1
          omega
        omega
    · exact ih few fits

/-- What the equality constructor and the helpers it is mutually recursive with
weigh at some fuel. -/
structure EqLight (o : Options) (fuel : Nat) : Prop where
  create : ∀ l r, Light (l.weight + r.weight + 1) (EqExpr.create o fuel l r)
  partialR : ∀ cl r, Light (r.weight + 2) (eqExprCreatePartialR o fuel cl r)
  constArray : ∀ cl root head index,
    Light (head.weight + 1000 * index.weight + 2) (tryConstArrayOpt o fuel cl root head index)

namespace EqLight

theorem partialR_succ (ih : EqLight o fuel) (cl : ConstantExpr) (r : Expr) :
    Light (r.weight + 2) (eqExprCreatePartialR o (fuel + 1) cl r) := by
  have general := (eqExprCreate_light (.constant cl) r).mono (show _ ≤ r.weight + 2 by simp; omega)
  rw [eqExprCreatePartialR.eq_def]
  dsimp only
  split
  · split
    · exact Light.pure (by omega)
    split
    · split
      · exact Light.pure (by simp; omega)
      · exact general
    · rename_i left right
      apply Light.bind (ih.create left _)
      intro notLeft lightLeft
      apply Light.bind (ih.create right _)
      intro notRight lightRight
      apply (Light.and notLeft notRight).mono
      simp only [Expr.weight] at lightLeft lightRight
      simp [weight]
      omega
    · exact general
  · split
    · rename_i src width
      split
      · exact (ih.create src _).mono (by simp; omega)
      · exact Light.pure (by simp)
    · rename_i src width
      split
      · exact (ih.create src _).mono (by simp; omega)
      · exact Light.pure (by simp)
    · rename_i value right
      apply Light.require
      apply Satisfies.bind .self
      intro difference _
      exact (ih.partialR difference right).mono (by simp; omega)
    · rename_i value right
      apply Light.require
      apply Satisfies.bind .self
      intro difference _
      exact (ih.partialR difference right).mono (by simp; omega)
    · rename_i root head index
      split
      · exact ih.constArray cl root head index
      · exact general
    · exact general

theorem of_fuel (fuel : Nat) : EqLight o fuel := by
  induction fuel with
  | zero => exact ⟨fun _ _ => trivial, fun _ _ => trivial, fun _ _ _ _ => trivial⟩
  | succ fuel ih =>
    constructor
    · intro l r
      apply cmpcreateT_satisfies (.inr trivial) fun _ => by simp
      · rintro cr rfl -
        exact ih.partialR cr l
      · rintro cl rfl -
        exact (ih.partialR cl r).mono (by simp only [Expr.weight]; omega)
      · exact fun _ _ => eqExprCreate_light l r
    · exact ih.partialR_succ
    · intro cl root head index
      have general := (eqExprCreate_light (.constant cl) (.read root head index)).mono
        (show _ ≤ head.weight + 1000 * index.weight + 2 by simp; omega)
      rw [tryConstArrayOpt]
      split
      · exact general
      · have equality : ∀ i, Light (index.weight + 2) (EqExpr.create o fuel index (.constant (.alloc i index.width))) :=
          fun i => ih.create index _
        apply tryConstArrayOptLoop_light equality general _ (Nat.zero_le _)
        have positive := index.weight_pos
        simp only [Expr.weight]
        omega

end EqLight

theorem Expr.All.of_mem_kids {p : Expr → Prop} {kid : Expr} (all : e.All p) (member : kid ∈ e.kids) : kid.All p := by
  cases e with
  | constant _ => cases member
  | notOptimized _ | extract _ _ _ | not _ | zext _ _ | sext _ _ =>
    obtain rfl := List.mem_singleton.mp member
    exact all.2
  | read _ _ _ =>
    obtain rfl := List.mem_singleton.mp member
    exact all.2.2
  | concat _ _ | binary _ _ _ | cmp _ _ _ =>
    rcases List.mem_pair.mp member with rfl | rfl
    · exact all.2.1
    · exact all.2.2
  | select _ _ _ =>
    simp only [Expr.kids, List.mem_cons, List.not_mem_nil, or_false] at member
    rcases member with rfl | rfl | rfl
    · exact all.2.1
    · exact all.2.2.1
    · exact all.2.2.2

theorem absorbed_of_bit {c : ConstantExpr} (boolean : c.width = 1) : (Expr.constant c).Absorbed := by
  obtain ⟨w, value⟩ := c
  obtain rfl : w = 1 := boolean
  refine ⟨_, rfl, ?_⟩
  revert value
  decide

theorem Expr.Bit.varies (bit : e.Bit canonical) (isCanonical : canonical) (apart : ¬ e.Absorbed) : e.constant? = none := by
  cases isConstant : e.constant? with
  | none => rfl
  | some c =>
    obtain rfl := Expr.constant?_eq_some.mp isConstant
    exact absurd (absorbed_of_bit (bit isCanonical c rfl)) apart

theorem eqClosed_normal : EqClosed (Tolerates divides) (Expr.Kept canonical)
    (fun e => canonical → e.constant? = none) (fun e => e.Kept canonical ∧ e.Bit canonical) where
  outOfFuel := nofun
  constant _ _ := trivial
  kid kept member isCanonical := (kept isCanonical).of_mem_kids member
  typedBinary _ := .inr nofun
  typedCmp _ := .inr nofun
  compound varies _ := varies
  sum kept kind isCanonical := (kept isCanonical).1 (by rcases kind with rfl | rfl <;> rfl)
  compared kept isCanonical := (kept isCanonical).1.1
  itself kept varies _ := ⟨kept, fun isCanonical c same => by
    have constant := varies isCanonical
    rw [same] at constant
    cases constant⟩
  equality left right varies notTrue := ⟨fun isCanonical => ⟨⟨varies isCanonical, notTrue⟩, left isCanonical, right isCanonical⟩, nofun⟩
  bit _ := ⟨fun _ => trivial, by rintro _ _ ⟨⟩; rfl⟩
  folded {c} _ kept := ⟨fun _ => trivial, by rintro isCanonical _ ⟨⟩; exact kept.2 isCanonical c rfl⟩
  typed _ _ := .inr nofun
  join _ left right apart := ⟨fun isCanonical => ⟨fun _ => right.2.varies isCanonical apart,
    left.1 isCanonical, right.1 isCanonical⟩, nofun⟩

/-- The operands of a conjunction or a disjunction: a constant beside an expression that is none
is all ones or zero. -/
def Joins (l r : Expr) : Prop :=
  (l.constant? = none → ¬ r.Absorbed → r.constant? = none) ∧
    (r.constant? = none → ¬ l.Absorbed → l.constant? = none)

theorem joins_of_bits (left : l.Bit canonical) (right : r.Bit canonical) (isCanonical : canonical) : Joins l r :=
  ⟨fun _ => right.varies isCanonical, fun _ => left.varies isCanonical⟩

end Equality

section Nodes

theorem Expr.Kept.constant {c : ConstantExpr} : (Expr.constant c).Kept canonical := fun _ => trivial

theorem Expr.Kept.binary {kind : BinaryKind} (left : l.Kept canonical) (right : r.Kept canonical)
    (varies : kind.movesConstant → r.constant? = none) : (Expr.binary kind l r).Kept canonical :=
  fun isCanonical => ⟨varies, left isCanonical, right isCanonical⟩

theorem Expr.Kept.right {kind : BinaryKind} (kept : (Expr.binary kind l r).Kept canonical) :
    r.Kept canonical := fun isCanonical => (kept isCanonical).2.2

theorem Made.mono {computation : Except Fault Expr} (made : Made divides canonical larger computation) (fits : larger ≤ bound) :
    Made divides canonical bound computation :=
  Satisfies.mono made fun _ both => ⟨both.1, Nat.le_trans both.2 fits⟩

theorem made_require {condition : Prop} [Decidable condition] {failed : Assertion}
    {next : Except Fault Expr} (holds : condition → Made divides canonical bound next) :
    Made divides canonical bound (require condition failed >>= fun _ => next) :=
  require_satisfies holds fun _ => by rintro ⟨⟩

theorem made_constant {c : ConstantExpr} : (Expr.constant c).Kept canonical ∧ (Expr.constant c).weight ≤ bound + 1 :=
  ⟨.constant, Nat.le_add_left 1 bound⟩

end Nodes

section Kept

variable (left : l.Kept canonical) (right : r.Kept canonical)
include left right

theorem AndExpr.create_made (joins : canonical → Joins l r) : Made divides canonical (l.weight + r.weight + 1) (AndExpr.create l r) :=
  (AndExpr.create_satisfies (.inr nofun) left right (fun _ _ _ => .constant)
    (fun compound apart isCanonical => ⟨fun _ => (joins isCanonical).1 compound apart, left isCanonical, right isCanonical⟩)
    fun compound apart isCanonical => ⟨fun _ => (joins isCanonical).2 compound apart,
      right isCanonical, left isCanonical⟩).and (Light.and l r)

theorem OrExpr.create_made (joins : canonical → Joins l r) : Made divides canonical (l.weight + r.weight + 3) (OrExpr.create l r) :=
  (OrExpr.create_satisfies (.inr nofun) left right (fun _ _ _ => .constant)
    (fun compound apart isCanonical => ⟨fun _ => (joins isCanonical).1 compound apart, left isCanonical, right isCanonical⟩)
    fun compound apart isCanonical => ⟨fun _ => (joins isCanonical).2 compound apart,
      right isCanonical, left isCanonical⟩).and (Light.or l r)

theorem EqExpr.create_bit : Satisfies (Tolerates divides)
    (fun e => (e.Kept canonical ∧ e.Bit canonical) ∧ e.weight ≤ l.weight + r.weight + 1) (EqExpr.create o fuel l r) :=
  ((eqClosed_normal.eqKept o fuel).create left right (.inr nofun)).and ((EqLight.of_fuel fuel).create l r)

theorem EqExpr.create_made : Made divides canonical (l.weight + r.weight + 1) (EqExpr.create o fuel l r) :=
  (EqExpr.create_bit left right).mono fun _ made => ⟨made.1.1, made.2⟩

end Kept

section Varying

variable (cl : ConstantExpr) (kept : r.Kept canonical) (varies : r.constant? = none)
include kept varies

theorem eqExprCreatePartialR_made : Made divides canonical (r.weight + 2) (eqExprCreatePartialR o fuel cl r) :=
  (((eqClosed_normal.eqKept o fuel).partialR cl kept (fun _ => varies) (.inr nofun)).and
    ((EqLight.of_fuel fuel).partialR cl r)).mono fun _ made => ⟨made.1.1, made.2⟩

theorem mulExprCreatePartialR_made : Made divides canonical (r.weight + 2) (mulExprCreatePartialR cl r) := by
  rw [mulExprCreatePartialR]
  split
  · rename_i boolean
    rw [andExprCreatePartialR, andExprCreatePartial]
    obtain ⟨_, ⟨⟩, absorbed⟩ := absorbed_of_bit boolean
    split
    · exact ⟨kept, by omega⟩
    · rw [if_pos (absorbed.resolve_left ‹_›)]
      exact made_constant
  split
  · exact ⟨kept, by omega⟩
  split
  · exact made_constant
  · exact ⟨.binary .constant kept fun _ => varies, by simp [weight]; omega⟩

theorem xorExprCreatePartialR_made : Made divides canonical (r.weight + 2) (xorExprCreatePartialR o fuel cl r) := by
  rw [xorExprCreatePartialR]
  split
  · exact ⟨kept, by omega⟩
  split
  · exact eqExprCreatePartialR_made _ kept varies
  · exact ⟨.binary .constant kept fun _ => varies, by simp [weight]; omega⟩

end Varying

section Operators

theorem bcreateR_made {kind : BinaryKind} (notDivision : kind.isDivision = false)
    {createPartial : Expr → ConstantExpr → Except Fault Expr} {createPartialR : ConstantExpr → Expr → Except Fault Expr}
    {create : Expr → Expr → Except Fault Expr}
    (whenPartial : ∀ cr, l.constant? = none →
      Made divides canonical (l.weight + 2) (createPartial l cr))
    (whenPartialR : ∀ cl, r.constant? = none →
      Made divides canonical (r.weight + 2) (createPartialR cl r))
    (otherwise : l.constant? = none → r.constant? = none →
      Made divides canonical (l.weight + r.weight + 1) (create l r)) :
    Made divides canonical (l.weight + r.weight + 1) (bcreateR kind createPartial createPartialR create l r) := by
  apply bcreateR_satisfies (.inr nofun) notDivision (fun _ _ _ => made_constant)
  · rintro cr rfl varies
    exact whenPartial cr varies
  · rintro cl rfl varies
    exact Made.mono (whenPartialR cl varies) (by simp only [Expr.weight]; omega)
  · exact otherwise

variable (left : l.Kept canonical) (right : r.Kept canonical)
include left right

theorem MulExpr.create_made : Made divides canonical (l.weight + r.weight + 1) (MulExpr.create l r) := by
  apply bcreateR_made rfl (fun cr => mulExprCreatePartialR_made cr left) fun cl => mulExprCreatePartialR_made cl right
  intro _ varies
  rw [mulExprCreate]
  split
  · exact ⟨.binary left right fun _ => varies, Nat.le_refl _⟩
  · exact ⟨.binary left right fun _ => varies, Nat.le_refl _⟩

theorem xorExprCreate_made (varies : r.constant? = none) : Made divides canonical (l.weight + r.weight + 1) (xorExprCreate l r) :=
  ⟨.binary left right fun _ => varies, Nat.le_refl _⟩

theorem XorExpr.create_made : Made divides canonical (l.weight + r.weight + 1) (XorExpr.create o fuel l r) :=
  bcreateR_made rfl (fun cr => xorExprCreatePartialR_made cr left)
    (fun cl => xorExprCreatePartialR_made cl right) fun _ => xorExprCreate_made left right

end Operators

section Sum

/-- What sums, differences and their helpers are at some fuel. -/
structure SumMade (divides canonical : Prop) (o : Options) (fuel : Nat) : Prop where
  add : ∀ {l r}, l.Kept canonical → r.Kept canonical →
    Made divides canonical (l.weight + r.weight + 1) (AddExpr.create o fuel l r)
  addPartialR : ∀ cl {r}, r.Kept canonical → r.constant? = none →
    Made divides canonical (r.weight + 2) (addExprCreatePartialR o fuel cl r)
  addGeneral : ∀ {l r}, l.Kept canonical → r.Kept canonical → r.constant? = none →
    Made divides canonical (l.weight + r.weight + 1) (addExprCreate o fuel l r)
  sub : ∀ {l r}, l.Kept canonical → r.Kept canonical →
    Made divides canonical (l.weight + r.weight + 1) (SubExpr.create o fuel l r)
  subPartialR : ∀ cl {r}, r.Kept canonical → r.constant? = none →
    Made divides canonical (r.weight + 2) (subExprCreatePartialR o fuel cl r)
  subGeneral : ∀ {l r}, l.Kept canonical → r.Kept canonical → r.constant? = none →
    Made divides canonical (l.weight + r.weight + 1) (subExprCreate o fuel l r)

namespace SumMade

variable (ih : SumMade divides canonical o fuel) (cl : ConstantExpr) (left : l.Kept canonical)
  (right : r.Kept canonical) (varies : r.constant? = none)
include ih right

section

include left

theorem add_succ : Made divides canonical (l.weight + r.weight + 1) (AddExpr.create o (fuel + 1) l r) := by
  rw [AddExpr.create]
  exact bcreateR_made rfl (fun cr => ih.addPartialR cr left) (fun cl => ih.addPartialR cl right) fun _ => ih.addGeneral left right

theorem sub_succ : Made divides canonical (l.weight + r.weight + 1) (SubExpr.create o (fuel + 1) l r) := by
  rw [SubExpr.create]
  refine bcreateR_made rfl (fun cr varies => ?_) (fun cl => ih.subPartialR cl right) fun _ => ih.subGeneral left right
  exact ih.addPartialR _ left varies

end

include varies

theorem addPartialR_succ : Made divides canonical (r.weight + 2) (addExprCreatePartialR o (fuel + 1) cl r) := by
  rw [addExprCreatePartialR.eq_def]
  dsimp only
  split
  · exact xorExprCreatePartialR_made cl right varies
  split
  · exact ⟨right, by omega⟩
  split
  · apply Satisfies.bind (ih.add .constant .constant)
    rintro sum ⟨kept, light⟩
    exact Made.mono (ih.add kept right.right) (by simp [weight] at light ⊢; omega)
  · apply Satisfies.bind (ih.add .constant .constant)
    rintro sum ⟨kept, light⟩
    exact Made.mono (ih.sub kept right.right) (by simp [weight] at light ⊢; omega)
  · exact ⟨.binary .constant right fun _ => varies, by simp [weight]; omega⟩

theorem subPartialR_succ : Made divides canonical (r.weight + 2) (subExprCreatePartialR o (fuel + 1) cl r) := by
  rw [subExprCreatePartialR.eq_def]
  dsimp only
  split
  · exact xorExprCreatePartialR_made cl right varies
  split
  · apply Satisfies.bind (ih.sub .constant .constant)
    rintro difference ⟨kept, light⟩
    exact Made.mono (ih.sub kept right.right) (by simp [weight] at light ⊢; omega)
  · apply Satisfies.bind (ih.sub .constant .constant)
    rintro difference ⟨kept, light⟩
    exact Made.mono (ih.add kept right.right) (by simp [weight] at light ⊢; omega)
  · exact ⟨.binary .constant right fun _ => varies, by simp [weight]; omega⟩

include left

theorem addGeneral_succ : Made divides canonical (l.weight + r.weight + 1) (addExprCreate o (fuel + 1) l r) := by
  rw [addExprCreate.eq_def]
  dsimp only
  split
  · exact xorExprCreate_made left right varies
  split
  · apply Satisfies.bind (ih.add left.right right)
    rintro sum ⟨kept, light⟩
    exact Made.mono (ih.add .constant kept) (by simp [weight]; omega)
  · apply Satisfies.bind (ih.sub right left.right)
    rintro difference ⟨kept, light⟩
    exact Made.mono (ih.add .constant kept) (by simp [weight]; omega)
  · split
    · apply Satisfies.bind (ih.add left right.right)
      rintro sum ⟨kept, light⟩
      exact Made.mono (ih.add .constant kept) (by simp [weight]; omega)
    · apply Satisfies.bind (ih.sub left right.right)
      rintro difference ⟨kept, light⟩
      exact Made.mono (ih.add .constant kept) (by simp [weight]; omega)
    · exact ⟨.binary left right fun _ => varies, Nat.le_refl _⟩

theorem subGeneral_succ : Made divides canonical (l.weight + r.weight + 1) (subExprCreate o (fuel + 1) l r) := by
  rw [subExprCreate.eq_def]
  dsimp only
  split
  · exact xorExprCreate_made left right varies
  split
  · exact made_constant
  split
  · apply Satisfies.bind (ih.sub left.right right)
    rintro difference ⟨kept, light⟩
    exact Made.mono (ih.add .constant kept) (by simp [weight]; omega)
  · apply Satisfies.bind (ih.add left.right right)
    rintro sum ⟨kept, light⟩
    exact Made.mono (ih.sub .constant kept) (by simp [weight]; omega)
  · split
    · apply Satisfies.bind (ih.sub left right.right)
      rintro difference ⟨kept, light⟩
      exact Made.mono (ih.sub kept .constant) (by simp [weight]; omega)
    · apply Satisfies.bind (ih.add left right.right)
      rintro sum ⟨kept, light⟩
      exact Made.mono (ih.sub kept .constant) (by simp [weight]; omega)
    · exact ⟨.binary left right fun _ => varies, Nat.le_refl _⟩

omit ih left right varies in
theorem of_fuel (fuel : Nat) : SumMade divides canonical o fuel := by
  induction fuel with
  | zero => constructor <;> intros <;> exact nofun
  | succ fuel ih =>
    exact ⟨ih.add_succ, fun cl _ => ih.addPartialR_succ cl, ih.addGeneral_succ, ih.sub_succ,
      fun cl _ => ih.subPartialR_succ cl, ih.subGeneral_succ⟩

end SumMade

end Sum

section Slices

theorem Expr.Kept.slice {off w : Nat} (kept : e.Kept canonical) : (Expr.extract e off w).Kept canonical :=
  fun isCanonical => ⟨trivial, kept isCanonical⟩

theorem slices_made (fuel : Nat) :
    (∀ {l r : Expr}, l.Kept canonical → r.Kept canonical →
      Made divides canonical (l.weight + r.weight + 1) (ConcatExpr.create fuel l r)) ∧
    (∀ {e : Expr} (off w : Nat), e.Kept canonical → Made divides canonical (2 * e.weight) (ExtractExpr.create fuel e off w)) := by
  induction fuel with
  | zero => exact ⟨fun _ _ => by rintro ⟨⟩, fun _ _ _ => by rintro ⟨⟩⟩
  | succ fuel ih =>
    obtain ⟨concat, extract⟩ := ih
    constructor
    · intro l r left right
      have joined : Made divides canonical (l.weight + r.weight + 1) (pure (.concat l r)) :=
        ⟨fun isCanonical => ⟨trivial, left isCanonical, right isCanonical⟩, Nat.le_refl _⟩
      rw [ConcatExpr.create.eq_def]
      dsimp only
      split
      · exact made_constant
      · split
        · exact .mono (extract _ _ fun isCanonical => (left isCanonical).2) (by simp; omega)
        · exact joined
      · exact joined
    · intro e off w kept
      apply made_require
      intro _
      split
      · exact ⟨kept, by omega⟩
      split
      · exact ⟨.constant, by simp⟩
      · have left := fun isCanonical => (kept isCanonical).2.1
        have right := fun isCanonical => (kept isCanonical).2.2
        split
        · exact .mono (extract _ w left) (by simp; omega)
        split
        · exact .mono (extract off w right) (by simp; omega)
        · apply Satisfies.bind (extract _ _ left)
          rintro extractedLeft ⟨keptLeft, lightLeft⟩
          apply Satisfies.bind (extract _ _ right)
          rintro extractedRight ⟨keptRight, lightRight⟩
          exact Made.mono (concat keptLeft keptRight) (by simp; omega)
      · exact ⟨kept.slice, Nat.le_refl _⟩

theorem ZExtExpr.create_made (kept : e.Kept canonical) (w : Nat) : Made divides canonical (2 * e.weight) (ZExtExpr.create fuel e w) := by
  have positive := e.weight_pos
  rw [ZExtExpr.create]
  split
  · exact ⟨kept, by omega⟩
  split
  · exact (slices_made fuel).2 0 w kept
  · cases e.constant? with
    | some value => exact ⟨.constant, by simp; omega⟩
    | none => exact ⟨fun isCanonical => ⟨trivial, kept isCanonical⟩, Nat.le_refl _⟩

theorem SExtExpr.create_made (kept : e.Kept canonical) (w : Nat) : Made divides canonical (2 * e.weight) (SExtExpr.create fuel e w) := by
  have positive := e.weight_pos
  rw [SExtExpr.create]
  split
  · exact ⟨kept, by omega⟩
  split
  · exact (slices_made fuel).2 0 w kept
  · cases e.constant? with
    | some value => exact ⟨.constant, by simp; omega⟩
    | none => exact ⟨fun isCanonical => ⟨trivial, kept isCanonical⟩, Nat.le_refl _⟩

end Slices

section Operators

theorem createIsZero_bit (kept : e.Kept canonical) : Satisfies (Tolerates divides)
    (fun e' => (e'.Kept canonical ∧ e'.Bit canonical) ∧ e'.weight ≤ e.weight + 2) (createIsZero o fuel e) :=
  EqExpr.create_bit kept .constant

theorem Expr.Bit.of_width (boolean : e.width = 1) : e.Bit canonical := by
  rintro _ c rfl
  exact boolean

theorem bcreate_made {kind : BinaryKind} {create : Expr → Expr → Except Fault Expr}
    (divided : kind.isDivision → ∀ cr, r = .constant cr → cr.isZero = true → divides)
    (general : Made divides canonical (bound + 1) (create l r)) : Made divides canonical (bound + 1) (bcreate kind create l r) := by
  apply made_require
  intro _
  split
  · rename_i cl cr _ isConstant
    rw [ConstantExpr.binary]
    split
    · rename_i zero
      exact fun _ => divided zero.1 cr (Expr.constant?_eq_some.mp isConstant) zero.2
    · exact made_constant
  · exact general

theorem cmpcreate_made {kind : CmpKind} {create : Expr → Expr → Except Fault Expr}
    (general : l.width = r.width → Made divides canonical (bound + 1) (create l r)) :
    Made divides canonical (bound + 1) (cmpcreate kind create l r) := by
  apply made_require
  intro same
  split
  · exact made_constant
  · exact general same

variable (left : l.Kept canonical) (right : r.Kept canonical)
include left right

theorem BinaryKind.create_made (kind : BinaryKind) (divided : kind.isDivision → ∀ cr, r = .constant cr → cr.isZero = true → divides)
    (joins : kind = .and ∨ kind = .or → canonical → Joins l r) :
    Made divides canonical (Expr.binary kind l r).weight (kind.create o fuel l r) := by
  cases kind with
  | add => exact (SumMade.of_fuel fuel).add left right
  | sub => exact (SumMade.of_fuel fuel).sub left right
  | mul => exact MulExpr.create_made left right
  | and => exact AndExpr.create_made left right (joins (.inl rfl))
  | or => exact OrExpr.create_made left right (joins (.inr rfl))
  | xor => exact XorExpr.create_made left right
  | shl | lshr =>
    apply bcreate_made divided
    split
    · rename_i boolean
      apply Satisfies.bind (createIsZero_bit right)
      rintro isZero ⟨⟨kept, bit⟩, light⟩
      exact Made.mono (AndExpr.create_made left kept (joins_of_bits (.of_width boolean) bit)) (by omega)
    · exact ⟨.binary left right nofun, Nat.le_refl _⟩
  | udiv | sdiv | ashr =>
    apply bcreate_made divided
    split
    · exact ⟨left, by omega⟩
    · exact ⟨.binary left right nofun, Nat.le_refl _⟩
  | urem | srem =>
    apply bcreate_made divided
    split
    · exact made_constant
    · exact ⟨.binary left right nofun, Nat.le_refl _⟩

omit left right in
theorem negated_made {x y : Expr} {junction : Expr → Except Fault Expr} (kept : x.Kept canonical)
    (joined : ∀ isZero : Expr, isZero.Kept canonical → isZero.Bit canonical →
      Made divides canonical (isZero.weight + y.weight + 3) (junction isZero)) :
    Made divides canonical (x.weight + y.weight + 5) (createIsZero o fuel x >>= junction) := by
  apply Satisfies.bind (createIsZero_bit kept)
  rintro isZero ⟨⟨keptZero, bit⟩, light⟩
  exact Made.mono (joined isZero keptZero bit) (by omega)

theorem UltExpr.create_made : Made divides canonical (l.weight + r.weight + 5) (UltExpr.create o fuel l r) := by
  apply cmpcreate_made
  intro same
  split
  · rename_i boolean
    apply negated_made left
    intro isZero kept bit
    exact .mono (AndExpr.create_made kept right (joins_of_bits bit (.of_width (same.symm.trans boolean)))) (by omega)
  · exact ⟨fun isCanonical => ⟨‹_›, left isCanonical, right isCanonical⟩, Nat.le_refl _⟩

theorem UleExpr.create_made : Made divides canonical (l.weight + r.weight + 5) (UleExpr.create o fuel l r) := by
  apply cmpcreate_made
  intro same
  split
  · rename_i boolean
    apply negated_made left
    intro isZero kept bit
    exact OrExpr.create_made kept right (joins_of_bits bit (.of_width (same.symm.trans boolean)))
  · exact ⟨fun isCanonical => ⟨‹_›, left isCanonical, right isCanonical⟩, Nat.le_refl _⟩

theorem SltExpr.create_made : Made divides canonical (l.weight + r.weight + 5) (SltExpr.create o fuel l r) := by
  apply cmpcreate_made
  intro _
  split
  · rename_i boolean
    rw [Nat.add_comm l.weight]
    apply negated_made right
    intro isZero kept bit
    exact .mono (AndExpr.create_made left kept (joins_of_bits (.of_width boolean) bit)) (by omega)
  · exact ⟨fun isCanonical => ⟨‹_›, left isCanonical, right isCanonical⟩, Nat.le_refl _⟩

theorem SleExpr.create_made : Made divides canonical (l.weight + r.weight + 5) (SleExpr.create o fuel l r) := by
  apply cmpcreate_made
  intro _
  split
  · rename_i boolean
    rw [Nat.add_comm l.weight]
    apply negated_made right
    intro isZero kept bit
    exact .mono (OrExpr.create_made left kept (joins_of_bits (.of_width boolean) bit)) (by omega)
  · exact ⟨fun isCanonical => ⟨‹_›, left isCanonical, right isCanonical⟩, Nat.le_refl _⟩

theorem CmpKind.create_made (kind : CmpKind) : Made divides canonical (Expr.cmp kind l r).weight (kind.create o fuel l r) := by
  cases kind with
  | eq => exact EqExpr.create_made left right
  | ne =>
    apply Satisfies.bind (EqExpr.create_made left right)
    rintro equal ⟨kept, light⟩
    exact Made.mono (EqExpr.create_made .constant kept) (by simp [CmpKind.weight]; omega)
  | ult => exact UltExpr.create_made left right
  | ule => exact UleExpr.create_made left right
  | ugt => exact .mono (UltExpr.create_made right left) (by simp [CmpKind.weight]; omega)
  | uge => exact .mono (UleExpr.create_made right left) (by simp [CmpKind.weight]; omega)
  | slt => exact SltExpr.create_made left right
  | sle => exact SleExpr.create_made left right
  | sgt => exact .mono (SltExpr.create_made right left) (by simp [CmpKind.weight]; omega)
  | sge => exact .mono (SleExpr.create_made right left) (by simp [CmpKind.weight]; omega)

end Operators

section Read

def UpdateNode.Kept (canonical : Prop) (head : UpdateNode) : Prop :=
  canonical → head.All Expr.Normal

theorem readExprRollback_made {index : Expr} (keptIndex : index.Kept canonical) :
    ∀ {head : UpdateNode}, head.Kept canonical →
    Satisfies (Tolerates divides)
      (fun result => match result with
        | .inl value => value.Kept canonical ∧ value.weight ≤ head.weight
        | .inr rest => rest.Kept canonical ∧ rest.weight ≤ head.weight)
      (readExprRollback o fuel index head)
  | .null, kept => ⟨kept, Nat.le_refl _⟩
  | .node position value next, kept => by
    apply Satisfies.bind (EqExpr.create_made keptIndex fun isCanonical => (kept isCanonical).1)
    rintro cond -
    split
    · split
      · exact ⟨fun isCanonical => (kept isCanonical).2.1, by simp only [UpdateNode.weight]; omega⟩
      · apply (readExprRollback_made keptIndex fun isCanonical => (kept isCanonical).2.2).mono
        intro result made
        cases result with
        | inl found => exact ⟨made.1, by have := made.2; simp only [UpdateNode.weight]; omega⟩
        | inr rest => exact ⟨made.1, by have := made.2; simp only [UpdateNode.weight]; omega⟩
    · exact ⟨kept, Nat.le_refl _⟩

theorem ReadExpr.create_made (root : Array) {head : UpdateNode} {index : Expr}
    (keptHead : head.Kept canonical) (keptIndex : index.Kept canonical) :
    Made divides canonical (head.weight + 1000 * index.weight) (ReadExpr.create o fuel root head index) := by
  have positive := index.weight_pos
  have read {head' : UpdateNode} (kept : head'.Kept canonical) (light : head'.weight ≤ head.weight) :
      Made divides canonical (head.weight + 1000 * index.weight) (pure (.read root head' index)) :=
    ⟨fun isCanonical => ⟨trivial, kept isCanonical, keptIndex isCanonical⟩, Nat.add_le_add_right light _⟩
  apply Satisfies.bind (readExprRollback_made keptIndex keptHead)
  intro result made
  cases result with
  | inl value => exact ⟨made.1, Nat.le_add_right_of_le made.2⟩
  | inr rest =>
    cases index.constant? with
    | none => exact read keptHead (Nat.le_refl _)
    | some c =>
      apply made_require
      intro _
      split
      · split
        · exact ⟨.constant, by simp; omega⟩
        · exact read made.1 made.2
      · exact read keptHead (Nat.le_refl _)

theorem SelectExpr.create_made {c t f : Expr} (keptC : c.Kept canonical) (keptT : t.Kept canonical) (keptF : f.Kept canonical) :
    Made divides canonical (c.weight + t.weight + f.weight + 5) (SelectExpr.create o fuel c t f) := by
  have general : Made divides canonical (c.weight + t.weight + f.weight + 5) (pure (.select c t f)) :=
    ⟨fun isCanonical => ⟨trivial, keptC isCanonical, keptT isCanonical, keptF isCanonical⟩, Nat.le_refl _⟩
  apply made_require
  intro bitC
  apply made_require
  intro same
  split
  · split
    · exact ⟨keptT, by omega⟩
    · exact ⟨keptF, by omega⟩
  · split
    · exact ⟨keptT, by omega⟩
    split
    · rename_i bitT
      have bitF : f.Bit canonical := .of_width (same.symm.trans bitT)
      have joins {e : Expr} (bit : e.Bit canonical) := joins_of_bits (.of_width bitC) bit
      split
      · split
        · exact .mono (OrExpr.create_made keptC keptF (joins bitF)) (by omega)
        · apply Satisfies.bind (createIsZero_bit keptC)
          rintro isZero ⟨⟨kept, bit⟩, light⟩
          exact Made.mono (AndExpr.create_made kept keptF (joins_of_bits bit bitF)) (by omega)
      · split
        · apply Satisfies.bind (createIsZero_bit keptC)
          rintro isZero ⟨⟨kept, bit⟩, light⟩
          exact Made.mono (OrExpr.create_made kept keptT (joins_of_bits bit (.of_width bitT))) (by omega)
        · exact .mono (AndExpr.create_made keptC keptT (joins (.of_width bitT))) (by omega)
      · exact general
    · exact general

end Read

end NeuroMerge.Symbolic
