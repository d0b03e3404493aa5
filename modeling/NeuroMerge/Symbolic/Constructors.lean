import NeuroMerge.Symbolic.OperatorProperties
import NeuroMerge.Symbolic.Termination

/-!
# The constructors as a whole

Building an expression of a given kind from operands that denote bit vectors
terminates with an expression that denotes the operation on them, provided that
constant arrays are read within bounds and no divisor is zero.
-/

namespace NeuroMerge.Symbolic

variable {guards : Guards} {ρ : Assignment} {o : Options} {w n : Nat} {l r : Expr}

/-- The `create` function of a kind, as `Expr::createFromKind` selects it. -/
def BinaryKind.create (o : Options) (fuel : Nat) : BinaryKind → Expr → Expr → Except Fault Expr
  | .add => AddExpr.create o fuel
  | .sub => SubExpr.create o fuel
  | .mul => MulExpr.create
  | .udiv => UDivExpr.create
  | .sdiv => SDivExpr.create
  | .urem => URemExpr.create
  | .srem => SRemExpr.create
  | .and => AndExpr.create
  | .or => OrExpr.create
  | .xor => XorExpr.create o fuel
  | .shl => ShlExpr.create o fuel
  | .lshr => LShrExpr.create o fuel
  | .ashr => AShrExpr.create

def CmpKind.create (o : Options) (fuel : Nat) : CmpKind → Expr → Expr → Except Fault Expr
  | .eq => EqExpr.create o fuel
  | .ne => NeExpr.create o fuel
  | .ult => UltExpr.create o fuel
  | .ule => UleExpr.create o fuel
  | .ugt => UgtExpr.create o fuel
  | .uge => UgeExpr.create o fuel
  | .slt => SltExpr.create o fuel
  | .sle => SleExpr.create o fuel
  | .sgt => SgtExpr.create o fuel
  | .sge => SgeExpr.create o fuel

theorem BinaryKind.create_builds (allowed : o.Allows guards ρ) {fuel : Nat} (kind : BinaryKind)
    {a b : BitVec w} (denotesLeft : Denotes guards ρ l a) (denotesRight : Denotes guards ρ r b)
    (division : kind.isDivision → guards.divisible r ∧ (w = 1 → b ≠ 0#w)) :
    Builds guards ρ (kind.apply a b) (kind.create o fuel l r) := by
  cases kind with
  | add => exact AddExpr.create_builds allowed denotesLeft denotesRight
  | sub => exact SubExpr.create_builds allowed denotesLeft denotesRight
  | mul => exact MulExpr.create_builds denotesLeft denotesRight
  | udiv => exact UDivExpr.create_builds denotesLeft denotesRight (division rfl).1 (division rfl).2
  | sdiv => exact SDivExpr.create_builds denotesLeft denotesRight (division rfl).1 (division rfl).2
  | urem => exact URemExpr.create_builds denotesLeft denotesRight (division rfl).1 (division rfl).2
  | srem => exact SRemExpr.create_builds denotesLeft denotesRight (division rfl).1 (division rfl).2
  | and => exact AndExpr.create_builds denotesLeft denotesRight
  | or => exact OrExpr.create_builds denotesLeft denotesRight
  | xor => exact XorExpr.create_builds allowed denotesLeft denotesRight
  | shl => exact ShlExpr.create_builds allowed denotesLeft denotesRight
  | lshr => exact LShrExpr.create_builds allowed denotesLeft denotesRight
  | ashr => exact AShrExpr.create_builds denotesLeft denotesRight

theorem CmpKind.create_builds (allowed : o.Allows guards ρ) {fuel : Nat} (kind : CmpKind)
    {a b : BitVec w} (denotesLeft : Denotes guards ρ l a) (denotesRight : Denotes guards ρ r b) :
    Builds guards ρ (BitVec.ofBool (kind.apply a b)) (kind.create o fuel l r) := by
  cases kind with
  | eq => exact EqExpr.create_builds allowed denotesLeft denotesRight
  | ne => exact NeExpr.create_builds allowed denotesLeft denotesRight
  | ult => exact UltExpr.create_builds allowed denotesLeft denotesRight
  | ule => exact UleExpr.create_builds allowed denotesLeft denotesRight
  | ugt => exact UltExpr.create_builds allowed denotesRight denotesLeft
  | uge => exact UleExpr.create_builds allowed denotesRight denotesLeft
  | slt => exact SltExpr.create_builds allowed denotesLeft denotesRight
  | sle => exact SleExpr.create_builds allowed denotesLeft denotesRight
  | sgt => exact SltExpr.create_builds allowed denotesRight denotesLeft
  | sge => exact SleExpr.create_builds allowed denotesRight denotesLeft

theorem BinaryKind.create_ends (kind : BinaryKind) (l r : Expr) : Ends fun fuel => kind.create o fuel l r := by
  cases kind with
  | add => exact AddExpr.create_ends l r
  | sub => exact SubExpr.create_ends l r
  | mul => exact MulExpr.create_ends l r
  | udiv => exact UDivExpr.create_ends l r
  | sdiv => exact SDivExpr.create_ends l r
  | urem => exact URemExpr.create_ends l r
  | srem => exact SRemExpr.create_ends l r
  | and => exact AndExpr.create_ends l r
  | or => exact OrExpr.create_ends l r
  | xor => exact XorExpr.create_ends l r
  | shl => exact ShlExpr.create_ends l r
  | lshr => exact LShrExpr.create_ends l r
  | ashr => exact AShrExpr.create_ends l r

theorem CmpKind.create_ends (kind : CmpKind) (l r : Expr) : Ends fun fuel => kind.create o fuel l r := by
  cases kind with
  | eq => exact EqExpr.create_ends l r
  | ne => exact NeExpr.create_ends l r
  | ult => exact UltExpr.create_ends l r
  | ule => exact UleExpr.create_ends l r
  | ugt => exact UltExpr.create_ends r l
  | uge => exact UleExpr.create_ends r l
  | slt => exact SltExpr.create_ends l r
  | sle => exact SleExpr.create_ends l r
  | sgt => exact SltExpr.create_ends r l
  | sge => exact SleExpr.create_ends r l

def Creates (guards : Guards) (ρ : Assignment) {w : Nat} (v : BitVec w)
    (family : Nat → Except Fault Expr) : Prop :=
  ∃ e, Denotes guards ρ e v ∧ Returns family e

theorem Creates.of_builds (nonzero : guards.Nonzero ρ) {v : BitVec w} {family : Nat → Except Fault Expr} (ends : Ends family)
    (builds : ∀ fuel, Builds guards ρ v (family fuel)) : Creates guards ρ v family := by
  apply ends.returns
  intro fuel
  apply (builds fuel).weaken
  intro fault excused
  cases excused with
  | inl exhausted => exact exhausted
  | inr divided => exact absurd nonzero divided.2

def Guards.defined (ρ : Assignment) : Guards where
  readable root index :=
    (index.eval ρ root.domain).toNat < root.size ∧ root.size ≤ 2 ^ root.domain
  divisible d := d.eval ρ d.width ≠ 0#d.width

theorem Guards.nonzero_defined : (Guards.defined ρ).Nonzero ρ := fun _ divisible => divisible

theorem Guards.allows_defined : o.Allows (Guards.defined ρ) ρ :=
  fun _ _ _ readable => readable

/-- Every constructor of the hierarchy builds the operation on what its operands
denote. -/
structure PreserveMeaning (o : Options) (ρ : Assignment) : Prop where
  binary : ∀ (kind : BinaryKind) {w : Nat} {l r : Expr} {a b : BitVec w},
    Denotes (.defined ρ) ρ l a → Denotes (.defined ρ) ρ r b → (kind.isDivision → b ≠ 0#w) →
    Creates (.defined ρ) ρ (kind.apply a b) fun fuel => kind.create o fuel l r
  cmp : ∀ (kind : CmpKind) {w : Nat} {l r : Expr} {a b : BitVec w},
    Denotes (.defined ρ) ρ l a → Denotes (.defined ρ) ρ r b →
    Creates (.defined ρ) ρ (BitVec.ofBool (kind.apply a b)) fun fuel => kind.create o fuel l r
  read : ∀ {root : Array} {head : UpdateNode} {index : Expr} {i : BitVec root.domain},
    head.WellFormed (.defined ρ) root → Denotes (.defined ρ) ρ index i → root.domain ≤ 64 →
    (root.isConstantArray → (Guards.defined ρ).readable root index) →
    Creates (.defined ρ) ρ (head.eval ρ root i) fun fuel =>
      ReadExpr.create o fuel root head index
  select : ∀ {w : Nat} {c t f : Expr} {bit : BitVec 1} {a b : BitVec w},
    Denotes (.defined ρ) ρ c bit → Denotes (.defined ρ) ρ t a → Denotes (.defined ρ) ρ f b →
    Creates (.defined ρ) ρ (if bit = 1#1 then a else b) fun fuel =>
      SelectExpr.create o fuel c t f
  concat : ∀ {m n : Nat} {l r : Expr} {a : BitVec m} {b : BitVec n},
    Denotes (.defined ρ) ρ l a → Denotes (.defined ρ) ρ r b →
    Creates (.defined ρ) ρ (a ++ b) fun fuel => ConcatExpr.create fuel l r
  extract : ∀ {n w off : Nat} {e : Expr} {a : BitVec n},
    Denotes (.defined ρ) ρ e a → 0 < w → off + w ≤ n →
    Creates (.defined ρ) ρ (a.extractLsb' off w) fun fuel => ExtractExpr.create fuel e off w
  not : ∀ {w : Nat} {e : Expr} {a : BitVec w}, Denotes (.defined ρ) ρ e a →
    Denotes (.defined ρ) ρ (NotExpr.create e) (~~~ a)
  zext : ∀ {n w : Nat} {e : Expr} {a : BitVec n}, Denotes (.defined ρ) ρ e a → 0 < w →
    Creates (.defined ρ) ρ (a.setWidth w) fun fuel => ZExtExpr.create fuel e w
  sext : ∀ {n w : Nat} {e : Expr} {a : BitVec n}, Denotes (.defined ρ) ρ e a → 0 < w →
    Creates (.defined ρ) ρ (a.signExtend w) fun fuel => SExtExpr.create fuel e w

theorem constructors_preserve_meaning (o : Options) (ρ : Assignment) : PreserveMeaning o ρ := by
  have nonzero := Guards.nonzero_defined (ρ := ρ)
  have allowed : o.Allows (.defined ρ) ρ := Guards.allows_defined
  constructor
  case binary =>
    intro kind w l r a b denotesLeft denotesRight division
    apply Creates.of_builds nonzero (kind.create_ends l r)
    intro fuel
    apply kind.create_builds allowed denotesLeft denotesRight
    intro isDivision
    refine ⟨?_, fun _ => division isDivision⟩
    obtain ⟨-, rfl, value⟩ := denotesRight
    simpa [Guards.defined, value] using division isDivision
  case cmp =>
    intro kind w l r a b denotesLeft denotesRight
    exact Creates.of_builds nonzero (kind.create_ends l r) fun fuel =>
      kind.create_builds allowed denotesLeft denotesRight
  case read =>
    intro root head index i updates denotes narrow within
    exact Creates.of_builds nonzero (ReadExpr.create_ends root head index) fun fuel =>
      ReadExpr.create_builds allowed updates denotes narrow within
  case select =>
    intro w c t f bit a b denotesCond denotesTrue denotesFalse
    exact Creates.of_builds nonzero (SelectExpr.create_ends c t f) fun fuel =>
      SelectExpr.create_builds allowed denotesCond denotesTrue denotesFalse
  case concat =>
    intro m n l r a b denotesLeft denotesRight
    exact Creates.of_builds nonzero (ConcatExpr.create_ends l r) fun fuel =>
      ConcatExpr.create_builds denotesLeft denotesRight
  case extract =>
    intro n w off e a denotes positive within
    exact Creates.of_builds nonzero (ExtractExpr.create_ends e off w) fun fuel =>
      ExtractExpr.create_builds denotes positive within
  case not =>
    intro w e a denotes
    exact NotExpr.create_denotes denotes
  case zext =>
    intro n w e a denotes positive
    exact Creates.of_builds nonzero (ZExtExpr.create_ends e w) fun fuel =>
      ZExtExpr.create_builds denotes positive
  case sext =>
    intro n w e a denotes positive
    exact Creates.of_builds nonzero (SExtExpr.create_ends e w) fun fuel =>
      SExtExpr.create_builds denotes positive

end NeuroMerge.Symbolic
