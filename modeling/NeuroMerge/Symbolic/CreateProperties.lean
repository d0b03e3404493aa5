import NeuroMerge.Foundations.BitVector
import NeuroMerge.Symbolic.Denotes

/-!
# Expression constructors preserve meaning

Every `create` function applied to expressions that denote bit vectors builds
an expression that denotes the operation on them, and fails no assertion.
-/

namespace NeuroMerge.Symbolic

open BitVector

variable {guards : Guards} {ρ : Assignment} {o : Options} {fuel : Nat} {w m n : Nat} {l r e : Expr}

theorem Denotes.constant? {v : BitVec w} {c : ConstantExpr}
    (denotes : Denotes guards ρ e v) (isConstant : e.constant? = some c) : c = ⟨w, v⟩ := by
  rw [Expr.constant?_eq_some] at isConstant
  subst isConstant
  exact denotes.of_constant

theorem Denotes.cast {v : BitVec m} (denotes : Denotes guards ρ e v) (same : m = w) : Denotes guards ρ e (v.cast same) := by
  subst same
  exact denotes

theorem ConstantExpr.binary_builds (kind : BinaryKind) {a b : BitVec w}
    (defined : kind.isDivision → b = 0#w → Excused guards ρ .divisionByZero) :
    Satisfies (Excused guards ρ) (· = ⟨w, kind.apply a b⟩) (binary kind ⟨w, a⟩ ⟨w, b⟩) := by
  rw [binary]
  split
  case isTrue undefined => exact defined undefined.1 (by simpa [isZero] using undefined.2)
  case isFalse => simp

theorem ConstantExpr.sub_builds (a b : BitVec w) : Satisfies (Excused guards ρ) (· = ⟨w, a - b⟩) (binary .sub ⟨w, a⟩ ⟨w, b⟩) :=
  binary_builds .sub nofun

section Macros

variable {kind : BinaryKind} {compare : CmpKind} {a b : BitVec w} {createPartial : Expr → ConstantExpr → Except Fault Expr}
  {createPartialR : ConstantExpr → Expr → Except Fault Expr} {create : Expr → Expr → Except Fault Expr}

theorem binary_constant_builds
    (defined : kind.isDivision → b = 0#w → Excused guards ρ .divisionByZero) :
    Builds guards ρ (kind.apply a b) (.constant <$> ConstantExpr.binary kind ⟨w, a⟩ ⟨w, b⟩) := by
  apply Satisfies.bind (ConstantExpr.binary_builds kind defined)
  intro value folded
  cases folded
  exact .constant _

theorem bcreateR_builds (kind : BinaryKind) (denotesLeft : Denotes guards ρ l a) (denotesRight : Denotes guards ρ r b)
    (defined : kind.isDivision → b = 0#w → Excused guards ρ .divisionByZero)
    (partialLeft : Builds guards ρ (kind.apply a b) (createPartial l ⟨w, b⟩))
    (partialRight : Builds guards ρ (kind.apply a b) (createPartialR ⟨w, a⟩ r))
    (general : Builds guards ρ (kind.apply a b) (create l r)) :
    Builds guards ρ (kind.apply a b) (bcreateR kind createPartial createPartialR create l r) := by
  apply Builds.require (by rw [denotesLeft.width, denotesRight.width])
  cases leftConstant : l.constant? with
  | some cl =>
    cases denotesLeft.constant? leftConstant
    cases rightConstant : r.constant? with
    | some cr =>
      cases denotesRight.constant? rightConstant
      exact binary_constant_builds defined
    | none => exact partialRight
  | none =>
    cases rightConstant : r.constant? with
    | some cr =>
      cases denotesRight.constant? rightConstant
      exact partialLeft
    | none => exact general

/-- A constructor that builds the node unless the operands are booleans. -/
theorem bcreate_builds (kind : BinaryKind) (denotesLeft : Denotes guards ρ l a)
    (denotesRight : Denotes guards ρ r b) (divisible : kind.isDivision → guards.divisible r)
    (onBits : w = 1 → Builds guards ρ (kind.apply a b) (create l r)) :
    Builds guards ρ (kind.apply a b) (bcreate kind (fun l r => if l.width = 1 then create l r else pure (.binary kind l r)) l r) := by
  have general : Builds guards ρ (kind.apply a b) (if l.width = 1 then create l r else pure (.binary kind l r)) := by
    rw [denotesLeft.width]
    split
    · exact onBits ‹_›
    · exact denotesLeft.binary kind denotesRight fun isDivision => ⟨‹_›, divisible isDivision⟩
  apply Builds.require (by rw [denotesLeft.width, denotesRight.width])
  cases leftConstant : l.constant? with
  | some cl =>
    cases denotesLeft.constant? leftConstant
    cases rightConstant : r.constant? with
    | some cr =>
      cases denotesRight.constant? rightConstant
      exact binary_constant_builds fun isDivision =>
        Excused.divisionByZero denotesRight (divisible isDivision)
    | none => exact general
  | none => exact general

theorem cmp_constant_denotes (a b : BitVec w) :
    Denotes guards ρ (.constant (ConstantExpr.cmp compare ⟨w, a⟩ ⟨w, b⟩)) (BitVec.ofBool (compare.apply a b)) := by
  rw [ConstantExpr.cmp, BitVec.setWidth_eq]
  exact .constant ⟨1, BitVec.ofBool (compare.apply a b)⟩

theorem cmpcreateT_builds (compare : CmpKind) (denotesLeft : Denotes guards ρ l a) (denotesRight : Denotes guards ρ r b)
    (partialLeft : Builds guards ρ (BitVec.ofBool (compare.apply a b)) (createPartial l ⟨w, b⟩))
    (partialRight : Builds guards ρ (BitVec.ofBool (compare.apply a b)) (createPartialR ⟨w, a⟩ r))
    (general : Builds guards ρ (BitVec.ofBool (compare.apply a b)) (create l r)) :
    Builds guards ρ (BitVec.ofBool (compare.apply a b)) (cmpcreateT compare createPartial createPartialR create l r) := by
  apply Builds.require (by rw [denotesLeft.width, denotesRight.width])
  cases leftConstant : l.constant? with
  | some cl =>
    cases denotesLeft.constant? leftConstant
    cases rightConstant : r.constant? with
    | some cr =>
      cases denotesRight.constant? rightConstant
      exact cmp_constant_denotes a b
    | none => exact partialRight
  | none =>
    cases rightConstant : r.constant? with
    | some cr =>
      cases denotesRight.constant? rightConstant
      exact partialLeft
    | none => exact general

theorem cmpcreate_builds (compare : CmpKind) (denotesLeft : Denotes guards ρ l a) (denotesRight : Denotes guards ρ r b)
    (onBits : w = 1 → Builds guards ρ (BitVec.ofBool (compare.apply a b)) (create l r)) :
    Builds guards ρ (BitVec.ofBool (compare.apply a b)) (cmpcreate compare
      (fun l r => if l.width = 1 then create l r else pure (.cmp compare l r)) l r) := by
  have general : Builds guards ρ (BitVec.ofBool (compare.apply a b)) (if l.width = 1 then create l r else pure (.cmp compare l r)) := by
    rw [denotesLeft.width]
    split
    · exact onBits ‹_›
    · exact denotesLeft.cmp compare denotesRight
  apply Builds.require (by rw [denotesLeft.width, denotesRight.width])
  cases leftConstant : l.constant? with
  | some cl =>
    cases denotesLeft.constant? leftConstant
    cases rightConstant : r.constant? with
    | some cr =>
      cases denotesRight.constant? rightConstant
      exact cmp_constant_denotes a b
    | none => exact general
  | none => exact general

end Macros

section Constants

variable {a : BitVec w} {bit : BitVec 1}

@[simp] theorem ConstantExpr.isZero_iff : (⟨w, a⟩ : ConstantExpr).isZero = true ↔ a = 0#w := by
  simp [ConstantExpr.isZero]

@[simp] theorem ConstantExpr.isOne_iff : (⟨w, a⟩ : ConstantExpr).isOne = true ↔ a.toNat = 1 := by
  simp [ConstantExpr.isOne]

@[simp] theorem ConstantExpr.isAllOnes_iff : (⟨w, a⟩ : ConstantExpr).isAllOnes = true ↔ a = BitVec.allOnes w := by
  simp [ConstantExpr.isAllOnes]

@[simp] theorem ConstantExpr.isTrue_iff : (⟨1, bit⟩ : ConstantExpr).isTrue = true ↔ bit = 1#1 := by
  simpa [ConstantExpr.isTrue] using ne_zero_iff_eq_one bit

@[simp] theorem ConstantExpr.alloc_eq (value : Nat) : ConstantExpr.alloc value w = ⟨w, BitVec.ofNat w value⟩ := rfl

theorem ConstantExpr.concat_eq (a : BitVec m) (b : BitVec n) : ConstantExpr.concat ⟨m, a⟩ ⟨n, b⟩ = ⟨m + n, a ++ b⟩ := by
  simp [ConstantExpr.concat, shiftLeft_or_setWidth_eq_append]

theorem ConstantExpr.extract_eq {offset : Nat} (a : BitVec n) (within : offset + w ≤ n) :
    ConstantExpr.extract ⟨n, a⟩ offset w = ⟨w, a.extractLsb' offset w⟩ := by
  rw [ConstantExpr.extract, setWidth_sshiftRight_eq_extractLsb' a offset within]

end Constants

section Bitwise

variable {a b : BitVec w}

theorem NotExpr.create_denotes (denotes : Denotes guards ρ e a) : Denotes guards ρ (NotExpr.create e) (~~~ a) := by
  rw [NotExpr.create]
  cases isConstant : e.constant? with
  | some c =>
    cases denotes.constant? isConstant
    exact .constant _
  | none => exact denotes.not

theorem andExprCreatePartial_builds (denotes : Denotes guards ρ l a) (b : BitVec w) :
    Builds guards ρ (a &&& b) (andExprCreatePartial l ⟨w, b⟩) := by
  rw [andExprCreatePartial]
  by_cases allOnes : b = BitVec.allOnes w
  · subst allOnes
    simpa using .pure denotes
  by_cases zero : b = 0#w
  · subst zero
    simpa [allOnes] using .pure (.constant ⟨w, 0#w⟩)
  simpa [allOnes, zero] using .pure (denotes.binary .and (.constant ⟨w, b⟩) nofun)

theorem AndExpr.create_builds (denotesLeft : Denotes guards ρ l a) (denotesRight : Denotes guards ρ r b) :
    Builds guards ρ (a &&& b) (AndExpr.create l r) := by
  apply bcreateR_builds .and denotesLeft denotesRight nofun
  · exact andExprCreatePartial_builds denotesLeft b
  · exact (andExprCreatePartial_builds denotesRight a).of_eq (BitVec.and_comm b a)
  · exact denotesLeft.binary .and denotesRight nofun

theorem orExprCreatePartial_builds (denotes : Denotes guards ρ l a) (b : BitVec w) :
    Builds guards ρ (a ||| b) (orExprCreatePartial l ⟨w, b⟩) := by
  rw [orExprCreatePartial]
  by_cases allOnes : b = BitVec.allOnes w
  · subst allOnes
    simpa using .pure (.constant ⟨w, BitVec.allOnes w⟩)
  by_cases zero : b = 0#w
  · subst zero
    simpa [allOnes] using .pure denotes
  simpa [allOnes, zero] using .pure (denotes.binary .or (.constant ⟨w, b⟩) nofun)

theorem OrExpr.create_builds (denotesLeft : Denotes guards ρ l a) (denotesRight : Denotes guards ρ r b) :
    Builds guards ρ (a ||| b) (OrExpr.create l r) := by
  apply bcreateR_builds .or denotesLeft denotesRight nofun
  · exact orExprCreatePartial_builds denotesLeft b
  · exact (orExprCreatePartial_builds denotesRight a).of_eq (BitVec.or_comm b a)
  · exact denotesLeft.binary .or denotesRight nofun

theorem mulExprCreatePartialR_builds (a : BitVec w) (denotes : Denotes guards ρ r b) :
    Builds guards ρ (a * b) (mulExprCreatePartialR ⟨w, a⟩ r) := by
  rw [mulExprCreatePartialR]
  by_cases boolean : w = 1
  · subst boolean
    rw [mul_eq_and, BitVec.and_comm]
    exact andExprCreatePartial_builds denotes a
  by_cases one : a.toNat = 1
  · have same : a * b = b := by
      apply BitVec.eq_of_toNat_eq
      simp [one]
    simpa [boolean, one, same] using .pure denotes
  by_cases zero : a = 0#w
  · subst zero
    simpa [boolean] using .pure (.constant ⟨w, 0#w⟩)
  simpa [boolean, one, zero] using Builds.pure ((Denotes.constant ⟨w, a⟩).binary .mul denotes nofun)

theorem mulExprCreate_builds (denotesLeft : Denotes guards ρ l a) (denotesRight : Denotes guards ρ r b) :
    Builds guards ρ (a * b) (mulExprCreate l r) := by
  rw [mulExprCreate, denotesLeft.width]
  by_cases boolean : w = 1
  · subst boolean
    rw [mul_eq_and]
    exact denotesLeft.binary .and denotesRight nofun
  rw [if_neg boolean]
  exact denotesLeft.binary .mul denotesRight nofun

theorem MulExpr.create_builds (denotesLeft : Denotes guards ρ l a) (denotesRight : Denotes guards ρ r b) :
    Builds guards ρ (a * b) (MulExpr.create l r) := by
  apply bcreateR_builds .mul denotesLeft denotesRight nofun
  · exact (mulExprCreatePartialR_builds b denotesLeft).of_eq (BitVec.mul_comm b a)
  · exact mulExprCreatePartialR_builds a denotesRight
  · exact mulExprCreate_builds denotesLeft denotesRight

end Bitwise

section Slices

/-- The two constructors call each other, so they are treated together. -/
theorem concat_extract_build (fuel : Nat) :
    (∀ {m n : Nat} {l r : Expr} {a : BitVec m} {b : BitVec n}, Denotes guards ρ l a →
      Denotes guards ρ r b → Builds guards ρ (a ++ b) (ConcatExpr.create fuel l r)) ∧
    (∀ {n : Nat} {e : Expr} {a : BitVec n} {off w : Nat}, Denotes guards ρ e a →
      0 < w → off + w ≤ n → Builds guards ρ (a.extractLsb' off w) (ExtractExpr.create fuel e off w)) := by
  induction fuel with
  | zero => exact ⟨fun _ _ => .outOfFuel, fun _ _ _ => .outOfFuel⟩
  | succ fuel ih =>
    obtain ⟨concatBuilds, extractBuilds⟩ := ih
    constructor
    · intro m n l r a b denotesLeft denotesRight
      rw [ConcatExpr.create.eq_def]
      split
      · contradiction
      rename_i previous same
      cases same
      split
      · cases denotesLeft.of_constant
        cases denotesRight.of_constant
        rw [ConstantExpr.concat_eq]
        exact .constant ⟨m + n, a ++ b⟩
      · obtain ⟨k, x, rfl, denotesInner, -, leftWithin, rfl⟩ := denotesLeft.of_extract
        obtain ⟨k', y, rfl, denotesInner', positive, -, rfl⟩ := denotesRight.of_extract
        split
        case isTrue contiguous =>
          obtain ⟨rfl, rfl⟩ := contiguous
          cases denotesInner.width.symm.trans denotesInner'.width
          cases denotesInner.unique denotesInner'
          rw [BitVec.extractLsb'_append_extractLsb'_eq_extractLsb' rfl]
          exact extractBuilds denotesInner (by omega) (by omega)
        case isFalse => exact denotesLeft.concat denotesRight
      · exact denotesLeft.concat denotesRight
    · intro n e a off w denotes positive within
      apply Builds.require (by rw [denotes.width]; exact ⟨positive, within⟩)
      rw [denotes.width]
      by_cases whole : w = n
      · subst whole
        obtain rfl : off = 0 := by omega
        simpa using .pure denotes
      rw [if_neg whole]
      split
      · cases denotes.of_constant
        rw [ConstantExpr.extract_eq a within]
        exact .constant ⟨w, a.extractLsb' off w⟩
      · obtain ⟨m, k, x, y, rfl, denotesLeft, denotesRight, rfl⟩ := denotes.of_concat
        rw [denotesRight.width, BitVec.setWidth_eq]
        by_cases left : k ≤ off
        · rw [if_pos left, BitVec.extractLsb'_append_eq_of_le left]
          exact extractBuilds denotesLeft positive (by omega)
        by_cases right : off + w ≤ k
        · rw [if_neg left, if_pos right, BitVec.extractLsb'_append_eq_of_add_le right]
          exact extractBuilds denotesRight positive right
        rw [if_neg left, if_neg right]
        apply Builds.bind (extractBuilds denotesLeft (w := w + off - k) (by omega) (by omega))
        intro extractedLeft denotesExtractedLeft
        apply Builds.bind (extractBuilds denotesRight (w := k - off) (by omega) (by omega))
        intro extractedRight denotesExtractedRight
        rw [← cast_extractLsb'_append_extractLsb' x y off (by omega) (by omega)]
        exact (concatBuilds denotesExtractedLeft denotesExtractedRight).cast _
      · exact denotes.extract positive within

theorem ConcatExpr.create_builds {a : BitVec m} {b : BitVec n}
    (denotesLeft : Denotes guards ρ l a) (denotesRight : Denotes guards ρ r b) : Builds guards ρ (a ++ b) (ConcatExpr.create fuel l r) :=
  (concat_extract_build fuel).1 denotesLeft denotesRight

section

variable {a : BitVec n} (denotes : Denotes guards ρ e a) (positive : 0 < w)
include denotes positive

theorem ExtractExpr.create_builds {off : Nat} (within : off + w ≤ n) :
    Builds guards ρ (a.extractLsb' off w) (ExtractExpr.create fuel e off w) :=
  (concat_extract_build fuel).2 denotes positive within

theorem ZExtExpr.create_builds : Builds guards ρ (a.setWidth w) (ZExtExpr.create fuel e w) := by
  rw [ZExtExpr.create, denotes.width]
  by_cases same : w = n
  · subst same
    simpa using .pure denotes
  by_cases narrower : w < n
  · rw [if_neg same, if_pos narrower, BitVec.setWidth_eq_extractLsb' (Nat.le_of_lt narrower)]
    exact ExtractExpr.create_builds denotes positive (by omega)
  rw [if_neg same, if_neg narrower]
  cases isConstant : e.constant? with
  | some c =>
    cases denotes.constant? isConstant
    exact .constant ⟨w, a.setWidth w⟩
  | none => exact denotes.zext (by omega)

theorem SExtExpr.create_builds : Builds guards ρ (a.signExtend w) (SExtExpr.create fuel e w) := by
  rw [SExtExpr.create, denotes.width]
  by_cases same : w = n
  · subst same
    simpa using .pure denotes
  by_cases narrower : w < n
  · rw [if_neg same, if_pos narrower, BitVec.signExtend_eq_setWidth_of_le a (Nat.le_of_lt narrower),
      BitVec.setWidth_eq_extractLsb' (Nat.le_of_lt narrower)]
    exact ExtractExpr.create_builds denotes positive (by omega)
  rw [if_neg same, if_neg narrower]
  cases isConstant : e.constant? with
  | some c =>
    cases denotes.constant? isConstant
    exact .constant ⟨w, a.signExtend w⟩
  | none => exact denotes.sext (by omega)

end

end Slices

section Equality

/-- Where constant arrays may be read suits the rewriting of such reads: with
`constArrayOpt` an index outside the array would make an equality false. -/
def Options.Allows (o : Options) (guards : Guards) (ρ : Assignment) : Prop :=
  o.constArrayOpt = true → ∀ root index, guards.readable root index →
    (index.eval ρ root.domain).toNat < root.size ∧ root.size ≤ 2 ^ root.domain

theorem eqExprCreate_builds {a b : BitVec w} (denotesLeft : Denotes guards ρ l a) (denotesRight : Denotes guards ρ r b) :
    Builds guards ρ (BitVec.ofBool (a == b)) (eqExprCreate l r) := by
  rw [eqExprCreate]
  split
  case isTrue same =>
    subst same
    cases denotesLeft.unique denotesRight
    simpa using .pure (.alloc 1)
  case isFalse => exact denotesLeft.cmp .eq denotesRight

theorem tryConstArrayOptLoop_builds {isMatch : Nat → Bool} {mayBe : Nat → Except Fault Expr}
    {unchanged : Except Fault Expr} {target : BitVec 1} (index : BitVec n)
    (equality : ∀ i, Builds guards ρ (BitVec.ofBool (index == BitVec.ofNat n i)) (mayBe i))
    (same : Builds guards ρ target unchanged) (positions : List Nat) :
    ∀ {numMatches : Nat} {res : Expr} {v : BitVec 1}, Denotes guards ρ res v →
      target = v ||| BitVec.ofBool (positions.any fun i => isMatch i && index == BitVec.ofNat n i) →
      Builds guards ρ target (tryConstArrayOptLoop isMatch mayBe unchanged positions numMatches res) := by
  induction positions with
  | nil =>
    intro numMatches res v denotes covered
    subst covered
    simpa [tryConstArrayOptLoop] using .pure denotes
  | cons i rest ih =>
    intro numMatches res v denotes covered
    rw [tryConstArrayOptLoop]
    by_cases found : isMatch i
    · rw [if_pos found]
      split
      case isTrue => exact same
      case isFalse =>
        apply Builds.bind (equality i)
        intro equal denotesEqual
        apply Builds.bind (OrExpr.create_builds denotes denotesEqual)
        intro disjunction denotesDisjunction
        apply ih denotesDisjunction
        simp [covered, found, BitVec.or_assoc]
    · rw [if_neg found]
      apply ih denotes
      simpa [found] using covered

theorem eq_initial_iff {root : Array} {a : BitVec root.range} {i : BitVec root.domain}
    (constant : root.isConstantArray) (within : i.toNat < root.size) (addressable : root.size ≤ 2 ^ root.domain) :
    (a == root.initial ρ i.toNat) = (List.range root.size).any fun position =>
      decide (root.constantValues[position]?.map (ConstantExpr.mk root.range) =
        some ⟨root.range, a⟩) && i == BitVec.ofNat root.domain position := by
  have length : root.constantValues.length = root.size := by
    cases root.validSize with
    | inl empty => simp [Array.isConstantArray, Array.isSymbolicArray, empty] at constant
    | inr length => exact length
  have stored : root.constantValues[i.toNat]? = some (root.initial ρ i.toNat) := by
    rw [Array.initial, List.getElem?_eq_getElem (length.symm ▸ within), Option.getD_some]
  rw [Bool.eq_iff_iff, List.any_eq_true]
  constructor
  · intro same
    refine ⟨i.toNat, List.mem_range.mpr within, ?_⟩
    rw [beq_iff_eq] at same
    subst same
    rw [stored]
    simp
  · rintro ⟨position, inside, both⟩
    simp only [Bool.and_eq_true, decide_eq_true_eq, beq_iff_eq] at both
    have bound : position < 2 ^ root.domain := Nat.lt_of_lt_of_le (List.mem_range.mp inside) addressable
    have same : i.toNat = position := by simp [both.2, Nat.mod_eq_of_lt bound]
    rw [← same, stored] at both
    have value : root.initial ρ i.toNat = a := by simpa using both.1
    rw [value, beq_self_eq_true]

theorem UpdateNode.eq_null_of_size {head : UpdateNode} (empty : head.size = 0) : head = .null := by
  cases head with
  | null => rfl
  | node position value next => simp [UpdateNode.size] at empty

/-- What is known of the equality constructor, and of the helpers it is
mutually recursive with, at some fuel. -/
structure EqBuilds (o : Options) (guards : Guards) (ρ : Assignment)
    (fuel : Nat) : Prop where
  create : ∀ {n : Nat} {l r : Expr} {a b : BitVec n}, Denotes guards ρ l a → Denotes guards ρ r b →
    Builds guards ρ (BitVec.ofBool (a == b)) (EqExpr.create o fuel l r)
  partialR : ∀ {n : Nat} {r : Expr} (a : BitVec n) {b : BitVec n}, Denotes guards ρ r b →
    Builds guards ρ (BitVec.ofBool (a == b)) (eqExprCreatePartialR o fuel ⟨n, a⟩ r)
  constArray : ∀ {n : Nat} {root : Array} {head : UpdateNode} {index : Expr} (a : BitVec n)
    {b : BitVec n}, o.constArrayOpt = true → Denotes guards ρ (.read root head index) b →
    Builds guards ρ (BitVec.ofBool (a == b)) (tryConstArrayOpt o fuel ⟨n, a⟩ root head index)

namespace EqBuilds

section

variable (ih : EqBuilds o guards ρ fuel)
include ih

theorem create_succ {a b : BitVec n} (denotesLeft : Denotes guards ρ l a) (denotesRight : Denotes guards ρ r b) :
    Builds guards ρ (BitVec.ofBool (a == b)) (EqExpr.create o (fuel + 1) l r) := by
  apply cmpcreateT_builds .eq denotesLeft denotesRight
  · rw [CmpKind.apply, Bool.beq_comm]
    exact ih.partialR b denotesLeft
  · exact ih.partialR a denotesRight
  · exact eqExprCreate_builds denotesLeft denotesRight

theorem partialR_boolean (a : BitVec 1) {b : BitVec 1} (denotes : Denotes guards ρ r b) :
    Builds guards ρ (BitVec.ofBool (a == b)) (eqExprCreatePartialR o (fuel + 1) ⟨1, a⟩ r) := by
  have general := eqExprCreate_builds (.constant ⟨1, a⟩) denotes
  rw [eqExprCreatePartialR.eq_def]
  dsimp only
  rw [if_pos rfl]
  split
  case isTrue holds =>
    rw [ConstantExpr.isTrue_iff] at holds
    subst holds
    rw [ofBool_one_eq]
    exact denotes
  case isFalse fails =>
    rw [ConstantExpr.isTrue_iff, ne_one_iff_eq_zero] at fails
    subst fails
    split
    · rename_i value right
      split
      case isTrue isFalse =>
        obtain ⟨k, x, y, denotesValue, denotesRight, rfl⟩ := denotes.of_cmp
        cases denotesValue.of_constant
        simp only [ConstantExpr.isFalse, Bool.decide_and, Bool.and_eq_true, decide_eq_true_eq] at isFalse
        obtain ⟨rfl, rfl⟩ := isFalse
        rw [CmpKind.apply, ofBool_zero_eq_ofBool_zero_eq]
        exact denotesRight
      case isFalse => exact general
    · rename_i left right
      obtain ⟨x, y, denotesLeft, denotesRight, -, rfl⟩ := denotes.of_binary
      rw [denotesLeft.width, denotesRight.width, BinaryKind.apply, ofBool_zero_eq_or]
      apply Builds.bind (ih.create denotesLeft (.alloc 0))
      intro notLeft denotesNotLeft
      apply Builds.bind (ih.create denotesRight (.alloc 0))
      intro notRight denotesNotRight
      exact AndExpr.create_builds denotesNotLeft denotesNotRight
    · exact general

theorem partialR_wide (a : BitVec n) {b : BitVec n} (wide : n ≠ 1) (denotes : Denotes guards ρ r b) :
    Builds guards ρ (BitVec.ofBool (a == b)) (eqExprCreatePartialR o (fuel + 1) ⟨n, a⟩ r) := by
  have general := eqExprCreate_builds (.constant ⟨n, a⟩) denotes
  rw [eqExprCreatePartialR.eq_def]
  dsimp only
  rw [if_neg wide]
  split
  · rename_i src width
    obtain ⟨k, x, rfl, denotesSrc, narrower, rfl⟩ := denotes.of_sext
    rw [denotesSrc.width]
    split
    case isTrue fits =>
      have fits : a = (a.setWidth k).signExtend width := by
        simpa [ConstantExpr.zext, ConstantExpr.sext] using fits
      have same : (x == a.setWidth k) = (a == x.signExtend width) := by
        rw [Bool.eq_iff_iff, beq_iff_eq, beq_iff_eq, eq_signExtend_iff narrower]
        exact ⟨fun value => ⟨value, fits⟩, fun both => both.1⟩
      rw [← same]
      exact ih.create denotesSrc (.constant _)
    case isFalse fails =>
      have fails : ¬ a = (a.setWidth k).signExtend width := by
        simpa [ConstantExpr.zext, ConstantExpr.sext] using fails
      have different : (a == x.signExtend width) = false := by
        rw [beq_eq_false_iff_ne, ne_eq, eq_signExtend_iff narrower]
        exact fun both => fails both.2
      rw [different]
      exact .alloc 0
  · rename_i src width
    obtain ⟨k, x, rfl, denotesSrc, narrower, rfl⟩ := denotes.of_zext
    rw [denotesSrc.width]
    split
    case isTrue fits =>
      have fits : a = (a.setWidth k).setWidth width := by
        simpa only [ConstantExpr.zext, ConstantExpr.mk.injEq, heq_eq_eq, true_and] using fits
      have same : (x == a.setWidth k) = (a == x.setWidth width) := by
        rw [Bool.eq_iff_iff, beq_iff_eq, beq_iff_eq, eq_setWidth_iff narrower]
        exact ⟨fun value => ⟨value, fits⟩, fun both => both.1⟩
      rw [← same]
      exact ih.create denotesSrc (.constant _)
    case isFalse fails =>
      have fails : ¬ a = (a.setWidth k).setWidth width := by
        simpa only [ConstantExpr.zext, ConstantExpr.mk.injEq, heq_eq_eq, true_and] using fails
      have different : (a == x.setWidth width) = false := by
        rw [beq_eq_false_iff_ne, ne_eq, eq_setWidth_iff narrower]
        exact fun both => fails both.2
      rw [different]
      exact .alloc 0
  · rename_i value right
    obtain ⟨x, y, denotesValue, denotesRight, -, rfl⟩ := denotes.of_binary
    cases denotesValue.of_constant
    apply Builds.require rfl
    apply Satisfies.bind (ConstantExpr.sub_builds a x)
    intro difference folded
    cases folded
    have same : (a - x == y) = (a == x + y) := by
      rw [Bool.eq_iff_iff, beq_iff_eq, beq_iff_eq]
      exact eq_add_iff.symm
    exact (ih.partialR (a - x) denotesRight).of_eq (congrArg BitVec.ofBool same)
  · rename_i value right
    obtain ⟨x, y, denotesValue, denotesRight, -, rfl⟩ := denotes.of_binary
    cases denotesValue.of_constant
    apply Builds.require rfl
    apply Satisfies.bind (ConstantExpr.sub_builds x a)
    intro difference folded
    cases folded
    have same : (x - a == y) = (a == x - y) := by
      rw [Bool.eq_iff_iff, beq_iff_eq, beq_iff_eq]
      exact eq_sub_iff.symm
    exact (ih.partialR (x - a) denotesRight).of_eq (congrArg BitVec.ofBool same)
  · split
    case isTrue enabled => exact ih.constArray a enabled denotes
    case isFalse => exact general
  · exact general

end

theorem constArray_succ (allowed : o.Allows guards ρ) (ih : EqBuilds o guards ρ fuel)
    {root : Array} {head : UpdateNode} {index : Expr} (a : BitVec n) {b : BitVec n}
    (enabled : o.constArrayOpt = true) (denotes : Denotes guards ρ (.read root head index) b) :
    Builds guards ρ (BitVec.ofBool (a == b)) (tryConstArrayOpt o (fuel + 1) ⟨n, a⟩ root head index) := by
  have general := eqExprCreate_builds (.constant ⟨n, a⟩) denotes
  rw [tryConstArrayOpt]
  split
  case isTrue => exact general
  case isFalse constant =>
    simp only [not_or, ne_eq, Decidable.not_not] at constant
    cases UpdateNode.eq_null_of_size constant.2
    have sameWidth : root.range = n := denotes.width
    subst sameWidth
    obtain ⟨wellFormed, -, value⟩ := denotes
    have isConstant : root.isConstantArray := by simpa [Array.isConstantArray] using constant.1
    obtain ⟨-, indexWellFormed, indexWidth, -, readableIndex⟩ := wellFormed
    obtain ⟨within, addressable⟩ := allowed enabled root index (readableIndex isConstant)
    have denotesIndex : Denotes guards ρ index (index.eval ρ root.domain) := ⟨indexWellFormed, indexWidth, rfl⟩
    apply tryConstArrayOptLoop_builds (index.eval ρ root.domain)
    · intro i
      rw [indexWidth]
      exact ih.create denotesIndex (.alloc i)
    · exact general
    · exact .alloc 0
    · rw [BitVec.zero_or, ← eq_initial_iff (ρ := ρ) isConstant within addressable, ← value]
      simp

theorem of_allows (allowed : o.Allows guards ρ) (fuel : Nat) : EqBuilds o guards ρ fuel := by
  induction fuel with
  | zero => exact ⟨fun _ _ => .outOfFuel, fun _ _ _ => .outOfFuel, fun _ _ _ _ => .outOfFuel⟩
  | succ fuel ih =>
    constructor
    · intro n l r a b denotesLeft denotesRight
      exact ih.create_succ denotesLeft denotesRight
    · intro n r a b denotes
      by_cases boolean : n = 1
      · subst boolean
        exact ih.partialR_boolean a denotes
      · exact ih.partialR_wide a boolean denotes
    · intro n root head index a b enabled denotes
      exact ih.constArray_succ allowed a enabled denotes

end EqBuilds

theorem EqExpr.create_builds (allowed : o.Allows guards ρ) {a b : BitVec w}
    (denotesLeft : Denotes guards ρ l a) (denotesRight : Denotes guards ρ r b) :
    Builds guards ρ (BitVec.ofBool (a == b)) (EqExpr.create o fuel l r) :=
  (EqBuilds.of_allows allowed fuel).create denotesLeft denotesRight

theorem createIsZero_builds (allowed : o.Allows guards ρ) {bit : BitVec 1}
    (denotes : Denotes guards ρ e bit) : Builds guards ρ (~~~ bit) (createIsZero o fuel e) := by
  rw [createIsZero, denotes.width, ← ofBool_eq_zero]
  exact EqExpr.create_builds allowed denotes (.alloc 0)

end Equality

end NeuroMerge.Symbolic
