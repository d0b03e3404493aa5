import NeuroMerge.Solver.RangeEvaluator
import NeuroMerge.Solver.ValueRangeProperties

/-!
# Ranges contain the values

The range that the evaluator computes contains the value of the expression where
no concatenation it folds has anything but a byte on its right and no signed
comparison is of whole words.
-/

namespace NeuroMerge.FastCex

open BitVec Symbolic ConstantDivision ValueRange

mutual

/-- The range of the second expression is computed for that of the first one. -/
inductive Inspects (initial : InitialReadRange) : Expr → Expr → Prop where
  | self (e : Expr) : Inspects initial e e
  | index {root : Array} {head : UpdateNode} {index part : Expr} :
    Inspects initial index part → Inspects initial (.read root head index) part
  | updates {root : Array} {head : UpdateNode} {index part : Expr} {range : ValueRange} :
    evaluate initial index = .ok range → UpdatesInspect initial range head .empty part →
    Inspects initial (.read root head index) part
  | cond {cond trueExpr falseExpr part : Expr} :
    Inspects initial cond part → Inspects initial (.select cond trueExpr falseExpr) part
  | trueExpr {cond trueExpr falseExpr part : Expr} {range : ValueRange} :
    evaluate initial cond = .ok range → range.mustBe 0#64 = false →
    Inspects initial trueExpr part → Inspects initial (.select cond trueExpr falseExpr) part
  | falseExpr {cond trueExpr falseExpr part : Expr} {range : ValueRange} :
    evaluate initial cond = .ok range → range.mustBe 1#64 = false →
    Inspects initial falseExpr part → Inspects initial (.select cond trueExpr falseExpr) part
  | concatLeft {left right part : Expr} :
    Inspects initial left part → Inspects initial (.concat left right) part
  | concatRight {left right part : Expr} :
    Inspects initial right part → Inspects initial (.concat left right) part
  | binaryLeft {kind : BinaryKind} {left right part : Expr} : isShift kind = false →
    Inspects initial left part → Inspects initial (.binary kind left right) part
  | binaryRight {kind : BinaryKind} {left right part : Expr} : isShift kind = false →
    Inspects initial right part → Inspects initial (.binary kind left right) part
  | cmpLeft {kind : CmpKind} {left right part : Expr} :
    Inspects initial left part → Inspects initial (.cmp kind left right) part
  | cmpRight {kind : CmpKind} {left right part : Expr} :
    Inspects initial right part → Inspects initial (.cmp kind left right) part

/-- Updates are gone through up to one that is certain to be the one read, or to where the range
is full. -/
inductive UpdatesInspect (initial : InitialReadRange) :
    ValueRange → UpdateNode → ValueRange → Expr → Prop where
  | position {position value part : Expr} {next : UpdateNode} {index res : ValueRange} :
    Inspects initial position part → UpdatesInspect initial index (.node position value next) res part
  | value {position value part : Expr} {next : UpdateNode} {ui index res : ValueRange} :
    evaluate initial position = .ok ui → ui.mustEqual index = true ∨ ui.mayEqual index = true →
    Inspects initial value part → UpdatesInspect initial index (.node position value next) res part
  | behind {position value part : Expr} {next : UpdateNode} {ui written index res : ValueRange} :
    evaluate initial position = .ok ui → ui.mustEqual index = false → ui.mayEqual index = true →
    evaluate initial value = .ok written → (res.setUnion written).isFullRange 8 = .ok false →
    UpdatesInspect initial index next (res.setUnion written) part →
    UpdatesInspect initial index (.node position value next) res part
  | missed {position value part : Expr} {next : UpdateNode} {ui index res : ValueRange} :
    evaluate initial position = .ok ui → ui.mustEqual index = false → ui.mayEqual index = false →
    UpdatesInspect initial index next res part →
    UpdatesInspect initial index (.node position value next) res part

end

/-- What holds of all that the evaluator looks at. -/
def Visited (initial : InitialReadRange) (p : Expr → Prop) (e : Expr) : Prop :=
  ∀ part, Inspects initial e part → p part

def UpdatesVisited (initial : InitialReadRange) (p : Expr → Prop) (index : ValueRange) (head : UpdateNode)
    (res : ValueRange) : Prop :=
  ∀ part, UpdatesInspect initial index head res part → p part

theorem Visited.here {initial : InitialReadRange} {p : Expr → Prop} {e : Expr} (visited : Visited initial p e) : p e :=
  visited e (.self e)

def isSigned : CmpKind → Bool
  | .slt | .sle => true
  | _ => false

def isCanonical : CmpKind → Bool
  | .eq | .ult | .ule | .slt | .sle => true
  | .ne | .ugt | .uge | .sgt | .sge => false

structure Narrow (e : Expr) : Prop where
  positive : 0 < e.width
  bound : e.width ≤ 64
  bytes : ∀ root head index, e = .read root head index → root.range = 8
  canonical : ∀ kind left right, e = .cmp kind left right → isCanonical kind

def InBounds (ρ : Assignment) (e : Expr) : Prop :=
  ∀ root head index, e = .read root head index → (index.eval ρ root.domain).toNat < root.size

/-- The right part of a concatenation is one byte, or it is longer and there is nothing to its
left; signed comparisons are of fewer than 64 bits. -/
structure Exactly (ρ : Assignment) (e : Expr) : Prop where
  concat : ∀ left right, e = .concat left right →
    right.width = 8 ∨ 8 < right.width ∧ (left.eval ρ left.width).toNat = 0
  signed : ∀ kind left right, e = .cmp kind left right → isSigned kind → left.width < 64

/-- The initial ranges are ranges of bytes that contain what the assignment has in them. -/
def Consistent (initial : InitialReadRange) (ρ : Assignment) : Prop :=
  ∀ (root : Array) (index : ValueRange) (i : BitVec root.domain), root.range = 8 →
    root.domain ≤ 64 → i.toNat < root.size → i.setWidth 64 ∈ index →
    Returns (fun out => (root.initial ρ i.toNat).setWidth 64 ∈ out ∧ out.Within root.range)
      (initial root index)

/-! ## Operators -/

section Operators

variable {left right : ValueRange} {w : Nat}

theorem comparisonRange_returns {certain impossible holds : Bool}
    (certainly : certain = true → holds = true) (never : impossible = true → holds = false) :
    Returns (fun out => (BitVec.ofBool holds).setWidth 64 ∈ out ∧ out.Within 1) (comparisonRange certain impossible) := by
  unfold comparisonRange
  split
  · rename_i sure
    rw [certainly sure]
    exact ⟨mem_single.mpr rfl, .single (by decide)⟩
  · split
    · rename_i sure
      rw [never sure]
      exact ⟨mem_single.mpr rfl, .single (by decide)⟩
    · apply (fullRange_returns (by decide)).mono
      intro out both
      refine ⟨both.1 _ ?_, both.2⟩
      cases holds <;> decide

theorem setWidth_toNat (x : BitVec w) (bound : w ≤ 64) : (x.setWidth 64).toNat = x.toNat := by
  rw [toNat_setWidth, Nat.mod_eq_of_lt]
  exact Nat.lt_of_lt_of_le x.isLt (Nat.pow_le_pow_right (by decide) bound)

theorem setWidth_setWidth_word (x : BitVec w) (bound : w ≤ 64) : (x.setWidth 64).setWidth w = x := by
  rw [setWidth_setWidth_of_le x bound, setWidth_eq]

theorem signedBounds (x : BitVec w) (positive : 0 < w) (bound : w < 64) (member : x.setWidth 64 ∈ left) (bits : left.Within w) :
    ∃ least greatest, left.minSigned w = .ok least ∧ left.maxSigned w = .ok greatest ∧
      least.toInt ≤ x.toInt ∧ x.toInt ≤ greatest.toInt := by
  obtain ⟨least, leastEq, below⟩ := (minSigned_returns positive bound bits member).exists_ok
  obtain ⟨greatest, greatestEq, above⟩ := (maxSigned_returns positive bound bits member).exists_ok
  rw [setWidth_setWidth_word x (Nat.le_of_lt bound)] at below above
  exact ⟨least, greatest, leastEq, greatestEq, below, above⟩

theorem compareRanges_returns {kind : CmpKind} (x y : BitVec w) (canonical : isCanonical kind)
    (positive : 0 < w) (bound : w ≤ 64) (signed : isSigned kind → w < 64)
    (inLeft : x.setWidth 64 ∈ left) (inRight : y.setWidth 64 ∈ right) (leftBits : left.Within w) (rightBits : right.Within w) :
    Returns (fun out => (BitVec.ofBool (kind.apply x y)).setWidth 64 ∈ out ∧ out.Within 1) (compareRanges kind left right w) := by
  have leftEnds := inLeft
  have rightEnds := inRight
  rw [mem_iff, le_def, le_def, setWidth_toNat x bound] at leftEnds
  rw [mem_iff, le_def, le_def, setWidth_toNat y bound] at rightEnds
  unfold compareRanges
  cases kind with
  | ne | ugt | uge | sgt | sge => cases canonical
  | eq =>
    apply comparisonRange_returns
    · intro sure
      have words := eq_of_mustEqual sure inLeft inRight
      rw [CmpKind.apply, beq_iff_eq, ← setWidth_setWidth_word x bound, words, setWidth_setWidth_word y bound]
    · intro never
      rw [CmpKind.apply, beq_eq_false_iff_ne]
      intro equal
      rw [← equal] at inRight
      rw [mayEqual_of_mem inLeft inRight] at never
      cases never
  | ult =>
    rw [max_eq inLeft, min_eq inRight, max_eq inRight, min_eq inLeft]
    apply comparisonRange_returns
    · intro sure
      rw [decide_eq_true_eq, lt_def] at sure
      rw [CmpKind.apply, BitVec.ult, decide_eq_true_eq]
      omega
    · intro never
      rw [decide_eq_true_eq, le_def] at never
      rw [CmpKind.apply, BitVec.ult, decide_eq_false_iff_not]
      omega
  | ule =>
    rw [max_eq inLeft, min_eq inRight, max_eq inRight, min_eq inLeft]
    apply comparisonRange_returns
    · intro sure
      rw [decide_eq_true_eq, le_def] at sure
      rw [CmpKind.apply, BitVec.ule, decide_eq_true_eq]
      omega
    · intro never
      rw [decide_eq_true_eq, lt_def] at never
      rw [CmpKind.apply, BitVec.ule, decide_eq_false_iff_not]
      omega
  | slt =>
    obtain ⟨leftLeast, leftMost, leftMin, leftMax, leftBelow, leftAbove⟩ := signedBounds x positive (signed rfl) inLeft leftBits
    obtain ⟨rightLeast, rightMost, rightMin, rightMax, rightBelow, rightAbove⟩ := signedBounds y positive (signed rfl) inRight rightBits
    rw [leftMax, rightMin, rightMax, leftMin]
    apply comparisonRange_returns
    · intro sure
      rw [BitVec.slt, decide_eq_true_eq] at sure
      rw [CmpKind.apply, BitVec.slt, decide_eq_true_eq]
      omega
    · intro never
      rw [BitVec.sle, decide_eq_true_eq] at never
      rw [CmpKind.apply, BitVec.slt, decide_eq_false_iff_not]
      omega
  | sle =>
    obtain ⟨leftLeast, leftMost, leftMin, leftMax, leftBelow, leftAbove⟩ := signedBounds x positive (signed rfl) inLeft leftBits
    obtain ⟨rightLeast, rightMost, rightMin, rightMax, rightBelow, rightAbove⟩ := signedBounds y positive (signed rfl) inRight rightBits
    rw [leftMax, rightMin, rightMax, leftMin]
    apply comparisonRange_returns
    · intro sure
      rw [BitVec.sle, decide_eq_true_eq] at sure
      rw [CmpKind.apply, BitVec.sle, decide_eq_true_eq]
      omega
    · intro never
      rw [BitVec.slt, decide_eq_true_eq] at never
      rw [CmpKind.apply, BitVec.sle, decide_eq_false_iff_not]
      omega

theorem combineRanges_returns (kind : BinaryKind) (x y : BitVec w) (bound : w ≤ 64)
    (inLeft : x.setWidth 64 ∈ left) (inRight : y.setWidth 64 ∈ right) (leftBits : left.Within w) (rightBits : right.Within w) :
    Returns (fun out => (kind.apply x y).setWidth 64 ∈ out ∧ out.Within w) (combineRanges kind left right w) := by
  have full : Returns (fun out => (kind.apply x y).setWidth 64 ∈ out ∧ out.Within w) (fullRange w) := by
    apply (fullRange_returns bound).mono
    intro out both
    refine ⟨both.1 _ ?_, both.2⟩
    rw [setWidth_toNat _ bound]
    exact BitVec.isLt _
  cases kind with
  | add | sub | mul | udiv | sdiv | urem | srem | shl | lshr | ashr => exact full
  | and =>
    rw [BinaryKind.apply, setWidth_and]
    exact binaryAnd_returns inLeft inRight leftBits rightBits
  | or =>
    rw [BinaryKind.apply, setWidth_or]
    exact binaryOr_returns inLeft inRight leftBits rightBits
  | xor =>
    rw [BinaryKind.apply, setWidth_xor]
    exact binaryXor_returns inLeft inRight leftBits rightBits

end Operators

/-! ## Expressions -/

section Expressions

variable {guards : Guards} {initial : InitialReadRange} {ρ : Assignment}

def Covers (ρ : Assignment) (e : Expr) (out : ValueRange) : Prop :=
  (e.eval ρ e.width).setWidth 64 ∈ out ∧ out.Within e.width

theorem Covers.of_width {e : Expr} {out : ValueRange} {w : Nat} (covers : Covers ρ e out)
    (width : e.width = w) : (e.eval ρ w).setWidth 64 ∈ out ∧ out.Within w := by
  rw [← width]
  exact covers

theorem fullRange_covers {e : Expr} (bound : e.width ≤ 64) : Returns (Covers ρ e) (fullRange e.width) := by
  apply (fullRange_returns bound).mono
  intro out both
  refine ⟨both.1 _ ?_, both.2⟩
  rw [setWidth_toNat _ bound]
  exact BitVec.isLt _

theorem setWidth_append {m n : Nat} (a : BitVec m) (b : BitVec n) : (a ++ b).setWidth 64 = a.setWidth 64 <<< n ||| b.setWidth 64 := by
  apply eq_of_getLsbD_eq
  intro i inside
  simp only [getLsbD_setWidth, getLsbD_append, getLsbD_or, getLsbD_shiftLeft, inside, decide_true, Bool.true_and]
  by_cases low : i < n
  · simp [low]
  · simp [low, show i - n < 64 by omega, getLsbD_of_ge b i (Nat.le_of_not_lt low)]

theorem eq_of_words {w : Nat} {a b : BitVec w} (bound : w ≤ 64) (words : a.setWidth 64 = b.setWidth 64) : a = b := by
  rw [← setWidth_setWidth_word a bound, words, setWidth_setWidth_word b bound]

theorem mustBe_other {r : ValueRange} {u v : BitVec 64} (certain : r.mustBe u) (different : u ≠ v) : r.mustBe v = false := by
  unfold mustBe at certain ⊢
  rw [decide_eq_true_eq] at certain
  exact decide_eq_false fun both => different (certain.2.symm.trans both.2)

theorem eq_one_of_word {bit : BitVec 1} (word : bit.setWidth 64 = 1#64) : bit = 1#1 :=
  eq_of_words (by decide) word

theorem ne_one_of_word {bit : BitVec 1} (word : bit.setWidth 64 = 0#64) : ¬ bit = 1#1 := by
  intro one
  rw [one] at word
  exact absurd word (by decide)

mutual

theorem evaluate_covers (consistent : Consistent initial ρ) : ∀ {e : Expr}, e.WellFormed guards →
    Visited initial (fun e => (Narrow e ∧ InBounds ρ e) ∧ Exactly ρ e) e →
    Returns (Covers ρ e) (evaluate initial e)
  | .constant value, _, visited => by
    obtain ⟨⟨narrow, -⟩, -⟩ := visited.here
    have small : value.value.toNat < 2 ^ 64 := Nat.lt_of_lt_of_le value.value.isLt (Nat.pow_le_pow_right (by decide) narrow.bound)
    unfold evaluate ofConstant
    rw [if_pos small]
    constructor
    · rw [Expr.eval, Expr.width, setWidth_eq]
      exact mem_single.mpr rfl
    · apply ValueRange.Within.single
      rw [setWidth_toNat value.value narrow.bound]
      exact value.value.isLt
  | .notOptimized src, _, visited => fullRange_covers visited.here.1.1.bound
  | .extract expr offset width, _, visited => fullRange_covers visited.here.1.1.bound
  | .not expr, _, visited => fullRange_covers visited.here.1.1.bound
  | .zext src width, _, visited => fullRange_covers visited.here.1.1.bound
  | .sext src width, _, visited => fullRange_covers visited.here.1.1.bound
  | .read root head index, wellFormed, visited => by
    obtain ⟨updates, typed, width, narrow, -⟩ := wellFormed
    obtain ⟨⟨here, inBounds⟩, -⟩ := visited.here
    obtain ⟨range, computed, covers⟩ :=
      (evaluate_covers consistent typed fun part inspects => visited part (.index inspects)).exists_ok
    have member := (covers.of_width width).1
    have visitedHead : UpdatesVisited initial _ range head .empty :=
      fun part inspects => visited part (.updates computed inspects)
    unfold evaluate
    rw [computed]
    apply (evalRead_covers consistent updates visitedHead member (inBounds _ _ _ rfl) (here.bytes _ _ _ rfl) narrow .empty).mono
    intro out both
    unfold Covers
    rw [Expr.eval, Expr.width, setWidth_eq]
    exact both.2
  | .select cond trueExpr falseExpr, wellFormed, visited => by
    obtain ⟨typedCond, typedTrue, typedFalse, boolean, width⟩ := wellFormed
    obtain ⟨range, computed, covers⟩ :=
      (evaluate_covers consistent typedCond fun part inspects => visited part (.cond inspects)).exists_ok
    have member := (covers.of_width boolean).1
    have whenTrue (possible : range.mustBe 0#64 = false) : Returns (Covers ρ trueExpr) (evaluate initial trueExpr) :=
      evaluate_covers consistent typedTrue fun part inspects => visited part (.trueExpr computed possible inspects)
    have whenFalse (possible : range.mustBe 1#64 = false) : Returns (Covers ρ falseExpr) (evaluate initial falseExpr) :=
      evaluate_covers consistent typedFalse fun part inspects => visited part (.falseExpr computed possible inspects)
    unfold evaluate
    rw [computed]
    have chosen : (Expr.select cond trueExpr falseExpr).eval ρ trueExpr.width =
        if cond.eval ρ 1 = 1#1 then trueExpr.eval ρ trueExpr.width
        else falseExpr.eval ρ trueExpr.width := rfl
    dsimp only [bind, Except.bind]
    split
    · rename_i certain
      unfold Covers
      rw [Expr.width, chosen, if_pos (eq_one_of_word (eq_of_mustBe certain member))]
      exact whenTrue (mustBe_other certain (by decide))
    rename_i uncertain
    split
    · rename_i impossible
      unfold Covers
      rw [Expr.width, chosen, if_neg (ne_one_of_word (eq_of_mustBe impossible member))]
      exact (whenFalse (Bool.not_eq_true _ ▸ uncertain)).mono fun out covers => covers.of_width width
    · rename_i possible
      apply (whenTrue (Bool.not_eq_true _ ▸ possible)).bind
      intro trueRange coversTrue
      apply (whenFalse (Bool.not_eq_true _ ▸ uncertain)).bind
      intro falseRange coversFalse
      have inFalse := coversFalse.of_width width
      refine ⟨?_, coversTrue.2.setUnion inFalse.2⟩
      rw [Expr.width, chosen]
      split
      · exact mem_setUnion_left coversTrue.1
      · exact mem_setUnion_right inFalse.1
  | .concat left right, wellFormed, visited => by
    obtain ⟨typedLeft, typedRight⟩ := wellFormed
    obtain ⟨⟨narrow, -⟩, exactly⟩ := visited.here
    have visitedLeft : Visited initial _ left := fun part inspects => visited part (.concatLeft inspects)
    have visitedRight : Visited initial _ right := fun part inspects => visited part (.concatRight inspects)
    have bound := narrow.bound
    rw [Expr.width] at bound
    have shifted := exactly.concat _ _ rfl
    apply (evaluate_covers consistent typedLeft visitedLeft).bind
    intro leftRange coversLeft
    apply (concat_zero_returns coversLeft.1 coversLeft.2).bind
    intro res both
    apply (evaluate_covers consistent typedRight visitedRight).bind
    intro rightRange coversRight
    have joined : (Expr.concat left right).eval ρ (left.width + right.width) = left.eval ρ left.width ++ right.eval ρ right.width := by
      rw [Expr.eval, setWidth_eq]
    have same : ((left.eval ρ left.width ++ right.eval ρ right.width)).setWidth 64 =
        (left.eval ρ left.width).setWidth 64 <<< 8 ||| (right.eval ρ right.width).setWidth 64 := by
      rw [setWidth_append]
      rcases shifted with byte | ⟨-, zero⟩
      · rw [byte]
      · have nothing : (left.eval ρ left.width).setWidth 64 = 0#64 := by
          apply eq_of_toNat_eq
          rw [toNat_setWidth, zero]
          rfl
        rw [nothing, zero_shiftLeft, zero_shiftLeft]
    unfold Covers
    rw [Expr.width, joined, same]
    exact concat_returns both.1 coversRight.1 both.2 (coversRight.2.mono (Nat.le_add_left _ _)) (by omega) (by omega)
  | .binary kind left right, wellFormed, visited => by
    obtain ⟨typedLeft, typedRight, width, -⟩ := wellFormed
    obtain ⟨⟨narrow, -⟩, -⟩ := visited.here
    unfold evaluate
    split
    · exact fullRange_covers narrow.bound
    · rename_i looked
      rw [Bool.not_eq_true] at looked
      have visitedLeft : Visited initial _ left := fun part inspects => visited part (.binaryLeft looked inspects)
      have visitedRight : Visited initial _ right := fun part inspects => visited part (.binaryRight looked inspects)
      apply (evaluate_covers consistent typedLeft visitedLeft).bind
      intro leftRange coversLeft
      apply (evaluate_covers consistent typedRight visitedRight).bind
      intro rightRange coversRight
      have inRight := coversRight.of_width width
      exact combineRanges_returns kind _ _ narrow.bound coversLeft.1 inRight.1 coversLeft.2 inRight.2
  | .cmp kind left right, wellFormed, visited => by
    obtain ⟨typedLeft, typedRight, width⟩ := wellFormed
    obtain ⟨⟨narrow, -⟩, exactly⟩ := visited.here
    have visitedLeft : Visited initial _ left := fun part inspects => visited part (.cmpLeft inspects)
    have visitedRight : Visited initial _ right := fun part inspects => visited part (.cmpRight inspects)
    have sized := visitedLeft.here.1.1
    apply (evaluate_covers consistent typedLeft visitedLeft).bind
    intro leftRange coversLeft
    apply (evaluate_covers consistent typedRight visitedRight).bind
    intro rightRange coversRight
    have inRight := coversRight.of_width width
    unfold Covers
    rw [Expr.width, Expr.eval, setWidth_eq]
    exact compareRanges_returns _ _ (narrow.canonical _ _ _ rfl) sized.positive sized.bound
      (exactly.signed _ _ _ rfl) coversLeft.1 inRight.1 coversLeft.2 inRight.2

theorem evalRead_covers (consistent : Consistent initial ρ) : ∀ {head : UpdateNode} {root : Array}
    {index res : ValueRange} {i : BitVec root.domain}, head.WellFormed guards root →
    UpdatesVisited initial (fun e => (Narrow e ∧ InBounds ρ e) ∧ Exactly ρ e) index head res →
    i.setWidth 64 ∈ index → i.toNat < root.size → root.range = 8 → root.domain ≤ 64 →
    res.Within root.range →
    Returns (fun out => (∀ v, v ∈ res → v ∈ out) ∧
      (head.eval ρ root i).setWidth 64 ∈ out ∧ out.Within root.range)
      (evalRead initial root head index res)
  | .null, root, index, res, i, _, _, member, inBounds, bytes, narrow, bits => by
    apply (consistent root index i bytes narrow inBounds member).bind
    intro out both
    exact ⟨fun v found => mem_setUnion_left found, mem_setUnion_right both.1, bits.setUnion both.2⟩
  | .node position value next, root, index, res, i, wellFormed, visited, member, inBounds, bytes, narrow, bits => by
      obtain ⟨typedPosition, positionWidth, typedValue, valueWidth, typedNext⟩ := wellFormed
      obtain ⟨ui, computed, coversPosition⟩ :=
        (evaluate_covers consistent typedPosition fun part inspects => visited part (.position inspects)).exists_ok
      have inPosition := (coversPosition.of_width positionWidth).1
      have written (reached : ui.mustEqual index = true ∨ ui.mayEqual index = true) :
          Returns (Covers ρ value) (evaluate initial value) :=
        evaluate_covers consistent typedValue fun part inspects => visited part (.value computed reached inspects)
      unfold evalRead
      rw [computed]
      dsimp only [bind, Except.bind]
      split
      · rename_i hit
        have words := eq_of_mustEqual hit inPosition member
        rw [UpdateNode.eval, if_pos (eq_of_words narrow words)]
        apply (written (.inl hit)).bind
        intro valueRange coversValue
        have inValue := coversValue.of_width valueWidth
        exact ⟨fun v found => mem_setUnion_left found, mem_setUnion_right inValue.1, bits.setUnion inValue.2⟩
      rename_i uncertain
      rw [Bool.not_eq_true] at uncertain
      split
      · rename_i possible
        obtain ⟨valueRange, computedValue, coversValue⟩ := (written (.inr possible)).exists_ok
        rw [computedValue]
        have inValue := coversValue.of_width valueWidth
        have both := bits.setUnion inValue.2
        dsimp only
        rw [isFullRange_eq (by decide)]
        dsimp only
        split
        · rename_i full
          refine ⟨fun v found => mem_setUnion_left found, ?_, both⟩
          apply @mem_of_full _ _ 8 (by decide) (of_decide_eq_true full)
          rw [setWidth_toNat _ (by omega), ← bytes]
          exact BitVec.isLt _
        · rename_i open_
          have unfilled : (res.setUnion valueRange).isFullRange 8 = .ok false := by
            rw [isFullRange_eq (by decide), decide_eq_false (by simpa using open_)]
          have visitedNext : UpdatesVisited initial _ index next (res.setUnion valueRange) := fun part inspects =>
            visited part (.behind computed uncertain possible computedValue unfilled inspects)
          apply (evalRead_covers consistent typedNext visitedNext member inBounds bytes narrow both).mono
          intro out found
          refine ⟨fun v old => found.1 v (mem_setUnion_left old), ?_, found.2.2⟩
          rw [UpdateNode.eval]
          split
          · exact found.1 _ (mem_setUnion_right inValue.1)
          · exact found.2.1
      · rename_i missed
        have differ : ¬ position.eval ρ root.domain = i := by
          intro same
          rw [same] at inPosition
          exact missed (mayEqual_of_mem inPosition member)
        rw [UpdateNode.eval, if_neg differ]
        have visitedNext : UpdatesVisited initial _ index next res := fun part inspects =>
          visited part (.missed computed uncertain (Bool.not_eq_true _ ▸ missed) inspects)
        exact evalRead_covers consistent typedNext visitedNext member inBounds bytes narrow bits

end

theorem getInitialReadRange_consistent (ρ : Assignment) : Consistent getInitialReadRange ρ := by
  intro root index i bytes narrow inBounds member
  have byte : ∀ b : BitVec root.range, b.toNat < 2 ^ 8 := by
    intro b
    rw [← bytes]
    exact b.isLt
  have open_ : ∀ b : BitVec root.range, b.setWidth 64 ∈ (⟨0#64, 255#64⟩ : ValueRange) ∧
      (⟨0#64, 255#64⟩ : ValueRange).Within root.range := by
    intro b
    constructor
    · rw [mem_iff, le_def, le_def, setWidth_toNat b (by omega)]
      exact ⟨Nat.zero_le _, Nat.le_of_lt_succ (byte b)⟩
    · unfold ValueRange.Within
      rw [bytes]
      decide
  unfold getInitialReadRange
  split
  · rename_i known
    obtain ⟨constant, fixed⟩ := known
    have place : index.mMin.toNat = i.toNat := by
      rw [← eq_of_isFixed fixed member, setWidth_toNat i narrow]
    rw [min_eq member]
    dsimp only [bind, Except.bind]
    rw [place, if_pos inBounds]
    have filled : root.constantValues ≠ [] := by
      intro none
      unfold Array.isConstantArray Array.isSymbolicArray at constant
      rw [none] at constant
      cases constant
    have listed : i.toNat < root.constantValues.length := by
      rcases root.validSize with none | size
      · exact absurd none filled
      · rw [size]
        exact inBounds
    unfold check
    rw [if_pos (by omega)]
    refine ⟨?_, ?_⟩
    · rw [mem_single]
      unfold Array.initial
      rw [List.getElem?_eq_getElem listed]
      rfl
    · apply ValueRange.Within.single
      rw [setWidth_toNat _ (by omega)]
      exact BitVec.isLt _
  · exact open_ _

theorem evaluate_constant (initial : InitialReadRange) {w : Nat} (bound : w ≤ 64) (a : BitVec w) :
    evaluate initial (.constant ⟨w, a⟩) = .ok (.single (a.setWidth 64)) := by
  have small : a.toNat < 2 ^ 64 := Nat.lt_of_lt_of_le a.isLt (Nat.pow_le_pow_right (by decide) bound)
  unfold evaluate ofConstant
  rw [if_pos small]
  rfl

theorem evaluate_concat_constants (initial : InitialReadRange) {m n : Nat} (a : BitVec m) (b : BitVec n) (room : m + n ≤ 64) :
    evaluate initial (.concat (.constant ⟨m, a⟩) (.constant ⟨n, b⟩)) = .ok (.single (a.setWidth 64 <<< 8 ||| b.setWidth 64)) := by
  have zero : 0#64 <<< 8 ||| a.setWidth 64 = a.setWidth 64 := zero_or
  unfold evaluate
  rw [evaluate_constant initial (by omega) a, evaluate_constant initial (by omega) b]
  show (single 0#64).concat (.single (a.setWidth 64)) 8 >>= _ = _
  rw [concat_single, zero]
  exact concat_single

theorem eq_zero_of_shifted {m n : Nat} {a : BitVec m} {b : BitVec n} (room : m + n ≤ 64) (other : n ≠ 8)
    (same : a.setWidth 64 <<< n ||| b.setWidth 64 = a.setWidth 64 <<< 8 ||| b.setWidth 64) : a = 0#m := by
  have bits (i : Nat) (inside : i < m) : a.getLsbD i = (decide (8 ≤ i + n) && a.getLsbD (i + n - 8)) := by
    have bit := congrArg (BitVec.getLsbD · (i + n)) same
    rw [show decide (8 ≤ i + n) = !decide (i + n < 8) by simp only [← decide_not, Nat.not_lt]]
    simpa [show i + n < 64 by omega, show ¬ i + n < n by omega, show i + n - 8 < 64 by omega,
      getLsbD_of_ge b (i + n) (Nat.le_add_left _ _)] using bit
  apply eq_of_getLsbD_eq
  intro i inside
  rw [getLsbD_zero]
  rcases Nat.lt_or_gt_of_ne other with narrow | wide
  · induction i using Nat.strongRecOn with
    | ind i ih =>
      rw [bits i inside]
      by_cases shifted : 8 ≤ i + n
      · rw [ih (i + n - 8) (by omega) (by omega), Bool.and_false]
      · rw [decide_eq_false shifted, Bool.false_and]
  · have above (k : Nat) : ∀ i, m ≤ i + k → a.getLsbD i = false := by
      induction k with
      | zero => exact fun i behind => getLsbD_of_ge a i behind
      | succ k ih =>
        intro i behind
        by_cases inside : i < m
        · rw [bits i inside, ih (i + n - 8) (by omega), Bool.and_false]
        · exact getLsbD_of_ge a i (Nat.le_of_not_lt inside)
    exact above m i (Nat.le_add_left _ _)

theorem concat_constants_iff (initial : InitialReadRange) (ρ : Assignment) {m n : Nat} (room : m + n ≤ 64)
    (a : BitVec m) (b : BitVec n) :
    (∃ r, evaluate initial (.concat (.constant ⟨m, a⟩) (.constant ⟨n, b⟩)) = .ok r ∧
      r.contains (((Expr.concat (.constant ⟨m, a⟩) (.constant ⟨n, b⟩)).eval ρ (m + n)).setWidth 64)) ↔
      n = 8 ∨ a = 0#m := by
  have value : ((Expr.concat (.constant ⟨m, a⟩) (.constant ⟨n, b⟩)).eval ρ (m + n)).setWidth 64 =
      a.setWidth 64 <<< n ||| b.setWidth 64 := by
    have joined : (Expr.concat (.constant ⟨m, a⟩) (.constant ⟨n, b⟩)).eval ρ (m + n) = a ++ b := by
      simp only [Expr.eval, Expr.width, setWidth_eq]
      rfl
    rw [joined, setWidth_append]
  rw [evaluate_concat_constants initial a b room]
  simp only [Except.ok.injEq, exists_eq_left', contains_iff, value, mem_single]
  constructor
  · intro same
    by_cases byte : n = 8
    · exact .inl byte
    · exact .inr (eq_zero_of_shifted room byte same)
  · rintro (rfl | rfl)
    · rfl
    · simp

mutual

theorem inspected_returns : ∀ {e part : Expr}, Inspects initial e part →
    ∀ {r : ValueRange}, evaluate initial e = .ok r → ∃ r', evaluate initial part = .ok r'
  | _, _, .self _, r, returned => ⟨r, returned⟩
  | _, _, .index inspects, _, returned => by
    unfold evaluate at returned
    obtain ⟨range, computed, -⟩ := bind_eq_ok_iff.mp returned
    exact inspected_returns inspects computed
  | _, _, .updates known inspects, _, returned => by
    unfold evaluate at returned
    rw [known] at returned
    exact inspected_update_returns inspects returned
  | _, _, .cond inspects, _, returned => by
    unfold evaluate at returned
    obtain ⟨range, computed, -⟩ := bind_eq_ok_iff.mp returned
    exact inspected_returns inspects computed
  | _, _, .trueExpr known possible inspects, r, returned => by
    unfold evaluate at returned
    rw [known] at returned
    dsimp only [bind, Except.bind] at returned
    split at returned
    · exact inspected_returns inspects returned
    · rw [possible, if_neg Bool.false_ne_true] at returned
      obtain ⟨range, computed, -⟩ := bind_eq_ok_iff.mp returned
      exact inspected_returns inspects computed
  | _, _, .falseExpr known possible inspects, r, returned => by
    unfold evaluate at returned
    rw [known] at returned
    dsimp only [bind, Except.bind] at returned
    rw [possible, if_neg Bool.false_ne_true] at returned
    split at returned
    · exact inspected_returns inspects returned
    · obtain ⟨_, -, returned⟩ := bind_eq_ok_iff.mp returned
      obtain ⟨range, computed, -⟩ := bind_eq_ok_iff.mp returned
      exact inspected_returns inspects computed
  | _, _, .concatLeft inspects, _, returned => by
    unfold evaluate at returned
    obtain ⟨range, computed, -⟩ := bind_eq_ok_iff.mp returned
    exact inspected_returns inspects computed
  | _, _, .concatRight inspects, _, returned => by
    unfold evaluate at returned
    obtain ⟨_, -, returned⟩ := bind_eq_ok_iff.mp returned
    obtain ⟨_, -, returned⟩ := bind_eq_ok_iff.mp returned
    obtain ⟨range, computed, -⟩ := bind_eq_ok_iff.mp returned
    exact inspected_returns inspects computed
  | _, _, .binaryLeft looked inspects, _, returned => by
    unfold evaluate at returned
    rw [looked, if_neg Bool.false_ne_true] at returned
    obtain ⟨range, computed, -⟩ := bind_eq_ok_iff.mp returned
    exact inspected_returns inspects computed
  | _, _, .binaryRight looked inspects, _, returned => by
    unfold evaluate at returned
    rw [looked, if_neg Bool.false_ne_true] at returned
    obtain ⟨_, -, returned⟩ := bind_eq_ok_iff.mp returned
    obtain ⟨range, computed, -⟩ := bind_eq_ok_iff.mp returned
    exact inspected_returns inspects computed
  | _, _, .cmpLeft inspects, _, returned => by
    unfold evaluate at returned
    obtain ⟨range, computed, -⟩ := bind_eq_ok_iff.mp returned
    exact inspected_returns inspects computed
  | _, _, .cmpRight inspects, _, returned => by
    unfold evaluate at returned
    obtain ⟨_, -, returned⟩ := bind_eq_ok_iff.mp returned
    obtain ⟨range, computed, -⟩ := bind_eq_ok_iff.mp returned
    exact inspected_returns inspects computed

theorem inspected_update_returns : ∀ {index res : ValueRange} {head : UpdateNode} {part : Expr},
    UpdatesInspect initial index head res part → ∀ {root : Array} {r : ValueRange},
    evalRead initial root head index res = .ok r → ∃ r', evaluate initial part = .ok r'
  | _, _, _, _, .position inspects, _, _, returned => by
    unfold evalRead at returned
    obtain ⟨range, computed, -⟩ := bind_eq_ok_iff.mp returned
    exact inspected_returns inspects computed
  | _, _, _, _, .value known reached inspects, _, _, returned => by
    unfold evalRead at returned
    rw [known] at returned
    dsimp only [bind, Except.bind] at returned
    split at returned
    · obtain ⟨range, computed, -⟩ := bind_eq_ok_iff.mp returned
      exact inspected_returns inspects computed
    · rename_i uncertain
      rw [if_pos (reached.resolve_left uncertain)] at returned
      obtain ⟨range, computed, -⟩ := bind_eq_ok_iff.mp returned
      exact inspected_returns inspects computed
  | _, _, _, _, .behind known uncertain possible written unfilled inspects, _, _, returned => by
    unfold evalRead at returned
    rw [known] at returned
    dsimp only [bind, Except.bind] at returned
    rw [uncertain, if_neg Bool.false_ne_true, if_pos possible, written] at returned
    dsimp only at returned
    rw [unfilled] at returned
    exact inspected_update_returns inspects returned
  | _, _, _, _, .missed known uncertain impossible inspects, _, _, returned => by
    unfold evalRead at returned
    rw [known] at returned
    dsimp only [bind, Except.bind] at returned
    rw [uncertain, impossible, if_neg Bool.false_ne_true, if_neg Bool.false_ne_true] at returned
    exact inspected_update_returns inspects returned

end

theorem evaluate_signed_word (initial : InitialReadRange) {kind : CmpKind} {left right : Expr}
    (signed : isSigned kind) (word : left.width = 64) : ¬ ∃ r, evaluate initial (.cmp kind left right) = .ok r := by
  intro returns
  obtain ⟨r, returned⟩ := returns
  unfold evaluate at returned
  rw [bind_eq_ok_iff] at returned
  obtain ⟨leftRange, -, returned⟩ := returned
  rw [bind_eq_ok_iff] at returned
  obtain ⟨rightRange, -, returned⟩ := returned
  rw [word] at returned
  cases kind with
  | eq | ne | ult | ule | ugt | uge | sgt | sge => cases signed
  | slt => cases returned
  | sle => cases returned

/-- A range contains the value where concatenations and signed comparisons that are looked at are
as required. Both requirements are needed: of constant parts the range contains the value only as
required, and there is no range if a signed comparison of whole words is looked at. -/
theorem evaluate_contains (initial : InitialReadRange) (ρ : Assignment) :
    (∀ (guards : Guards) (e : Expr),
      e.WellFormed guards → Visited initial (fun e => Narrow e ∧ InBounds ρ e) e →
      Consistent initial ρ → Visited initial (Exactly ρ) e →
      ∃ r, evaluate initial e = .ok r ∧ r.contains ((e.eval ρ e.width).setWidth 64)) ∧
    (∀ (m n : Nat) (a : BitVec m) (b : BitVec n), m + n ≤ 64 →
      ((∃ r, evaluate initial (.concat (.constant ⟨m, a⟩) (.constant ⟨n, b⟩)) = .ok r ∧
        r.contains (((Expr.concat (.constant ⟨m, a⟩) (.constant ⟨n, b⟩)).eval ρ (m + n)).setWidth
          64)) ↔ n = 8 ∨ a = 0#m)) ∧
    ∀ (e left right : Expr) (kind : CmpKind), Inspects initial e (.cmp kind left right) →
      isSigned kind → left.width = 64 → ¬ ∃ r, evaluate initial e = .ok r := by
  refine ⟨?_, ?_, ?_⟩
  · intro guards e wellFormed premises consistent exactly
    have visited : Visited initial (fun e => (Narrow e ∧ InBounds ρ e) ∧ Exactly ρ e) e :=
      fun part inspects => ⟨premises part inspects, exactly part inspects⟩
    obtain ⟨r, returned, covers⟩ := (evaluate_covers consistent wellFormed visited).exists_ok
    exact ⟨r, returned, contains_iff.mpr covers.1⟩
  · intro m n a b room
    exact concat_constants_iff initial ρ room a b
  · intro e left right kind inspects signed word returns
    obtain ⟨r, returned⟩ := returns
    exact evaluate_signed_word initial signed word (inspected_returns inspects returned)

end Expressions

/-! ## A word of four bytes -/

section Word

def buffer : Array := .symbolic 0 "buf" 4

def byteAt (i : Fin 4) : Expr := .read buffer .null (.constant ⟨32, BitVec.ofNat 32 i⟩)

def wordRead : Expr := .concat (byteAt 3) (.concat (byteAt 2) (.concat (byteAt 1) (byteAt 0)))

def ones : Assignment := fun _ _ => 1

def anyGuards : Guards := ⟨fun _ _ => True, fun _ => True⟩

theorem byteAt_wellFormed (i : Fin 4) : (byteAt i).WellFormed anyGuards :=
  ⟨trivial, trivial, rfl, by decide, fun _ => trivial⟩

theorem narrow_constant {w : Nat} (value : BitVec w) (positive : 0 < w) (bound : w ≤ 64) : Narrow (.constant ⟨w, value⟩) :=
  ⟨positive, bound, nofun, nofun⟩

theorem narrow_concat {left right : Expr} (positive : 0 < left.width + right.width)
    (bound : left.width + right.width ≤ 64) : Narrow (.concat left right) :=
  ⟨positive, bound, nofun, nofun⟩

theorem byteAt_visited (i : Fin 4) :
    Visited getInitialReadRange (fun e => (Narrow e ∧ InBounds ones e) ∧ Exactly ones e) (byteAt i) := by
  intro part inspects
  cases inspects with
  | self =>
    refine ⟨⟨⟨show 0 < 8 by decide, show 8 ≤ 64 by decide, ?_, nofun⟩, ?_⟩, nofun, nofun⟩
    · intro root head index same
      cases same
      rfl
    · intro root head index same
      cases same
      revert i
      decide
  | index inspects =>
    cases inspects
    exact ⟨⟨narrow_constant _ (by decide) (by decide), nofun⟩, nofun, nofun⟩
  | updates _ inspects => cases inspects

theorem wordRead_visited : Visited getInitialReadRange (fun e => Narrow e ∧ InBounds ones e) wordRead := by
  have byte (i : Fin 4) (part : Expr) (inspects : Inspects getInitialReadRange (byteAt i) part) :
      Narrow part ∧ InBounds ones part := (byteAt_visited i part inspects).1
  have joined {left right : Expr} (positive : 0 < left.width + right.width) (bound : left.width + right.width ≤ 64)
      (inLeft : Visited getInitialReadRange (fun e => Narrow e ∧ InBounds ones e) left)
      (inRight : Visited getInitialReadRange (fun e => Narrow e ∧ InBounds ones e) right) :
      Visited getInitialReadRange (fun e => Narrow e ∧ InBounds ones e) (.concat left right) := by
    intro part inspects
    cases inspects with
    | self => exact ⟨narrow_concat positive bound, nofun⟩
    | concatLeft inspects => exact inLeft part inspects
    | concatRight inspects => exact inRight part inspects
  exact joined (by decide) (by decide) (byte 3)
    (joined (by decide) (by decide) (byte 2) (joined (by decide) (by decide) (byte 1) (byte 0)))

theorem evaluate_misses_word :
    wordRead.WellFormed anyGuards ∧
      Visited getInitialReadRange (fun e => Narrow e ∧ InBounds ones e) wordRead ∧
      Consistent getInitialReadRange ones ∧
      evaluate getInitialReadRange wordRead = .ok ⟨0#64, 65535#64⟩ ∧
      (wordRead.eval ones 32).setWidth 64 = 0x01010101#64 ∧
      ¬ ∃ r, evaluate getInitialReadRange wordRead = .ok r ∧
        r.contains ((wordRead.eval ones wordRead.width).setWidth 64) := by
  have computed : evaluate getInitialReadRange wordRead = .ok ⟨0#64, 65535#64⟩ := by
    decide +kernel
  have value : (wordRead.eval ones 32).setWidth 64 = 0x01010101#64 := by decide +kernel
  refine ⟨?_, wordRead_visited, getInitialReadRange_consistent ones, computed, value, ?_⟩
  · exact ⟨byteAt_wellFormed 3, byteAt_wellFormed 2, byteAt_wellFormed 1, byteAt_wellFormed 0⟩
  · intro found
    obtain ⟨r, returned, contained⟩ := found
    rw [computed] at returned
    cases returned
    exact absurd contained (by decide +kernel)

def halfWordTest (kind : CmpKind) (value : BitVec 16) : Expr :=
  .cmp kind (.concat (byteAt 1) (byteAt 0)) (.constant ⟨16, value⟩)

/-- The word is not looked at, since the condition is certain. -/
def guardedTest : Expr :=
  .select (halfWordTest .ule 65535#16) (halfWordTest .ult 300#16) (.cmp .ult wordRead (.constant ⟨32, 300#32⟩))

theorem halfWordTest_visited {kind : CmpKind} (canonical : isCanonical kind) (unsigned : isSigned kind = false)
    (value : BitVec 16) : Visited getInitialReadRange
      (fun e => (Narrow e ∧ InBounds ones e) ∧ Exactly ones e) (halfWordTest kind value) := by
  intro part inspects
  cases inspects with
  | self =>
    refine ⟨⟨⟨show 0 < 1 by decide, show 1 ≤ 64 by decide, nofun, ?_⟩, nofun⟩, nofun, ?_⟩
    · intro _ left right same
      cases same
      exact canonical
    · intro _ left right same signed
      cases same
      rw [unsigned] at signed
      cases signed
  | cmpLeft inspects =>
    cases inspects with
    | self =>
      refine ⟨⟨narrow_concat (by decide) (by decide), nofun⟩, ?_, nofun⟩
      intro left right same
      cases same
      exact .inl rfl
    | concatLeft inspects => exact byteAt_visited 1 part inspects
    | concatRight inspects => exact byteAt_visited 0 part inspects
  | cmpRight inspects =>
    cases inspects
    exact ⟨⟨narrow_constant _ (by decide) (by decide), nofun⟩, nofun, nofun⟩

theorem guardedTest_visited : Visited getInitialReadRange
    (fun e => (Narrow e ∧ InBounds ones e) ∧ Exactly ones e) guardedTest := by
  have certain : evaluate getInitialReadRange (halfWordTest .ule 65535#16) = .ok (.single 1#64) := by
    decide +kernel
  intro part inspects
  cases inspects with
  | self => exact ⟨⟨⟨show 0 < 1 by decide, show 1 ≤ 64 by decide, nofun, nofun⟩, nofun⟩, nofun, nofun⟩
  | cond inspects => exact halfWordTest_visited rfl rfl _ part inspects
  | trueExpr _ _ inspects => exact halfWordTest_visited rfl rfl _ part inspects
  | falseExpr computed uncertain inspects =>
    cases certain.symm.trans computed
    cases uncertain

theorem evaluate_contains_sample :
    ∃ r, evaluate getInitialReadRange guardedTest = .ok r ∧
      r.contains ((guardedTest.eval ones guardedTest.width).setWidth 64) := by
  have typed : (Expr.concat (byteAt 1) (byteAt 0)).WellFormed anyGuards :=
    ⟨byteAt_wellFormed 1, byteAt_wellFormed 0⟩
  have typedWord : wordRead.WellFormed anyGuards :=
    ⟨byteAt_wellFormed 3, byteAt_wellFormed 2, byteAt_wellFormed 1, byteAt_wellFormed 0⟩
  apply (evaluate_contains getInitialReadRange ones).1 anyGuards guardedTest
  · exact ⟨⟨typed, trivial, rfl⟩, ⟨typed, trivial, rfl⟩, ⟨typedWord, trivial, rfl⟩, rfl, rfl⟩
  · exact fun part inspects => (guardedTest_visited part inspects).1
  · exact getInitialReadRange_consistent ones
  · exact fun part inspects => (guardedTest_visited part inspects).2

end Word

end NeuroMerge.FastCex
