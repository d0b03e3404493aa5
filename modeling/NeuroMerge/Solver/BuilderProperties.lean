import NeuroMerge.Solver.BuilderOperators

/-!
# Built terms and evaluation

The term of an expression has the value of the expression, unless something is
shifted too far: an arithmetic shift that is too far gives zero in the term, and
a constant amount is cut to 32 bits.
-/

namespace NeuroMerge.Builder

open BitVec BitVectorTerm ConstantDivision
open Symbolic (Array Expr UpdateNode ConstantExpr BinaryKind CmpKind Assignment Guards)

/-! ## Canonical expressions -/

/-- "The only acceptable operations with boolean arguments" and the comparisons that are used. -/
def Operands : Expr → Prop
  | .read root _ _ => root.domain ≠ 1 ∧ root.range ≠ 1 ∧ root.size < 2 ^ 32
  | .concat left right => left.width ≠ 1 ∧ right.width ≠ 1
  | .extract expr _ _ => expr.width ≠ 1
  | .zext src width => src.width < width
  | .sext src width => src.width < width
  | .binary kind left _ => isBitwise kind = true ∨ left.width ≠ 1
  | .cmp kind left _ =>
    kind = .eq ∨ kind ∈ [CmpKind.ult, .ule, .slt, .sle] ∧ left.width ≠ 1
  | .constant _ | .notOptimized _ | .select _ _ _ | .not _ => True

structure Canonical (e : Expr) : Prop where
  positive : 0 < e.width
  bounded : e.width < 2 ^ 32
  operands : Operands e

/-! ## Environments -/

/-- The environment has the bytes of the symbolic arrays. Nothing is known of the variable of a
constant array, except what `Z3Builder` asserts. -/
structure Models (backend : Backend) (env : Environment Array) (ρ : Assignment) : Prop where
  symbolic : ∀ root : Array, root.isSymbolicArray →
    ∀ i, env root root.domain root.range i = ρ root i.toNat
  asserted : backend = .z3 → ∀ root : Array, root.isConstantArray → root.range ≠ 1 →
    root.size < 2 ^ 32 → root.size ≤ 2 ^ root.domain →
    ∀ t ∈ constantArrayAssertions root, Decides env t true

/-! ## Values of terms -/

def Builds (backend : Backend) (env : Environment Array) (ρ : Assignment) (e : Expr) (w : Nat) :
    Prop :=
  ∃ t, construct backend e = .ok (t, w) ∧ Represents env t (e.eval ρ w)

def Faithful (backend : Backend) (env : Environment Array) (ρ : Assignment) (e : Expr) : Prop :=
  Builds backend env ρ e e.width

def Harmless (ρ : Assignment) : Expr → Prop
  | .binary kind left right =>
    ShiftsAlike kind (left.eval ρ left.width) (right.eval ρ left.width) right.constant?
  | _ => True

variable {backend : Backend} {env : Environment Array} {ρ : Assignment}

/-! ## Arrays -/

section Initial

variable {root : Array}

theorem contains_stores (domain : root.domain ≠ 1) (range : root.range ≠ 1) {k : Nat} (bounded : k ≤ 2 ^ root.domain) :
    Contains env
      ((List.range k).foldl
        (fun prev i =>
          .store prev (constructConstant (.alloc i root.domain))
            (constructConstant ⟨root.range, root.constantValues[i]?.getD 0⟩))
        (.var root root.domain root.range))
      (fun i : BitVec root.domain =>
        if i.toNat < k then root.constantValues[i.toNat]?.getD 0 else env root root.domain root.range i) := by
  induction k with
  | zero => exact Contains.var root root.domain root.range
  | succ k ih =>
    have stored := (ih (by omega)).store (means_constructConstant (BitVec.ofNat _ k) domain)
      (means_constructConstant (root.constantValues[k]?.getD 0) range)
    rw [List.range_succ, List.foldl_append, List.foldl_cons, List.foldl_nil]
    suffices same : (fun i : BitVec root.domain =>
        if BitVec.ofNat root.domain k = i then root.constantValues[k]?.getD 0
        else if i.toNat < k then root.constantValues[i.toNat]?.getD 0
        else env root root.domain root.range i) = fun i =>
          if i.toNat < k + 1 then root.constantValues[i.toNat]?.getD 0
          else env root root.domain root.range i from same ▸ stored
    funext i
    have here : BitVec.ofNat root.domain k = i ↔ i.toNat = k := by
      rw [← toNat_inj, toNat_ofNat, Nat.mod_eq_of_lt (by omega), eq_comm]
    by_cases same : i.toNat = k
    · rw [if_pos (here.mpr same), if_pos (by omega), same]
    · rw [if_neg (mt here.mp same)]
      exact if_congr (by omega) rfl rfl

theorem asserted_value (models : Models .z3 env ρ) (isConstant : root.isConstantArray)
    (range : root.range ≠ 1) (size : root.size < 2 ^ 32) (bounded : root.size ≤ 2 ^ root.domain)
    (i : BitVec root.domain) (inside : i.toNat < root.size) :
    env root root.domain root.range i = root.constantValues[i.toNat]?.getD 0 := by
  have holds := models.asserted rfl root isConstant range size bounded _ (List.mem_map.mpr ⟨i.toNat, List.mem_range.mpr inside, rfl⟩)
  have index : Means env (bvConst32 root.domain i.toNat) i := means_value32 (by omega)
  have compared := Means.compare .eq (Means.select (.var root root.domain root.range) index)
    (means_constructConstant (root.constantValues[i.toNat]?.getD 0) range)
  simpa using compared.unique holds

theorem constantValue_eq_initial (isConstant : root.isConstantArray) {i : Nat}
    (inside : i < root.size) : root.constantValues[i]?.getD 0 = root.initial ρ i := by
  have notEmpty : root.constantValues ≠ [] := by
    simpa [Symbolic.Array.isConstantArray, Symbolic.Array.isSymbolicArray] using isConstant
  have length := root.validSize.resolve_left notEmpty
  rw [Symbolic.Array.initial, List.getElem?_eq_getElem (by omega)]
  rfl

theorem contains_initial (models : Models backend env ρ) (domain : root.domain ≠ 1)
    (range : root.range ≠ 1) (size : root.size < 2 ^ 32) (bounded : root.isConstantArray → root.size ≤ 2 ^ root.domain) :
    ∃ contents : BitVec root.domain → BitVec root.range,
      Contains env (getInitialArray backend root) contents ∧
      ∀ i, (root.isConstantArray → i.toNat < root.size) → contents i = root.initial ρ i.toNat := by
  have symbolic : root.isConstantArray = false → ∀ i : BitVec root.domain,
      env root root.domain root.range i = root.initial ρ i.toNat := by
    intro notConstant i
    have isSymbolic : root.isSymbolicArray = true := by
      simpa [Symbolic.Array.isConstantArray] using notConstant
    have empty : root.constantValues = [] := List.isEmpty_iff.mp isSymbolic
    rw [models.symbolic root isSymbolic, Symbolic.Array.initial, empty]
    rfl
  cases backend with
  | z3 =>
    refine ⟨_, .var root root.domain root.range, fun i inside => ?_⟩
    cases isConstant : root.isConstantArray with
    | false => exact symbolic isConstant i
    | true =>
      rw [asserted_value models isConstant range size (bounded isConstant) i (inside isConstant)]
      exact constantValue_eq_initial isConstant (inside isConstant)
  | stp optimizeDivides =>
    rw [getInitialArray]
    split
    · rename_i isConstant
      refine ⟨_, contains_stores domain range (bounded isConstant), fun i inside => ?_⟩
      rw [if_pos (inside isConstant)]
      exact constantValue_eq_initial isConstant (inside isConstant)
    · rename_i notConstant
      exact ⟨_, .var root root.domain root.range, fun i _ =>
        symbolic (Bool.eq_false_iff.mpr notConstant) i⟩

end Initial

theorem Faithful.of_width {e : Expr} {w : Nat} (faithful : Faithful backend env ρ e) (width : e.width = w) : Builds backend env ρ e w :=
  width ▸ faithful

theorem contains_updates {guards : Guards} {root : Array} (models : Models backend env ρ)
    (domain : root.domain ≠ 1) (range : root.range ≠ 1) (size : root.size < 2 ^ 32)
    (bounded : root.isConstantArray → root.size ≤ 2 ^ root.domain) :
    ∀ head : UpdateNode, head.WellFormed guards root → head.All (Faithful backend env ρ) →
      ∃ array, ∃ contents : BitVec root.domain → BitVec root.range,
        getArrayForUpdate backend root head = .ok array ∧ Contains env array contents ∧
        ∀ i, (root.isConstantArray → i.toNat < root.size) → contents i = head.eval ρ root i
  | .null, _, _ => by
    obtain ⟨contents, contains, values⟩ := contains_initial models domain range size bounded
    exact ⟨_, contents, by rw [getArrayForUpdate]; rfl, contains, values⟩
  | .node index value next, wellFormed, all => by
    obtain ⟨-, widthIndex, -, widthValue, wellFormedNext⟩ := wellFormed
    obtain ⟨faithfulIndex, faithfulValue, faithfulNext⟩ := all
    obtain ⟨array, contents, built, contains, values⟩ :=
      contains_updates models domain range size bounded next wellFormedNext faithfulNext
    obtain ⟨s, builtIndex, representsIndex⟩ := faithfulIndex.here.of_width widthIndex
    obtain ⟨t, builtValue, representsValue⟩ := faithfulValue.here.of_width widthValue
    refine ⟨.store array s t, _, ?_, contains.store (representsIndex.means domain) (representsValue.means range), fun i inside => ?_⟩
    · rw [getArrayForUpdate, built, builtIndex, builtValue]
      rfl
    · rw [UpdateNode.eval, ← values i inside]

/-! ## Expressions -/

variable {src left right : Expr} {width : Nat}

section Nodes

theorem faithful_constant (value : ConstantExpr) : Faithful backend env ρ (.constant value) := by
  obtain ⟨w, value⟩ := value
  refine ⟨constructConstant ⟨w, value⟩, by rw [construct]; rfl, ?_⟩
  rw [Expr.eval]
  dsimp only [Expr.width]
  rw [setWidth_eq]
  by_cases bit : w = 1
  · subst bit
    exact .of_decides (decides_constructConstant value) rfl rfl
  · exact .of_means (means_constructConstant value bit) bit

theorem faithful_notOptimized (faithful : Faithful backend env ρ src) : Faithful backend env ρ (.notOptimized src) := by
  obtain ⟨t, built, represents⟩ := faithful
  exact ⟨t, by rw [construct, built]; rfl, represents⟩

theorem faithful_read (models : Models backend env ρ) {root : Array} {head : UpdateNode}
    {index : Expr} (wellFormed : (Expr.read root head index).WellFormed (Guards.defined ρ))
    (canonical : Canonical (.read root head index))
    (updates : head.All (Faithful backend env ρ)) (faithful : Faithful backend env ρ index) :
    Faithful backend env ρ (.read root head index) := by
  obtain ⟨wellFormedHead, -, width, -, readable⟩ := wellFormed
  obtain ⟨domain, range, size⟩ := canonical.operands
  obtain ⟨array, contents, builtArray, contains, values⟩ := contains_updates models domain range
    size (fun isConstant => (readable isConstant).2) head wellFormedHead updates
  obtain ⟨t, builtIndex, represents⟩ := faithful.of_width width
  refine ⟨.select array t, by rw [construct, builtArray, builtIndex]; rfl, ?_⟩
  refine .of_means ((Means.select contains (represents.means domain)).of_eq ?_) range
  rw [values _ fun isConstant => (readable isConstant).1, Expr.eval]
  exact (setWidth_eq _).symm

theorem faithful_select {cond trueExpr falseExpr : Expr} (boolean : cond.width = 1)
    (same : falseExpr.width = trueExpr.width) (faithfulCond : Faithful backend env ρ cond)
    (faithfulTrue : Faithful backend env ρ trueExpr) (faithfulFalse : Faithful backend env ρ falseExpr) :
    Faithful backend env ρ (.select cond trueExpr falseExpr) := by
  obtain ⟨c, builtCond, representsCond⟩ := faithfulCond.of_width boolean
  obtain ⟨s, builtTrue, representsTrue⟩ := faithfulTrue
  obtain ⟨t, builtFalse, representsFalse⟩ := faithfulFalse.of_width same
  refine ⟨.ite c s t, by rw [construct, builtCond, builtTrue, builtFalse]; rfl, ?_⟩
  have decides := representsCond.decides rfl
  have chosen : ((cond.eval ρ 1).getLsbD 0 = true) = (cond.eval ρ 1 = 1#1) := by
    generalize cond.eval ρ 1 = bit
    revert bit
    decide
  rw [Expr.eval]
  by_cases bit : trueExpr.width = 1
  · refine .of_decides (Decides.ite decides (representsTrue.decides bit) (representsFalse.decides bit)) bit ?_
    simp only [chosen, Expr.width]
    split <;> rfl
  · refine .of_means ((Means.ite decides (representsTrue.means bit) (representsFalse.means bit)).of_eq ?_) bit
    simp only [chosen, Expr.width]

theorem faithful_concat (canonical : Canonical (.concat left right))
    (faithfulLeft : Faithful backend env ρ left) (faithfulRight : Faithful backend env ρ right) :
    Faithful backend env ρ (.concat left right) := by
  obtain ⟨bitsLeft, bitsRight⟩ := canonical.operands
  obtain ⟨s, builtLeft, representsLeft⟩ := faithfulLeft
  obtain ⟨t, builtRight, representsRight⟩ := faithfulRight
  refine ⟨.concat s t, by rw [construct, builtLeft, builtRight]; rfl, ?_⟩
  refine .of_means (((representsLeft.means bitsLeft).concat (representsRight.means bitsRight)).of_eq (setWidth_eq _).symm) ?_
  rw [Expr.width]
  omega

theorem faithful_extract {expr : Expr} {offset : Nat} (positive : 0 < width)
    (within : offset + width ≤ expr.width) (canonical : Canonical (.extract expr offset width))
    (faithful : Faithful backend env ρ expr) : Faithful backend env ρ (.extract expr offset width) := by
  have bits : expr.width ≠ 1 := canonical.operands
  obtain ⟨t, built, represents⟩ := faithful
  have means := represents.means bits
  by_cases bit : width = 1
  · subst bit
    refine ⟨bvBoolExtract t offset, by rw [construct, built]; rfl, ?_⟩
    refine .of_decides (decides_bvBoolExtract means (by omega)) rfl ?_
    simp
  · have extracted : Means env (bvExtract t (offset + width - 1) offset) ((expr.eval ρ expr.width).extractLsb' offset width) :=
      means_bvExtract means (by omega) (by omega) (by omega)
    refine ⟨_, ?_, .of_means (extracted.of_eq (setWidth_eq _).symm) bit⟩
    rw [construct, built, ok_bind]
    exact if_neg bit

theorem faithful_not {expr : Expr} (faithful : Faithful backend env ρ expr) : Faithful backend env ρ (.not expr) := by
  obtain ⟨t, built, represents⟩ := faithful
  by_cases bit : expr.width = 1
  · refine ⟨.not t, by rw [construct, built, ok_bind]; exact if_pos bit, ?_⟩
    refine .of_decides (represents.decides bit).not bit ?_
    rw [Expr.eval, getLsbD_not]
    simp [bit]
  · refine ⟨.bvnot t, by rw [construct, built, ok_bind]; exact if_neg bit, ?_⟩
    exact .of_means (represents.means bit).bvnot bit

theorem means_widenBit {t one zero : Handle} {x : BitVec width} (bit : src.width = 1)
    (represents : Represents env t (src.eval ρ src.width)) (whenOne : Means env one x) (whenZero : Means env zero 0#(width)) :
    Means env (.ite t one zero) (if src.eval ρ 1 = 1#1 then x else 0#(width)) := by
  have decides := represents.decides bit
  rw [bit] at decides
  refine (Means.ite decides whenOne whenZero).of_eq ?_
  have chosen : ((src.eval ρ 1).getLsbD 0 = true) = (src.eval ρ 1 = 1#1) := by
    generalize src.eval ρ 1 = bit
    revert bit
    decide
  simp only [chosen]

theorem faithful_zext (positive : 0 < src.width) (canonical : Canonical (.zext src width))
    (faithful : Faithful backend env ρ src) : Faithful backend env ρ (.zext src width) := by
  have wider : src.width < width := canonical.operands
  have bits : width ≠ 1 := by omega
  obtain ⟨t, built, represents⟩ := faithful
  by_cases bit : src.width = 1
  · refine ⟨.ite t (bvOne width) (bvZero width), ?_, .of_means
      ((means_widenBit bit represents (means_bvOne width) (means_bvZero width)).of_eq ?_) bits⟩
    · rw [construct, built, ok_bind]
      exact if_pos bit
    · change _ = ((src.eval ρ src.width).setWidth width).setWidth width
      rw [setWidth_eq, bit]
      obtain zero | one := eq_zero_or_eq_one (src.eval ρ 1)
      · rw [zero, if_neg (by decide), setWidth_zero]
      · rw [one, if_pos rfl]
        exact eq_of_toNat_eq (by simp)
  · refine ⟨.concat (bvZero (width - src.width)) t, ?_, .of_means
      (means_of_toNat ((means_bvZero _).concat (represents.means bit)) ?_ ?_) bits⟩
    · rw [construct, built, ok_bind]
      exact if_neg bit
    · rw [Expr.width]
      omega
    · rw [Expr.eval, toNat_append_eq, Expr.width, setWidth_eq, toNat_setWidth, Nat.mod_eq_of_lt, toNat_zero, Nat.zero_mul, Nat.zero_add]
      exact (BitVec.isLt _).trans (Nat.pow_lt_pow_right (by omega) wider)

theorem faithful_sext (positive : 0 < src.width) (canonical : Canonical (.sext src width))
    (faithful : Faithful backend env ρ src) : Faithful backend env ρ (.sext src width) := by
  have wider : src.width < width := canonical.operands
  have bits : width ≠ 1 := by omega
  obtain ⟨t, built, represents⟩ := faithful
  by_cases bit : src.width = 1
  · refine ⟨.ite t (bvMinusOne backend width) (bvZero width), ?_, .of_means
      ((means_widenBit bit represents (means_bvMinusOne backend width) (means_bvZero width)).of_eq ?_) bits⟩
    · rw [construct, built, ok_bind]
      exact if_pos bit
    · change _ = ((src.eval ρ src.width).signExtend width).setWidth width
      rw [setWidth_eq, bit]
      obtain zero | one := eq_zero_or_eq_one (src.eval ρ 1)
      · rw [zero, if_neg (by decide), signExtend_eq_setWidth_of_msb_false (by decide), setWidth_zero]
      · rw [one, if_pos rfl]
        refine eq_of_getLsbD_eq fun i bound => ?_
        rw [getLsbD_allOnes, getLsbD_signExtend]
        by_cases first : i < 1
        · simp [show i = 0 by omega, show 0 < width by omega]
        · simp [first, bound]
  · refine ⟨.signExtend width t, ?_, .of_means (((represents.means bit).signExtend wider.le).of_eq (setWidth_eq _).symm) bits⟩
    rw [construct, built, ok_bind]
    exact if_neg bit

theorem faithful_cmp {kind : CmpKind} (same : right.width = left.width)
    (canonical : Canonical (.cmp kind left right)) (faithfulLeft : Faithful backend env ρ left)
    (faithfulRight : Faithful backend env ρ right) : Faithful backend env ρ (.cmp kind left right) := by
  obtain ⟨s, builtLeft, representsLeft⟩ := faithfulLeft
  obtain ⟨t, builtRight, representsRight⟩ := faithfulRight.of_width same
  obtain ⟨res, built, decides⟩ := decides_constructCmp representsLeft representsRight rfl canonical.operands
  refine ⟨res, ?_, .of_decides decides rfl ?_⟩
  · rw [construct, builtLeft, ok_bind]
    dsimp only
    rw [builtRight, ok_bind]
    rw [built]
    rfl
  · change _ = ((BitVec.ofBool _).setWidth 1).getLsbD 0
    cases kind.apply (left.eval ρ left.width) (right.eval ρ left.width) <;> rfl

theorem faithful_binary_iff {kind : BinaryKind} (same : right.width = left.width)
    (division : kind.isDivision = true → right.eval ρ left.width ≠ 0#(left.width))
    (canonical : Canonical (.binary kind left right)) (faithfulLeft : Faithful backend env ρ left)
    (faithfulRight : Faithful backend env ρ right) :
    Faithful backend env ρ (.binary kind left right) ↔ Harmless ρ (.binary kind left right) := by
  obtain ⟨s, builtLeft, representsLeft⟩ := faithfulLeft
  obtain ⟨t, builtRight, representsRight⟩ := faithfulRight.of_width same
  obtain ⟨res, y, built, represents, alike⟩ := buildsOperator backend representsLeft
    representsRight rfl same canonical.operands canonical.positive canonical.bounded division
  have term : construct backend (.binary kind left right) = .ok (res, left.width) := by
    rw [construct, builtLeft, ok_bind]
    dsimp only
    rw [builtRight, ok_bind]
    rw [built]
    rfl
  rw [Harmless, ← alike]
  constructor
  · intro ⟨res', built', represents'⟩
    obtain rfl : res' = res := by
      rw [term] at built'
      exact (congrArg Prod.fst (Except.ok.inj built')).symm
    exact represents.unique represents'
  · intro value
    exact ⟨res, term, by rwa [Expr.eval, Expr.width, ← value]⟩

end Nodes

theorem and_iff_and {a b c d : Prop} (below : b ↔ d) (here : b → (a ↔ c)) : a ∧ b ↔ c ∧ d := by
  rw [← below]
  exact and_congr_left here

mutual

theorem all_iff (models : Models backend env ρ) :
    ∀ e : Expr, e.WellFormed (Guards.defined ρ) → e.All Canonical →
      (e.All (Faithful backend env ρ) ↔ e.All (Harmless ρ))
  | .constant value, _, _ => iff_of_true (faithful_constant value) trivial
  | .notOptimized src, wellFormed, canonical => by
    refine and_iff_and (all_iff models src wellFormed canonical.2) fun faithful => ?_
    exact iff_of_true (faithful_notOptimized faithful.here) trivial
  | .read root head index, wellFormed, canonical => by
    refine and_iff_and (and_congr (updates_all_iff models root head wellFormed.1 canonical.2.1)
      (all_iff models index wellFormed.2.1 canonical.2.2)) fun ⟨updates, faithful⟩ => ?_
    exact iff_of_true (faithful_read models wellFormed canonical.here updates faithful.here) trivial
  | .select cond trueExpr falseExpr, wellFormed, canonical => by
    obtain ⟨wellCond, wellTrue, wellFalse, boolean, same⟩ := wellFormed
    obtain ⟨-, canonicalCond, canonicalTrue, canonicalFalse⟩ := canonical
    refine and_iff_and (and_congr (all_iff models cond wellCond canonicalCond)
      (and_congr (all_iff models trueExpr wellTrue canonicalTrue) (all_iff models falseExpr wellFalse canonicalFalse)))
      fun ⟨faithfulCond, faithfulTrue, faithfulFalse⟩ => ?_
    exact iff_of_true (faithful_select boolean same faithfulCond.here faithfulTrue.here faithfulFalse.here) trivial
  | .concat left right, wellFormed, canonical => by
    refine and_iff_and (and_congr (all_iff models left wellFormed.1 canonical.2.1)
      (all_iff models right wellFormed.2 canonical.2.2)) fun ⟨faithfulLeft, faithfulRight⟩ => ?_
    exact iff_of_true (faithful_concat canonical.here faithfulLeft.here faithfulRight.here) trivial
  | .extract expr offset width, wellFormed, canonical => by
    obtain ⟨wellExpr, positive, within⟩ := wellFormed
    refine and_iff_and (all_iff models expr wellExpr canonical.2) fun faithful => ?_
    exact iff_of_true (faithful_extract positive within canonical.here faithful.here) trivial
  | .not expr, wellFormed, canonical => by
    refine and_iff_and (all_iff models expr wellFormed canonical.2) fun faithful => ?_
    exact iff_of_true (faithful_not faithful.here) trivial
  | .zext src width, wellFormed, canonical => by
    refine and_iff_and (all_iff models src wellFormed.1 canonical.2) fun faithful => ?_
    exact iff_of_true (faithful_zext canonical.2.here.positive canonical.here faithful.here) trivial
  | .sext src width, wellFormed, canonical => by
    refine and_iff_and (all_iff models src wellFormed.1 canonical.2) fun faithful => ?_
    exact iff_of_true (faithful_sext canonical.2.here.positive canonical.here faithful.here) trivial
  | .binary kind left right, wellFormed, canonical => by
    obtain ⟨wellLeft, wellRight, same, division⟩ := wellFormed
    refine and_iff_and (and_congr (all_iff models left wellLeft canonical.2.1)
      (all_iff models right wellRight canonical.2.2)) fun ⟨faithfulLeft, faithfulRight⟩ => ?_
    exact faithful_binary_iff same (fun isDivision => same ▸ (division isDivision).2) canonical.here faithfulLeft.here faithfulRight.here
  | .cmp kind left right, wellFormed, canonical => by
    obtain ⟨wellLeft, wellRight, same⟩ := wellFormed
    refine and_iff_and (and_congr (all_iff models left wellLeft canonical.2.1)
      (all_iff models right wellRight canonical.2.2)) fun ⟨faithfulLeft, faithfulRight⟩ => ?_
    exact iff_of_true (faithful_cmp same canonical.here faithfulLeft.here faithfulRight.here) trivial

theorem updates_all_iff (models : Models backend env ρ) (root : Array) :
    ∀ head : UpdateNode, head.WellFormed (Guards.defined ρ) root → head.All Canonical →
      (head.All (Faithful backend env ρ) ↔ head.All (Harmless ρ))
  | .null, _, _ => Iff.rfl
  | .node index value next, wellFormed, canonical => by
    obtain ⟨wellIndex, -, wellValue, -, wellNext⟩ := wellFormed
    exact and_congr (all_iff models index wellIndex canonical.1) (and_congr (all_iff models value wellValue canonical.2.1)
        (updates_all_iff models root next wellNext canonical.2.2))

end

def environment (ρ : Assignment) : Environment Array :=
  fun root _ range index => (root.initial ρ index.toNat).setWidth range

theorem models_environment (ρ : Assignment) : Models backend (environment ρ) ρ where
  symbolic := by
    intro root isSymbolic i
    have empty : root.constantValues = [] := List.isEmpty_iff.mp isSymbolic
    rw [environment, setWidth_eq, Symbolic.Array.initial, empty]
    rfl
  asserted := by
    intro _ root isConstant range size bounded t member
    obtain ⟨i, inRange, rfl⟩ := List.mem_map.mp member
    have inside := List.mem_range.mp inRange
    have index : Means (environment ρ) (bvConst32 root.domain i) (BitVec.ofNat root.domain i) := means_bvConst32 (by omega)
    have compared := Means.compare .eq (Means.select (.var root root.domain root.range) index)
      (means_constructConstant (root.constantValues[i]?.getD 0) range)
    suffices same : environment ρ root root.domain root.range (BitVec.ofNat root.domain i) = root.constantValues[i]?.getD 0 by
      rwa [same, Comparison.apply, beq_self_eq_true] at compared
    rw [environment, setWidth_eq, toNat_ofNat, Nat.mod_eq_of_lt (by omega), constantValue_eq_initial isConstant inside]

/-! ## An arithmetic shift that is too far -/

def operandsArray : Array := .symbolic 0 "operands" 2

def operand (index : Nat) : Expr := .read operandsArray .null (.constant (.alloc index 32))

def farBytes : Assignment := fun root index => BitVec.ofNat root.range (if index = 0 then 128 else 8)

theorem operand_wellFormed (index : Nat) : (operand index).WellFormed (Guards.defined farBytes) := by
  simp [operand, operandsArray, Symbolic.Array.isConstantArray, Symbolic.Array.isSymbolicArray, ConstantExpr.alloc]

theorem operand_canonical (index : Nat) : (operand index).All Canonical := by
  refine ⟨⟨?_, ?_, by decide, by decide, by decide⟩, trivial, ?_, ?_, trivial⟩
  · exact (by omega : 0 < 8)
  · exact (by omega : 8 < 2 ^ 32)
  · exact (by omega : 0 < 32)
  · exact (by omega : 32 < 2 ^ 32)

theorem shift_canonical (kind : BinaryKind) : (Expr.binary kind (operand 0) (operand 1)).All Canonical :=
  ⟨⟨(operand_canonical 0).here.positive, (operand_canonical 0).here.bounded, .inr (by decide)⟩, operand_canonical 0, operand_canonical 1⟩

theorem shift_wellFormed {kind : BinaryKind} (noDivision : kind.isDivision = false) :
    (Expr.binary kind (operand 0) (operand 1)).WellFormed (Guards.defined farBytes) :=
  ⟨operand_wellFormed 0, operand_wellFormed 1, rfl, by simp [noDivision]⟩

theorem operand_faithful (models : Models backend env farBytes) (index : Nat) : Faithful backend env farBytes (operand index) :=
  faithful_read models (operand_wellFormed index) (operand_canonical index).here trivial (faithful_constant _)

theorem translation_faithful_iff {e : Expr} (models : Models backend env ρ)
    (wellFormed : e.WellFormed (Guards.defined ρ)) (canonical : e.All Canonical) :
    (e.All (Harmless ρ) → Faithful backend env ρ e) ∧
      (e.All (Faithful backend env ρ) ↔ e.All (Harmless ρ)) :=
  have same := all_iff models e wellFormed canonical
  ⟨fun harmless => (same.mpr harmless).here, same⟩

theorem logicalShift_faithful :
    Faithful .z3 (environment farBytes) farBytes (.binary .lshr (operand 0) (operand 1)) := by
  refine (translation_faithful_iff (models_environment farBytes) (shift_wellFormed rfl)
    (shift_canonical .lshr)).1 ⟨trivial, ?_, ?_⟩
  · exact ⟨trivial, trivial, trivial⟩
  · exact ⟨trivial, trivial, trivial⟩

theorem farShift_unfaithful :
    ¬ ∃ backend : Backend, ∀ (env : Environment Array) (ρ : Assignment) (e : Expr),
      Models backend env ρ → e.WellFormed (Guards.defined ρ) → e.All Canonical →
        Faithful backend env ρ e := by
  intro ⟨backend, claim⟩
  have models : Models backend (environment farBytes) farBytes := models_environment farBytes
  have faithful := claim _ _ (.binary .ashr (operand 0) (operand 1)) models (shift_wellFormed rfl)
    (shift_canonical .ashr)
  have alike : Harmless farBytes (.binary .ashr (operand 0) (operand 1)) :=
    (faithful_binary_iff (show (operand 1).width = (operand 0).width from rfl)
      (fun division => by cases division) (shift_canonical .ashr).here (operand_faithful models 0)
      (operand_faithful models 1)).mp faithful
  obtain near | positive := alike
  · exact absurd near (by decide)
  · exact absurd positive (by decide)

end NeuroMerge.Builder
