import Mathlib.Data.Nat.Bitwise

/-!
# Bits of bounded words

Words are ordered by the highest bit in which they differ. Raising a word at a
clear bit gives the least word above it that agrees with it on the higher bits
and has this bit; lowering a word at a set bit gives the greatest word below it
that lacks the bit.
-/

namespace NeuroMerge.BitInterval

open BitVec

variable {w : Nat} {x y : BitVec w} {k : Nat}

/-! ## The highest differing bit -/

def AgreeAbove (x y : BitVec w) (k : Nat) : Prop := ∀ i, k < i → x.getLsbD i = y.getLsbD i

theorem AgreeAbove.symm (agree : AgreeAbove x y k) : AgreeAbove y x k :=
  fun i above => (agree i above).symm

theorem lt_of_bit (agree : AgreeAbove x y k) (clear : x.getLsbD k = false) (set : y.getLsbD k = true) : x < y := by
  exact Nat.lt_of_testBit k clear set agree

theorem exists_bit_of_lt (less : x < y) : ∃ k, x.getLsbD k = false ∧ y.getLsbD k = true ∧ AgreeAbove x y k := by
  have differ : (x ^^^ y).toNat ≠ 0 := by
    intro same
    have equal : x = y := by
      rw [toNat_xor, Nat.xor_eq_zero_iff] at same
      exact eq_of_toNat_eq same
    rw [equal] at less
    exact absurd less (BitVec.lt_irrefl y)
  obtain ⟨k, set, highest⟩ := Nat.exists_most_significant_bit differ
  have agree : AgreeAbove x y k := by
    intro i above
    simpa [BitVec.getLsbD] using highest i above
  have unequal : x.getLsbD k ≠ y.getLsbD k := by simpa [BitVec.getLsbD] using set
  cases clear : x.getLsbD k with
  | false => exact ⟨k, clear, by simpa [clear] using unequal.symm, agree⟩
  | true =>
    have other : y.getLsbD k = false := by simpa [clear] using unequal.symm
    exact absurd (lt_of_bit agree.symm other clear) (BitVec.lt_asymm less)

theorem exists_higher_bit (le : x ≤ y) (set : x.getLsbD k = true) (clear : y.getLsbD k = false) :
    ∃ i, k < i ∧ x.getLsbD i = false ∧ y.getLsbD i = true ∧ AgreeAbove x y i := by
  have less : x < y := by
    rcases Nat.lt_or_eq_of_le le with less | equal
    · exact less
    · rw [eq_of_toNat_eq equal, clear] at set
      cases set
  obtain ⟨i, clearLeft, setRight, agree⟩ := exists_bit_of_lt less
  refine ⟨i, ?_, clearLeft, setRight, agree⟩
  rcases Nat.lt_trichotomy k i with below | equal | above
  · exact below
  · rw [equal, clearLeft] at set
    cases set
  · rw [agree k above, clear] at set
    cases set

/-! ## Raising and lowering -/

def raise (x : BitVec w) (k : Nat) : BitVec w := (x ||| 1#w <<< k) &&& -(1#w <<< k)

def lower (x : BitVec w) (k : Nat) : BitVec w := (x &&& ~~~(1#w <<< k)) ||| (1#w <<< k - 1#w)

theorem getLsbD_single (within : k < w) (i : Nat) : (1#w <<< k).getLsbD i = decide (i = k) := by
  rw [← twoPow_eq, getLsbD_twoPow]
  simp [within, eq_comm]

theorem and_single_eq_zero_iff (x : BitVec w) (within : k < w) : x &&& 1#w <<< k = 0#w ↔ x.getLsbD k = false := by
  constructor
  · intro none
    have bit := congrArg (fun word : BitVec w => word.getLsbD k) none
    simpa [getLsbD_single within, within] using bit
  · intro clear
    apply eq_of_getLsbD_eq
    intro i inside
    rw [getLsbD_and, getLsbD_single within]
    by_cases equal : i = k
    · simp [equal, clear]
    · simp [equal]

theorem sub_single_eq (set : x.getLsbD k = true) : x - 1#w <<< k = x &&& ~~~(1#w <<< k) := by
  have within : k < w := lt_of_getLsbD set
  have disjoint : (x &&& ~~~(1#w <<< k)) &&& 1#w <<< k = 0#w := by
    rw [BitVec.and_assoc, BitVec.and_comm (~~~(1#w <<< k)), BitVec.and_not_self]
    simp
  have whole : (x &&& ~~~(1#w <<< k)) + 1#w <<< k = x := by
    rw [add_eq_or_of_and_eq_zero _ _ disjoint]
    apply eq_of_getLsbD_eq
    intro i inside
    rw [getLsbD_or, getLsbD_and, getLsbD_not, getLsbD_single within]
    by_cases equal : i = k
    · simp [equal, set]
    · simp [equal, inside]
  rw [BitVec.sub_eq_iff_eq_add, whole]

theorem getLsbD_neg_single (within : k < w) {i : Nat} (inside : i < w) : (-(1#w <<< k)).getLsbD i = decide (k ≤ i) := by
  rw [getLsbD_neg]
  simp only [getLsbD_single within, inside, decide_true, Bool.true_and, decide_eq_true_eq]
  rcases Nat.lt_trichotomy i k with below | equal | above
  · simp [Nat.ne_of_lt below, Nat.not_le_of_lt below, Nat.not_lt_of_lt below]
  · simp [equal]
  · simp [Nat.ne_of_gt above, Nat.le_of_lt above, above]

theorem getLsbD_raise (within : k < w) {i : Nat} (inside : i < w) :
    (raise x k).getLsbD i = (decide (i = k) || (decide (k < i) && x.getLsbD i)) := by
  unfold raise
  rw [getLsbD_and, getLsbD_or, getLsbD_single within, getLsbD_neg_single within inside]
  rcases Nat.lt_trichotomy i k with below | equal | above
  · simp [Nat.ne_of_lt below, Nat.not_lt_of_lt below, below]
  · simp [equal]
  · simp [Nat.ne_of_gt above, above, Nat.le_of_lt above]

theorem lower_eq_not_raise_not (x : BitVec w) (k : Nat) : lower x k = ~~~raise (~~~x) k := by
  unfold lower raise
  rw [BitVec.not_and, BitVec.not_or, BitVec.not_not, not_neg]

theorem raise_le (agree : AgreeAbove x y k) (set : y.getLsbD k = true) : raise x k ≤ y := by
  by_contra greater
  obtain ⟨i, clear, raised, -⟩ := exists_bit_of_lt (BitVec.not_le.mp greater)
  rw [getLsbD_raise (lt_of_getLsbD set) (lt_of_getLsbD raised)] at raised
  rcases Nat.lt_trichotomy i k with below | equal | above
  · simp [Nat.ne_of_lt below, Nat.not_lt_of_lt below] at raised
  · rw [equal, set] at clear
    cases clear
  · rw [← agree i above] at clear
    simp [Nat.ne_of_gt above, clear] at raised

theorem le_not_iff : x ≤ ~~~y ↔ y ≤ ~~~x := by
  rw [le_def, le_def, toNat_not, toNat_not]
  omega

theorem not_le_not_iff : ~~~x ≤ ~~~y ↔ y ≤ x := by
  rw [le_not_iff, BitVec.not_not]

theorem le_lower (agree : AgreeAbove x y k) (within : k < w) (clear : y.getLsbD k = false) : y ≤ lower x k := by
  rw [lower_eq_not_raise_not, le_not_iff]
  apply raise_le
  · intro i above
    rw [getLsbD_not, getLsbD_not, agree i above]
  · rw [getLsbD_not, clear]
    simp [within]

/-! ## Words of an interval -/

variable {a b c d : BitVec w} {n : Nat}

/-- From bit `n` on, the lower end `a` lacks no bit of `c` that raising it within `b` would
give it. -/
def Settled (a b c : BitVec w) (n : Nat) : Prop :=
  ∀ k, n ≤ k → a.getLsbD k = false → c.getLsbD k = true → b < raise a k

theorem Settled.step (settled : Settled a b c (n + 1))
    (here : a.getLsbD n = false → c.getLsbD n = true → b < raise a n) : Settled a b c n := by
  intro k above clear set
  rcases Nat.lt_or_eq_of_le above with higher | equal
  · exact settled k higher clear set
  · rw [← equal] at clear set ⊢
    exact here clear set

theorem Settled.mono {m : Nat} (settled : Settled a b c n) (higher : n ≤ m) : Settled a b c m :=
  fun k above => settled k (Nat.le_trans higher above)

/-- A word of `[a, b]` that lacks a bit of `a` makes up for it where `c` has no bit. -/
theorem Settled.exists_gain (settled : Settled a b c (k + 1)) (above : a ≤ x) (below : x ≤ b)
    (set : a.getLsbD k = true) (clear : x.getLsbD k = false) :
    ∃ i, k < i ∧ a.getLsbD i = false ∧ x.getLsbD i = true ∧ c.getLsbD i = false := by
  obtain ⟨i, higher, clearLow, setHigh, agree⟩ := exists_higher_bit above set clear
  refine ⟨i, higher, clearLow, setHigh, ?_⟩
  cases other : c.getLsbD i with
  | false => rfl
  | true =>
    have beyond : b < raise a i := settled i higher clearLow other
    have within : raise a i ≤ b := BitVec.le_trans (raise_le agree setHigh) below
    exact absurd beyond (BitVec.not_lt.mpr within)

/-- Where neither end can be raised, no disjunction falls below that of the lower ends. -/
theorem or_bit_of_settled (left : Settled a b c (k + 1)) (right : Settled c d a (k + 1))
    (leftAbove : a ≤ x) (leftBelow : x ≤ b) (rightAbove : c ≤ y) (rightBelow : y ≤ d)
    (agree : AgreeAbove (x ||| y) (a ||| c) k) (clear : (x ||| y).getLsbD k = false) : (a ||| c).getLsbD k = false := by
  rw [getLsbD_or, Bool.or_eq_false_iff] at clear ⊢
  constructor
  · cases set : a.getLsbD k with
    | false => rfl
    | true =>
      obtain ⟨i, higher, clearLow, setHigh, other⟩ := left.exists_gain leftAbove leftBelow set clear.1
      have same := agree i higher
      simp [clearLow, setHigh, other] at same
  · cases set : c.getLsbD k with
    | false => rfl
    | true =>
      obtain ⟨i, higher, clearLow, setHigh, other⟩ := right.exists_gain rightAbove rightBelow set clear.2
      have same := agree i higher
      simp [clearLow, setHigh, other] at same

theorem or_le_of_settled (left : Settled a b c 0) (right : Settled c d a 0)
    (leftAbove : a ≤ x) (leftBelow : x ≤ b) (rightAbove : c ≤ y) (rightBelow : y ≤ d) : a ||| c ≤ x ||| y := by
  by_contra greater
  obtain ⟨k, clear, set, agree⟩ := exists_bit_of_lt (BitVec.not_le.mp greater)
  rw [or_bit_of_settled (left.mono (Nat.zero_le _)) (right.mono (Nat.zero_le _)) leftAbove
    leftBelow rightAbove rightBelow agree clear] at set
  cases set

theorem raise_or_le (left : Settled a b c (k + 1)) (right : Settled c d a (k + 1))
    (set : c.getLsbD k = true) (leftAbove : a ≤ x) (leftBelow : x ≤ b) (rightAbove : c ≤ y)
    (rightBelow : y ≤ d) : raise a k ||| c ≤ x ||| y := by
  have within : k < w := lt_of_getLsbD set
  by_contra greater
  obtain ⟨j, clear, setHere, agree⟩ := exists_bit_of_lt (BitVec.not_le.mp greater)
  have inside : j < w := lt_of_getLsbD setHere
  rcases Nat.lt_or_ge k j with higher | lower
  · have same : ∀ i, k < i → (raise a k ||| c).getLsbD i = (a ||| c).getLsbD i := by
      intro i above
      rw [getLsbD_or, getLsbD_or]
      by_cases bound : i < w
      · rw [getLsbD_raise within bound]
        simp [Nat.ne_of_gt above, above]
      · rw [getLsbD_of_ge _ i (Nat.le_of_not_lt bound), getLsbD_of_ge a i (Nat.le_of_not_lt bound)]
    rw [same j higher] at setHere
    have agreeEnds : AgreeAbove (x ||| y) (a ||| c) j := by
      intro i above
      rw [agree i above, same i (Nat.lt_trans higher above)]
    rw [or_bit_of_settled (left.mono (by omega)) (right.mono (by omega)) leftAbove leftBelow
      rightAbove rightBelow agreeEnds clear] at setHere
    cases setHere
  · have shared : c.getLsbD j = true := by
      rcases Nat.lt_or_eq_of_le lower with below | equal
      · rw [getLsbD_or, getLsbD_raise within inside] at setHere
        simpa [Nat.ne_of_lt below, Nat.not_lt_of_lt below] using setHere
      · rw [equal, set]
    rw [getLsbD_or, Bool.or_eq_false_iff] at clear
    obtain ⟨i, above, lacking, gained, agreeUpper⟩ := exists_higher_bit rightAbove shared clear.2
    have bound : i < w := lt_of_getLsbD gained
    have whole := agree i above
    rw [getLsbD_or, getLsbD_or, gained, Bool.or_true, lacking, Bool.or_false, getLsbD_raise within bound] at whole
    rcases Nat.lt_trichotomy i k with below | equal | higher
    · simp [Nat.ne_of_lt below, Nat.not_lt_of_lt below] at whole
    · rw [equal, set] at lacking
      cases lacking
    · have other : a.getLsbD i = true := by
        simpa [Nat.ne_of_gt higher, higher] using whole.symm
      have beyond : d < raise c i := right i higher lacking other
      have reached : raise c i ≤ d := BitVec.le_trans (raise_le agreeUpper gained) rightBelow
      exact absurd beyond (BitVec.not_lt.mpr reached)

/-- From bit `n` on, the upper end `b` shares no bit with `d` that lowering it to no less than
`a` would clear. -/
def Sunk (a b d : BitVec w) (n : Nat) : Prop :=
  ∀ k, n ≤ k → b.getLsbD k = true → d.getLsbD k = true → lower b k < a

theorem Sunk.step (sunk : Sunk a b d (n + 1)) (here : b.getLsbD n = true → d.getLsbD n = true → lower b n < a) : Sunk a b d n := by
  intro k above set other
  rcases Nat.lt_or_eq_of_le above with higher | equal
  · exact sunk k higher set other
  · rw [← equal] at set other ⊢
    exact here set other

theorem Sunk.mono {m : Nat} (sunk : Sunk a b d n) (higher : n ≤ m) : Sunk a b d m :=
  fun k above => sunk k (Nat.le_trans higher above)

theorem Sunk.exists_loss (sunk : Sunk a b d (k + 1)) (above : a ≤ x) (below : x ≤ b)
    (clear : b.getLsbD k = false) (set : x.getLsbD k = true) :
    ∃ i, k < i ∧ b.getLsbD i = true ∧ x.getLsbD i = false ∧ d.getLsbD i = false ∧ AgreeAbove b x i := by
  obtain ⟨i, higher, clearLow, setHigh, agree⟩ := exists_higher_bit below set clear
  refine ⟨i, higher, setHigh, clearLow, ?_, agree.symm⟩
  cases other : d.getLsbD i with
  | false => rfl
  | true =>
    have beyond : lower b i < a := sunk i higher setHigh other
    have within : a ≤ lower b i := BitVec.le_trans above (le_lower agree.symm (lt_of_getLsbD setHigh) clearLow)
    exact absurd beyond (BitVec.not_lt.mpr within)

section

variable (left : Sunk a b d (k + 1)) (right : Sunk c d b (k + 1)) (leftAbove : a ≤ x)
  (leftBelow : x ≤ b) (rightAbove : c ≤ y) (rightBelow : y ≤ d) (agree : AgreeAbove (b ||| d) (x ||| y) k)
include left right leftAbove leftBelow rightAbove rightBelow agree

theorem Sunk.or_bit (clear : b.getLsbD k = false) : x.getLsbD k = false := by
  cases set : x.getLsbD k with
  | false => rfl
  | true =>
    obtain ⟨i, higher, setUpper, lost, other, same⟩ := left.exists_loss leftAbove leftBelow clear set
    have gained : y.getLsbD i = true := by
      have whole := agree i higher
      simpa [setUpper, lost] using whole
    obtain ⟨j, above, setOther, lostOther, none, -⟩ :=
      (right.mono (Nat.succ_le_succ (Nat.le_of_lt higher))).exists_loss rightAbove rightBelow other gained
    have whole := agree j (Nat.lt_trans higher above)
    have agreed := same j above
    simp [setOther, lostOther, ← agreed, none] at whole

/-- Where neither end can be lowered, no disjunction rises above that of the upper ends. -/
theorem or_bit_of_sunk (clear : (b ||| d).getLsbD k = false) : (x ||| y).getLsbD k = false := by
  rw [getLsbD_or, Bool.or_eq_false_iff] at clear ⊢
  constructor
  · exact left.or_bit right leftAbove leftBelow rightAbove rightBelow agree clear.1
  · rw [BitVec.or_comm b d, BitVec.or_comm x y] at agree
    exact right.or_bit left rightAbove rightBelow leftAbove leftBelow agree clear.2

end

theorem or_le_of_sunk (left : Sunk a b d 0) (right : Sunk c d b 0) (leftAbove : a ≤ x)
    (leftBelow : x ≤ b) (rightAbove : c ≤ y) (rightBelow : y ≤ d) : x ||| y ≤ b ||| d := by
  by_contra greater
  obtain ⟨k, clear, set, agree⟩ := exists_bit_of_lt (BitVec.not_le.mp greater)
  rw [or_bit_of_sunk (left.mono (Nat.zero_le _)) (right.mono (Nat.zero_le _)) leftAbove leftBelow
    rightAbove rightBelow agree clear] at set
  cases set

theorem getLsbD_lower (within : k < w) {i : Nat} (inside : i < w) :
    (lower x k).getLsbD i = (decide (i < k) || (decide (k < i) && x.getLsbD i)) := by
  rw [lower_eq_not_raise_not, getLsbD_not, getLsbD_raise within inside, getLsbD_not]
  rcases Nat.lt_trichotomy i k with below | equal | above
  · simp [inside, below, Nat.ne_of_lt below, Nat.not_lt_of_lt below]
  · simp [equal]
  · simp [inside, above, Nat.ne_of_gt above, Nat.not_lt_of_lt above]

theorem lower_lt (set : x.getLsbD k = true) : lower x k < x := by
  have within : k < w := lt_of_getLsbD set
  apply lt_of_bit _ _ set
  · intro i above
    by_cases inside : i < w
    · rw [getLsbD_lower within inside]
      simp [above, Nat.not_lt_of_lt above]
    · rw [getLsbD_of_ge _ i (Nat.le_of_not_lt inside), getLsbD_of_ge x i (Nat.le_of_not_lt inside)]
  · rw [getLsbD_lower within within]
    simp

theorem lt_raise (within : k < w) (clear : x.getLsbD k = false) : x < raise x k := by
  have lowered : lower (~~~x) k < ~~~x := lower_lt (by rw [getLsbD_not, clear]; simp [within])
  rw [lower_eq_not_raise_not, BitVec.not_not] at lowered
  exact BitVec.not_le.mp fun above => BitVec.not_le.mpr lowered (not_le_not_iff.mpr above)

theorem or_le_lower_or (left : Sunk a b d (k + 1)) (right : Sunk c d b (k + 1))
    (set : d.getLsbD k = true) (leftAbove : a ≤ x) (leftBelow : x ≤ b) (rightAbove : c ≤ y)
    (rightBelow : y ≤ d) : x ||| y ≤ lower b k ||| d := by
  have within : k < w := lt_of_getLsbD set
  have same : ∀ i, k < i → (lower b k ||| d).getLsbD i = (b ||| d).getLsbD i := by
    intro i above
    rw [getLsbD_or, getLsbD_or]
    by_cases bound : i < w
    · rw [getLsbD_lower within bound]
      simp [Nat.not_lt_of_lt above, above]
    · rw [getLsbD_of_ge _ i (Nat.le_of_not_lt bound), getLsbD_of_ge b i (Nat.le_of_not_lt bound)]
  by_contra greater
  obtain ⟨j, clear, setHere, agree⟩ := exists_bit_of_lt (BitVec.not_le.mp greater)
  have inside : j < w := lt_of_getLsbD setHere
  rcases Nat.lt_trichotomy j k with below | equal | higher
  · rw [getLsbD_or, getLsbD_lower within inside] at clear
    simp [below] at clear
  · rw [equal, getLsbD_or, set, Bool.or_true] at clear
    cases clear
  · rw [same j higher] at clear
    have agreeEnds : AgreeAbove (b ||| d) (x ||| y) j := by
      intro i above
      rw [← agree i above, same i (Nat.lt_trans higher above)]
    rw [or_bit_of_sunk (left.mono (by omega)) (right.mono (by omega)) leftAbove leftBelow
      rightAbove rightBelow agreeEnds clear] at setHere
    cases setHere

end NeuroMerge.BitInterval
