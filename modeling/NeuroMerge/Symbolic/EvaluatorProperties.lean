import NeuroMerge.Symbolic.EqualityReads
import NeuroMerge.Symbolic.Evaluator
import NeuroMerge.Symbolic.Folding

/-!
# What evaluating preserves

An expression evaluates to one of the same value under every assignment that extends the
bytes, and to a constant where all divisors are other than zero.
-/

namespace NeuroMerge.Symbolic

open NeuroMerge.Symbolic.Expr

variable {guards : Guards} {ρ : Assignment} {o : Options} {fuel : Nat} {a : PartialAssignment} {e e' : Expr} {kids : List Expr}

namespace PartialAssignment

/-- The assignment has the given bytes, and zero elsewhere unless that is left open. -/
structure Extends (ρ : Assignment) (a : PartialAssignment) : Prop where
  bound : ∀ {array : Array} {index : Nat} {byte : BitVec 8}, a.byte? array index = some byte →
    ρ array index = byte.setWidth array.range
  free : a.allowFreeValues = false → ∀ {array : Array} {index : Nat},
    a.byte? array index = none → ρ array index = 0#(array.range)

def toAssignment (a : PartialAssignment) : Assignment :=
  fun array index => ((a.byte? array index).getD 0).setWidth array.range

theorem extends_toAssignment (a : PartialAssignment) : Extends a.toAssignment a where
  bound found := by rw [toAssignment, found, Option.getD_some]
  free _ _ _ missing := by
    rw [toAssignment, missing]
    simp

end PartialAssignment

theorem Expr.reads_of_mem_updates {root : Array} {head : UpdateNode} {index kid : Expr}
    (member : kid ∈ head.kids) : kid.reads ⊆ (Expr.read root head index).reads := by
  intro re inKid
  rw [reads, head.reads_eq]
  exact List.mem_cons_of_mem _ (List.mem_append_right _ (List.mem_flatMap.mpr ⟨kid, member, inKid⟩))

def Expr.Narrow (e : Expr) : Prop := ∀ re ∈ e.reads, re.root.domain ≤ 32

theorem Expr.Narrow.mono (narrow : e.Narrow) (fewer : e'.reads ⊆ e.reads) : e'.Narrow :=
  fun re member => narrow re (fewer member)

namespace ExprEvaluator

section Agreement

theorem alloc_toNat {byte : BitVec 8} (w : Nat) : ConstantExpr.alloc byte.toNat w = ⟨w, byte.setWidth w⟩ := by
  rw [ConstantExpr.alloc, BitVec.ofNat_toNat]

variable {root : Array} {i : BitVec root.domain}

theorem denotes_index : Denotes guards ρ (.constant (.alloc i.toNat root.domain)) i := by
  rw [ConstantExpr.alloc, BitVec.ofNat_toNat, BitVec.setWidth_eq]
  exact .constant ⟨root.domain, i⟩

theorem evaluateByte_agrees (allowed : o.Allows guards ρ) (extended : a.Extends ρ) (narrow : root.domain ≤ 64)
    (within : root.isConstantArray → guards.readable root (.constant (.alloc i.toNat root.domain)))
    (outside : root.constantValues[i.toNat]? = none) : Builds guards ρ (root.initial ρ i.toNat) (a.evaluateByte o fuel root i.toNat) := by
  have initial : root.initial ρ i.toNat = ρ root i.toNat := by
    rw [Array.initial, outside, Option.getD_none]
  rw [PartialAssignment.evaluateByte]
  split
  · rename_i byte found
    rw [alloc_toNat, initial, extended.bound found]
    exact .constant _
  · rename_i missing
    split
    · exact ReadExpr.create_builds allowed trivial denotes_index narrow within
    · rename_i isClosed
      rw [initial, extended.free (by simpa using isClosed) missing]
      exact .alloc 0

theorem evalRead_agrees (allowed : o.Allows guards ρ) (extended : a.Extends ρ)
    {visit : Expr → Except Fault Expr} (narrow : root.domain ≤ 64)
    (within : root.isConstantArray →
      guards.readable root (.constant (.alloc i.toNat root.domain))) :
    ∀ {head : UpdateNode}, head.WellFormed guards root →
      (∀ kid ∈ head.kids, Satisfies (Excused guards ρ) (Agrees guards ρ kid) (visit kid)) →
      Builds guards ρ (head.eval ρ root i) (evalRead o a visit fuel root i.toNat head)
  | .null, _, _ => by
    rw [evalRead]
    split
    · rename_i value found
      have initial : UpdateNode.null.eval ρ root i = value := by
        rw [UpdateNode.eval, Array.initial, found, Option.getD_some]
      rw [initial]
      exact .constant _
    · rename_i outside
      exact evaluateByte_agrees allowed extended narrow within outside
  | .node position value next, wellFormed, visits => by
    have wellFormedNode := wellFormed
    obtain ⟨-, positionWidth, -, valueWidth, wellFormedNext⟩ := wellFormed
    apply Satisfies.bind (visits position (.head _))
    intro ui agrees
    split
    · rename_i ce isConstant
      rw [constant?_eq_some] at isConstant
      subst isConstant
      rw [Agrees, positionWidth] at agrees
      obtain rfl := agrees.of_constant
      rw [UpdateNode.eval]
      by_cases same : position.eval ρ root.domain = i
      · rw [if_pos same, if_pos (congrArg BitVec.toNat same)]
        apply Satisfies.mono (visits value (.tail _ (.head _)))
        intro e' agrees
        rwa [Agrees, valueWidth] at agrees
      · rw [if_neg same, if_neg fun eq => same (BitVec.eq_of_toNat_eq eq)]
        exact evalRead_agrees allowed extended narrow within wellFormedNext fun kid member =>
          visits kid (.tail _ (.tail _ member))
    · exact ReadExpr.create_builds allowed wellFormedNode denotes_index narrow within

theorem post_agrees (agrees : Agrees guards ρ e e') : Agrees guards ρ e (post e') := by
  cases e' with
  | notOptimized src => exact Denotes.notOptimized_iff.mp agrees
  | _ => exact agrees

theorem doChildren_agrees (allowed : o.Allows guards ρ) (extensional : guards.Extensional ρ)
    {visit : Expr → Except Fault Expr} (wellFormed : e.WellFormed guards) (compound : e.constant? = none)
    (visits : ∀ kid ∈ e.kids, Satisfies (Excused guards ρ) (Agrees guards ρ kid) (visit kid)) :
    Satisfies (Excused guards ρ) (Agrees guards ρ e) (doChildren o visit fuel e) := by
  apply Satisfies.bind (.mapM (Agrees guards ρ) visits)
  intro kids agree
  have rebuilds : Satisfies (Excused guards ρ) (Agrees guards ρ e) (if kids = e.kids then pure e else e.rebuild o fuel kids) := by
    split
    · exact wellFormed.denotes
    · exact rebuild_builds allowed agree.length_eq.symm compound (withKids_agrees extensional wellFormed agree)
  apply Satisfies.bind rebuilds
  intro rebuilt agrees
  exact post_agrees agrees

theorem protectedDivisor_agrees {right visited : Expr} (wellFormed : right.WellFormed guards)
    (agrees : Agrees guards ρ right visited) : Agrees guards ρ right (protectedDivisor right visited) := by
  rw [protectedDivisor]
  split
  · split
    · exact wellFormed.denotes
    · exact agrees
  · exact agrees

theorem protectedDivOperation_agrees (allowed : o.Allows guards ρ)
    (extensional : guards.Extensional ρ) {visit : Expr → Except Fault Expr} {kind : BinaryKind}
    {left right : Expr} (wellFormed : (binary kind left right).WellFormed guards)
    (visits : ∀ kid ∈ (binary kind left right).kids,
      Satisfies (Excused guards ρ) (Agrees guards ρ kid) (visit kid)) :
    Satisfies (Excused guards ρ) (Agrees guards ρ (.binary kind left right))
      (protectedDivOperation o visit fuel (.binary kind left right) left right) := by
  apply Satisfies.bind (visits left (.head _))
  intro left' agreesLeft
  apply Satisfies.bind (visits right (.tail _ (.head _)))
  intro visited agreesVisited
  have agreesRight := protectedDivisor_agrees (wellFormed.of_mem_kids right (.tail _ (.head _))) agreesVisited
  dsimp only
  split
  · apply rebuild_builds allowed (Eq.refl 2) rfl
    exact withKids_agrees extensional wellFormed (.cons agreesLeft (.cons agreesRight .nil))
  · exact wellFormed.denotes

theorem visit_agrees (allowed : o.Allows guards ρ) (extensional : guards.Extensional ρ) (extended : a.Extends ρ) (fuel : Nat) :
    ∀ e : Expr, e.WellFormed guards → e.Narrow → Satisfies (Excused guards ρ) (Agrees guards ρ e) (visit o a fuel e) := by
  induction fuel with
  | zero =>
    intro e _ _
    exact excused_outOfFuel
  | succ fuel ih =>
    intro e wellFormed narrow
    have visits (kid) (member : kid ∈ e.kids) :
        Satisfies (Excused guards ρ) (Agrees guards ρ kid) (visit o a fuel kid) :=
      ih kid (wellFormed.of_mem_kids kid member) (narrow.mono (reads_of_mem_kids member))
    rw [visit.eq_def]
    dsimp only
    split
    · exact wellFormed.denotes
    · rename_i compound
      have isCompound : e.constant? = none := by simpa using compound
      split
      · apply rebuild_builds allowed rfl isCompound
        rw [withKids_kids]
        exact wellFormed.denotes
      · split
        · rename_i root head index _
          have parts := wellFormed
          obtain ⟨updates, indexWellFormed, width, narrow64, within⟩ := parts
          apply Satisfies.bind (visits index (.head _))
          intro v agreesIndex
          split
          · rename_i ce isConstant
            rw [constant?_eq_some] at isConstant
            subst isConstant
            have agreesConstant := agreesIndex
            rw [Agrees, width] at agreesIndex
            obtain rfl := agreesIndex.of_constant
            apply require_satisfies (fun _ => ?_) fun wide => absurd narrow64 wide
            have narrow32 : root.domain ≤ 32 := narrow ⟨root, head, index⟩ (.head _)
            have small : (index.eval ρ root.domain).toNat < 2 ^ 32 :=
              lt_of_lt_of_le (BitVec.isLt _) (Nat.pow_le_pow_right (by omega) narrow32)
            rw [Nat.mod_eq_of_lt small]
            apply (evalRead_agrees allowed extended narrow64 _ updates _).of_eq (by simp)
            · intro isConstant
              rw [ConstantExpr.alloc, BitVec.ofNat_toNat, BitVec.setWidth_eq]
              exact extensional.readable width agreesConstant (within isConstant)
            · intro kid member
              exact ih kid (updates.of_mem_kids kid member) (narrow.mono (reads_of_mem_updates member))
          · exact doChildren_agrees allowed extensional wellFormed isCompound visits
        · split
          · exact protectedDivOperation_agrees allowed extensional wellFormed visits
          · exact doChildren_agrees allowed extensional wellFormed isCompound visits
        · exact doChildren_agrees allowed extensional wellFormed isCompound visits

end Agreement

end ExprEvaluator

def PartialAssignment.Bound (ρ : Assignment) (a : PartialAssignment) (e : Expr) : Prop :=
  a.allowFreeValues = true → ∀ re ∈ e.reads,
    re.root.constantValues[(re.index.eval ρ re.root.domain).toNat]? = none →
    (a.byte? re.root (re.index.eval ρ re.root.domain).toNat).isSome = true

theorem PartialAssignment.Bound.mono (bound : a.Bound ρ e) (fewer : e'.reads ⊆ e.reads) : a.Bound ρ e' :=
  fun isFree re member => bound isFree re (fewer member)

namespace ExprEvaluator

section Constancy

theorem evalRead_constant {visit : Expr → Except Fault Expr} {root : Array} {index : Nat}
    (bound : a.allowFreeValues = true → root.constantValues[index]? = none →
      (a.byte? root index).isSome = true) :
    ∀ head : UpdateNode, (∀ kid ∈ head.kids, BuildsConstant (visit kid)) →
      BuildsConstant (evalRead o a visit fuel root index head)
  | .null, _ => by
    rw [evalRead]
    split
    · rfl
    · rename_i outside
      rw [PartialAssignment.evaluateByte]
      split
      · rfl
      · rename_i missing
        split
        · rename_i isFree
          have found := bound isFree outside
          simp [missing] at found
        · rfl
  | .node position value next, constants => by
    apply Satisfies.bind (constants position (.head _))
    intro ui isConstant
    obtain ⟨ce, found⟩ := Option.isSome_iff_exists.mp isConstant
    rw [found]
    dsimp only
    split
    · exact constants value (.tail _ (.head _))
    · exact evalRead_constant bound next fun kid member =>
        constants kid (.tail _ (.tail _ member))

theorem doChildren_constant {visit : Expr → Except Fault Expr} (notRead : ∀ root head index, e ≠ .read root head index)
    (unfolded : ¬ ∀ kid ∈ e.kids, kid.constant?.isSome = true) (constants : ∀ kid ∈ e.kids, BuildsConstant (visit kid)) :
    BuildsConstant (doChildren o visit fuel e) := by
  apply Satisfies.bind (.mapM_all constants)
  intro kids areConstant
  have changed : kids ≠ e.kids := fun same => unfolded (same ▸ areConstant)
  rw [if_neg changed, map_eq_pure_bind]
  apply Satisfies.bind (rebuild_constant notRead areConstant)
  intro rebuilt either
  cases either with
  | inl isConstant =>
    obtain ⟨c, found⟩ := Option.isSome_iff_exists.mp isConstant
    rw [constant?_eq_some] at found
    subst found
    rfl
  | inr marked =>
    obtain ⟨src, c, -, rfl⟩ := marked
    rfl

theorem protectedDivOperation_constant {visit : Expr → Except Fault Expr} {kind : BinaryKind}
    {left right : Expr} (wellFormed : right.WellFormed (.safe o ρ))
    (unfolded : ¬ ∀ kid ∈ [left, right], kid.constant?.isSome = true) (nonzero : right.eval ρ right.width ≠ 0#(right.width))
    (constants : ∀ kid ∈ [left, right], BuildsConstant (visit kid))
    (agrees : Satisfies (fun _ => True) (Agrees (.safe o ρ) ρ right) (visit right)) :
    BuildsConstant (protectedDivOperation o visit fuel (.binary kind left right) left right) := by
  apply Satisfies.bind (constants left (.head _))
  intro left' isConstantLeft
  apply Satisfies.bind ((constants right (.tail _ (.head _))).and agrees)
  intro visited facts
  obtain ⟨isConstant, agreesVisited⟩ := facts
  have divisor : protectedDivisor right visited = visited := by
    obtain ⟨ce, found⟩ := Option.isSome_iff_exists.mp isConstant
    rw [constant?_eq_some] at found
    subst found
    obtain rfl := agreesVisited.of_constant
    exact if_neg (by simpa [ConstantExpr.isZero] using nonzero)
  rw [divisor]
  have areConstant : ∀ kid ∈ [left', visited], kid.constant?.isSome = true := by
    simp [isConstantLeft, isConstant]
  have changed : left' ≠ left ∨ visited ≠ right := by
    by_contra neither
    push Not at neither
    obtain ⟨rfl, rfl⟩ := neither
    exact unfolded areConstant
  rw [if_pos changed]
  have notRead (root head index) : binary kind left right ≠ .read root head index := (by simp)
  apply (rebuild_constant notRead areConstant).mono
  intro rebuilt either
  cases either with
  | inl isConstant => exact isConstant
  | inr marked =>
    obtain ⟨_, _, same, -⟩ := marked
    cases same

theorem visit_constant (extended : a.Extends ρ) (fuel : Nat) :
    ∀ e : Expr, e.WellFormed (.safe o ρ) → e.Narrow → e.plain = true → a.Bound ρ e → BuildsConstant (visit o a fuel e) := by
  induction fuel with
  | zero =>
    intro e _ _ _ _
    trivial
  | succ fuel ih =>
    intro e wellFormed narrow isPlain bound
    have agrees (kid) (member : kid ∈ e.kids) :=
      visit_agrees Guards.allows_safe Guards.extensional_safe extended fuel kid
        (wellFormed.of_mem_kids kid member) (narrow.mono (reads_of_mem_kids member))
    have constants (kid) (member : kid ∈ e.kids) : BuildsConstant (visit o a fuel kid) :=
      have fewer := reads_of_mem_kids member
      ih kid (wellFormed.of_mem_kids kid member) (narrow.mono fewer) (plain_of_mem_kids isPlain kid member) (bound.mono fewer)
    rw [visit.eq_def]
    dsimp only
    split
    · assumption
    · split
      · rename_i folded
        apply (rebuild_constant _ folded.2).mono
        · intro rebuilt either
          cases either with
          | inl isConstant => exact isConstant
          | inr marked =>
            obtain ⟨src, c, same, -⟩ := marked
            subst same
            have isConstant := folded.2 src (.head _)
            simp only [Expr.plain, Bool.and_eq_true, Option.isNone_iff_eq_none] at isPlain
            simp [isPlain.1] at isConstant
        · intro root head index same
          subst same
          exact absurd folded.1 (by simp [isRead])
      · rename_i unfolded
        split
        · rename_i root head index _
          obtain ⟨updates, -, width, narrow64, -⟩ := wellFormed
          apply Satisfies.bind ((constants index (.head _)).and (agrees index (.head _)))
          intro v facts
          obtain ⟨isConstant, agreesIndex⟩ := facts
          obtain ⟨ce, found⟩ := Option.isSome_iff_exists.mp isConstant
          rw [constant?_eq_some] at found
          subst found
          rw [Agrees, width] at agreesIndex
          obtain rfl := agreesIndex.of_constant
          apply require_satisfies (fun _ => ?_) fun _ => trivial
          have narrow32 : root.domain ≤ 32 := narrow ⟨root, head, index⟩ (.head _)
          have small : (index.eval ρ root.domain).toNat < 2 ^ 32 :=
            lt_of_lt_of_le (BitVec.isLt _) (Nat.pow_le_pow_right (by omega) narrow32)
          rw [Nat.mod_eq_of_lt small]
          apply evalRead_constant fun isFree => bound isFree ⟨root, head, index⟩ (.head _)
          intro kid member
          have fewer : kid.reads ⊆ (Expr.read root head index).reads := reads_of_mem_updates member
          simp only [Expr.plain, Bool.and_eq_true] at isPlain
          exact ih kid (updates.of_mem_kids kid member) (narrow.mono fewer)
            (UpdateNode.plain_of_mem_kids isPlain.2 kid member) (bound.mono fewer)
        · rename_i kind left right _
          split
          · rename_i isDivision
            obtain ⟨-, wellFormedRight, -, division⟩ := wellFormed
            apply protectedDivOperation_constant wellFormedRight (fun folded => unfolded ⟨rfl, folded⟩) (division isDivision).2 constants
            exact (agrees right (.tail _ (.head _))).weaken fun _ _ => trivial
          · exact doChildren_constant (by rintro _ _ _ ⟨⟩) (fun folded => unfolded ⟨rfl, folded⟩) constants
        · rename_i notRead _
          have notReading : ∀ root head index, e ≠ .read root head index := notRead
          apply doChildren_constant notReading _ constants
          intro folded
          apply unfolded ⟨_, folded⟩
          cases e with
          | read root head index => exact absurd rfl (notReading root head index)
          | _ => rfl

end Constancy

section Division

theorem evalRead_undivided {visit : Expr → Except Fault Expr} (root : Array) (index : Nat) :
    ∀ head : UpdateNode, (∀ kid ∈ head.kids, Undivided (visit kid)) →
      Undivided (evalRead o a visit fuel root index head)
  | .null, _ => by
    rw [evalRead]
    split
    · exact .pure _
    · rw [PartialAssignment.evaluateByte]
      split
      · exact .pure _
      · exact .ite (ReadExpr.create_undivided _ _ _) (.pure _)
  | .node position value next, undivided => by
    apply (undivided position (.head _)).bind
    intro ui
    split
    · apply Undivided.ite (undivided value (.tail _ (.head _)))
      exact evalRead_undivided root index next fun kid member =>
        undivided kid (.tail _ (.tail _ member))
    · exact ReadExpr.create_undivided _ _ _

theorem mapM_undivided {visit : Expr → Except Fault Expr}
    (undivided : ∀ kid ∈ kids, Undivided (visit kid)) : Undivided (kids.mapM visit) :=
  (Satisfies.mapM_all undivided).mono fun _ _ => trivial

theorem doChildren_undivided {visit : Expr → Except Fault Expr}
    (notDivision : ∀ kind left right, e = .binary kind left right → kind.isDivision = false)
    (undivided : ∀ kid ∈ e.kids, Undivided (visit kid)) : Undivided (doChildren o visit fuel e) := by
  apply (mapM_undivided undivided).bind
  intro kids
  apply Undivided.bind _ fun _ => .pure _
  apply Undivided.ite (.pure e)
  apply rebuild_undivided
  intro kind left right same isDivision
  rw [notDivision kind left right same] at isDivision
  exact absurd isDivision Bool.false_ne_true

theorem protectedDivisor_nonzero {right visited : Expr} (literal : ∀ c, right = .constant c → c.isZero = false) (c : ConstantExpr)
    (isConstant : protectedDivisor right visited = .constant c) : c.isZero = false := by
  rw [protectedDivisor] at isConstant
  split at isConstant
  · rename_i ce found
    split at isConstant
    · exact literal c isConstant
    · rename_i nonzero
      rw [constant?_eq_some] at found
      rw [found, Expr.constant.injEq] at isConstant
      subst isConstant
      simpa using nonzero
  · rename_i found
    rw [isConstant] at found
    cases found

/-- If no divisor is a literal zero, evaluating does not divide by zero. -/
theorem visit_undivided (literal : ∀ c, guards.divisible (.constant c) → c.isZero = false)
    (fuel : Nat) : ∀ e : Expr, e.WellFormed guards → Undivided (visit o a fuel e) := by
  induction fuel with
  | zero =>
    intro e _
    exact .outOfFuel
  | succ fuel ih =>
    intro e wellFormed
    have undivided (kid) (member : kid ∈ e.kids) : Undivided (visit o a fuel kid) := ih kid (wellFormed.of_mem_kids kid member)
    have literalDivisor {kind left right} (same : e = .binary kind left right)
        (isDivision : kind.isDivision = true) (c) (isConstant : right = .constant c) :
        c.isZero = false := by
      subst same isConstant
      exact literal c (wellFormed.2.2.2 isDivision).2
    rw [visit.eq_def]
    dsimp only
    split
    · exact .pure _
    · split
      · apply rebuild_undivided
        intro kind left right same isDivision l c kids
        have kidsBinary : e.kids = [left, right] := by rw [same]; rfl
        rw [kidsBinary] at kids
        simp only [List.cons.injEq, and_true] at kids
        exact literalDivisor same isDivision c kids.2
      · split
        · rename_i root head index _ _
          apply (undivided index (.head _)).bind
          intro v
          split
          · apply Undivided.require
            exact evalRead_undivided root _ head fun kid member =>
              ih kid (wellFormed.1.of_mem_kids kid member)
          · exact doChildren_undivided (fun _ _ _ same => nomatch same) undivided
        · rename_i kind left right _ _
          split
          · rename_i isDivision
            apply (undivided left (.head _)).bind
            intro left'
            apply (undivided right (.tail _ (.head _))).bind
            intro visited
            apply Undivided.ite _ (.pure _)
            apply rebuild_undivided
            intro kind' left'' right'' same isDivision' l c kids
            simp only [List.cons.injEq, and_true] at kids
            exact protectedDivisor_nonzero (literalDivisor rfl isDivision) c kids.2
          · rename_i notDivision
            apply doChildren_undivided _ undivided
            intro kind' left' right' same
            cases same
            simpa using notDivision
        · rename_i notBinary
          exact doChildren_undivided (fun kind left right same => absurd same (notBinary kind left right)) undivided

end Division

section Termination

theorem evaluateByte_ends (array : Array) (index : Nat) : Ends fun fuel => a.evaluateByte o fuel array index := by
  simp only [PartialAssignment.evaluateByte]
  split
  · exact .pure _
  · exact .ite (fun _ => ReadExpr.create_ends _ _ _) fun _ => .pure _

theorem evalRead_ends {visit : Nat → Expr → Except Fault Expr} (root : Array) (index : Nat) :
    ∀ head : UpdateNode, (∀ kid ∈ head.kids, Ends fun fuel => visit fuel kid) →
      Ends fun fuel => evalRead o a (visit fuel) fuel root index head
  | .null, _ => by
    simp only [evalRead]
    split
    · exact .pure _
    · exact evaluateByte_ends root index
  | .node position value next, ends => by
    apply (ends position (.head _)).bind
    intro ui _
    split
    · apply Halts.ite (fun _ => ends value (.tail _ (.head _)))
      intro _
      exact evalRead_ends root index next fun kid member => ends kid (.tail _ (.tail _ member))
    · exact ReadExpr.create_ends _ _ _

theorem length_mapM {visit : Nat → Expr → Except Fault Expr} (returned : Returns (fun fuel => e.kids.mapM (visit fuel)) kids) :
    kids.length = e.kids.length := by
  have related : List.Forall₂ (fun _ _ => True) e.kids kids := returned.satisfies fun fuel => .mapM (fun _ _ => True) fun kid _ =>
      .of_forall (fun _ _ => trivial) fun _ _ => trivial
  exact related.length_eq.symm

theorem doChildren_ends {visit : Nat → Expr → Except Fault Expr} (compound : e.constant? = none)
    (ends : ∀ kid ∈ e.kids, Ends fun fuel => visit fuel kid) : Ends fun fuel => doChildren o (visit fuel) fuel e := by
  apply (Halts.mapM ends).bind
  intro kids returned
  apply Halts.map
  apply Halts.ite (fun _ => .pure e)
  intro _
  exact rebuild_ends (length_mapM returned) compound

theorem protectedDivOperation_ends {visit : Nat → Expr → Except Fault Expr} (kind : BinaryKind)
    {left right : Expr} (ends : ∀ kid ∈ [left, right], Ends fun fuel => visit fuel kid) :
    Ends fun fuel => protectedDivOperation o (visit fuel) fuel (.binary kind left right) left right := by
  apply (ends left (.head _)).bind
  intro left' _
  apply (ends right (.tail _ (.head _))).bind
  intro visited _
  exact .ite (fun _ => kind.create_ends _ _) fun _ => .pure _

theorem visit_ends (e : Expr) : Ends fun fuel => visit o a fuel e := by
  apply Halts.succ
  apply Halts.ite (fun _ => .pure e)
  intro notConstant
  have compound : e.constant? = none := by simpa using notConstant
  apply Halts.ite fun _ => rebuild_ends rfl compound
  intro _
  have ends (kid) (member : kid ∈ e.kids) : Ends fun fuel => visit o a fuel kid :=
    have fewer := e.nodes_of_mem_kids member
    visit_ends kid
  match e with
  | .read root head index =>
    apply (ends index (.head _)).bind
    intro v _
    split
    · apply Ends.require
      apply evalRead_ends
      intro kid member
      have fewer := head.nodes_of_mem_kids member
      have whole : (Expr.read root head index).nodes = index.nodes + head.nodes + 1 := by
        rw [nodes]
      exact visit_ends kid
    · exact doChildren_ends compound ends
  | .binary kind left right =>
    apply Halts.ite (fun _ => protectedDivOperation_ends kind ends)
    intro _
    exact doChildren_ends compound ends
  | .constant _ | .notOptimized _ | .select _ _ _ | .concat _ _ | .extract _ _ _ | .not _
  | .zext _ _ | .sext _ _ | .cmp _ _ _ => exact doChildren_ends compound ends
termination_by e.nodes
decreasing_by all_goals omega

end Termination

end ExprEvaluator

def Guards.literal (o : Options) (ρ : Assignment) : Guards where
  readable := (Guards.bounded o ρ).readable
  divisible d := ∀ c, d = .constant c → c.isZero = false

theorem Guards.allows_literal : o.Allows (Guards.literal o ρ) ρ :=
  fun enabled _ _ readable => readable enabled

theorem Guards.stricter_literal : (Guards.literal o ρ).Stricter (Guards.bounded o ρ) where
  readable := id
  divisible _ := trivial

structure Expr.Evaluable (o : Options) (e : Expr) : Prop where
  literal : ∀ ρ, e.WellFormed (.literal o ρ)
  narrow : e.Narrow

namespace Expr.Evaluable

theorem wellFormed (evaluable : e.Evaluable o) (ρ : Assignment) : e.WellFormed (.bounded o ρ) :=
  Expr.WellFormed.mono Guards.stricter_literal (evaluable.literal ρ)

theorem constant (c : ConstantExpr) : (Expr.constant c).Evaluable o :=
  ⟨fun _ => trivial, nofun⟩

variable {neg : Expr}

theorem negated_eval (evaluable : e.Evaluable o) (boolean : e.width = 1)
    (negated : createIsZero o fuel e = .ok neg) (ρ : Assignment) : Denotes (.literal o ρ) ρ neg (~~~ e.eval ρ 1) := by
  have builds : Satisfies _ _ (createIsZero o fuel e) := createIsZero_builds Guards.allows_literal ⟨evaluable.literal ρ, boolean, rfl⟩
  exact builds.elim negated

theorem negated (evaluable : e.Evaluable o) (boolean : e.width = 1) (negated : createIsZero o fuel e = .ok neg) : neg.Evaluable o where
  literal ρ := (evaluable.negated_eval boolean negated ρ).wellFormed
  narrow := evaluable.narrow.mono ((createIsZero_condition o fuel (evaluable.wellFormed fun _ _ => 0)).elim negated).reads

theorem negated_safe (boolean : e.width = 1) (negated : createIsZero o fuel e = .ok neg)
    (safe : e.WellFormed (.safe o ρ)) : neg.WellFormed (.safe o ρ) := by
  have builds : Satisfies _ _ (createIsZero o fuel e) := createIsZero_builds Guards.allows_safe ⟨safe, boolean, rfl⟩
  exact (builds.elim negated).wellFormed

end Expr.Evaluable

namespace PartialAssignment

/-- The expression has a value under the assignment, and the bytes for that are there. -/
structure Defines (o : Options) (ρ : Assignment) (a : PartialAssignment) (e : Expr) : Prop where
  safe : e.WellFormed (.safe o ρ)
  plain : e.plain = true
  bound : a.Bound ρ e

theorem evaluate_agrees (evaluable : e.Evaluable o) (extended : a.Extends ρ) :
    Satisfies (· = .outOfFuel) (Agrees (.bounded o ρ) ρ e) (a.evaluate o fuel e) := by
  have agrees := ExprEvaluator.visit_agrees Guards.allows_bounded Guards.extensional_bounded extended
    fuel e (evaluable.wellFormed ρ) evaluable.narrow
  have nonzero (c : ConstantExpr) (divisible : (Guards.literal o ρ).divisible (.constant c)) : c.isZero = false := divisible c rfl
  have undivided : Undivided (ExprEvaluator.visit o a fuel e) := ExprEvaluator.visit_undivided nonzero fuel e (evaluable.literal ρ)
  apply Satisfies.of_forall
  · intro value returned
    exact agrees.elim returned
  · intro fault raised
    exact (agrees.fault raised).resolve_right fun divided => undivided.fault raised divided.1

theorem evaluate_constant (evaluable : e.Evaluable o) (extended : a.Extends ρ) (defined : a.Defines o ρ e) :
    Satisfies (· = .outOfFuel) (· = .constant ⟨e.width, e.eval ρ e.width⟩) (a.evaluate o fuel e) := by
  have agrees : Satisfies (· = .outOfFuel) (Agrees (.bounded o ρ) ρ e) (a.evaluate o fuel e) := evaluate_agrees evaluable extended
  have constant : BuildsConstant (a.evaluate o fuel e) := ExprEvaluator.visit_constant extended fuel e
    defined.safe evaluable.narrow defined.plain defined.bound
  apply (agrees.and constant).mono
  intro value facts
  obtain ⟨agreesValue, isConstant⟩ := facts
  obtain ⟨c, found⟩ := Option.isSome_iff_exists.mp isConstant
  rw [constant?_eq_some] at found
  subst found
  rw [agreesValue.of_constant]

theorem satisfies_spec (extended : a.Extends ρ) :
    ∀ es : List Expr, (∀ e ∈ es, e.Evaluable o ∧ e.width = 1) →
      Satisfies (· = .outOfFuel)
        (fun verdict => (verdict = true → ∀ e ∈ es, e.eval ρ 1 = 1#1) ∧
          ((∀ e ∈ es, a.Defines o ρ e ∧ e.eval ρ 1 = 1#1) → verdict = true))
        (a.satisfies o fuel es)
  | [], _ => ⟨by simp, fun _ => rfl⟩
  | e :: rest, evaluable => by
    rw [List.forall_mem_cons] at evaluable
    obtain ⟨⟨evaluableFirst, boolean⟩, evaluableRest⟩ := evaluable
    have agrees : Satisfies (· = .outOfFuel) (Agrees (.bounded o ρ) ρ e) (a.evaluate o fuel e) := evaluate_agrees evaluableFirst extended
    have constant : Satisfies (· = .outOfFuel) (fun value => a.Defines o ρ e → value = .constant ⟨e.width, e.eval ρ e.width⟩)
        (a.evaluate o fuel e) := by
      apply Satisfies.of_forall
      · intro value returned defined
        exact (evaluate_constant evaluableFirst extended defined).elim returned
      · exact fun fault raised => agrees.fault raised
    apply Satisfies.bind (agrees.and constant)
    intro value facts
    obtain ⟨agreesValue, isConstant⟩ := facts
    rw [Agrees, boolean] at agreesValue
    apply require_satisfies (fun _ => ?_) fun wide => absurd agreesValue.width wide
    have isTrue : e.eval ρ 1 = 1#1 → a.Defines o ρ e → value = .constant ⟨1, 1#1⟩ := by
      intro holds defined
      rw [isConstant defined, boolean, holds]
    split
    · rename_i ce found
      rw [constant?_eq_some] at found
      subst found
      obtain rfl := agreesValue.of_constant
      split
      · rename_i holds
        have holdsFirst : e.eval ρ 1 = 1#1 := by
          rw [← BitVector.ne_zero_iff_eq_one]
          simpa [ConstantExpr.isTrue] using holds
        apply (satisfies_spec extended rest evaluableRest).mono
        intro verdict right
        simp only [List.forall_mem_cons]
        exact ⟨fun positive => ⟨holdsFirst, right.1 positive⟩, fun all => right.2 all.2⟩
      · rename_i fails
        refine ⟨by simp, fun all => ?_⟩
        have first := (all e (.head _)).2
        simp [ConstantExpr.isTrue, first] at fails
    · rename_i missing
      refine ⟨by simp, fun all => ?_⟩
      obtain ⟨defined, holds⟩ := all e (.head _)
      rw [isTrue holds defined] at missing
      cases missing

theorem satisfies_ends (es : List Expr) : Ends fun fuel => a.satisfies o fuel es := by
  induction es with
  | nil => exact .pure _
  | cons e rest ih =>
    apply (ExprEvaluator.visit_ends e).bind
    intro value _
    apply Ends.require
    split
    · exact .ite (fun _ => ih) fun _ => .pure _
    · exact .pure _

end PartialAssignment

end NeuroMerge.Symbolic
