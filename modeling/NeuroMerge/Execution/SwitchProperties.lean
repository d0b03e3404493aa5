import NeuroMerge.Execution.Switch
import NeuroMerge.Execution.Queries
import NeuroMerge.Execution.SymbolicCallProperties

/-!
# A switch branches on a partition

Exactly one of the conditions is true, and its block is the one that the instruction
selects. The loop over the cases keeps, for the cases it has seen, the condition that
none of them applies and for each block the condition that one of its cases does.
-/

namespace NeuroMerge.Execution

open List Symbolic Executor
open Symbolic.ConstraintManager (Hold)

variable {ρ : Assignment} {o : Options} {simplifyExprs : Bool} {solver : Solver}
  {optimizeExpr : Expr → Bool → Expr} {fuel w : Nat} {constraints : List Expr} {e cond : Expr}
  {value : Assignment → BitVec w} {si : SwitchInst w} {hash_value : ConstantExpr → BitVec 64}

section Order

theorem constantRank_injective {a b : BitVec w} (same : constantRank hash_value a = constantRank hash_value b) : a = b := by
  have values : a.toNat = b.toNat := congrArg (fun rank => (ofLex rank).2) same
  exact BitVec.eq_of_toNat_eq values

theorem insertCases_spec (cases : List (BitVec w × Nat)) :
    ∀ order : List (BitVec w × Nat), ImmutableMap.Sorted (constantRank hash_value) order →
      ImmutableMap.Sorted (constantRank hash_value)
          (cases.foldl (ImmutableMap.insert (constantRank hash_value)) order) ∧
        ∀ entry, entry ∈ cases.foldl (ImmutableMap.insert (constantRank hash_value)) order ↔
          entry ∈ order ∨ (∀ other ∈ order, other.1 ≠ entry.1) ∧ cases.lookup entry.1 = some entry.2 := by
  induction cases with
  | nil =>
    intro order sorted
    exact ⟨sorted, fun entry => (or_iff_left (fun both => nomatch both.2)).symm⟩
  | cons first cases ih =>
    intro order sorted
    obtain ⟨sortedAll, members⟩ := ih (ImmutableMap.insert (constantRank hash_value) order first) sorted.insert
    refine ⟨sortedAll, fun entry => ?_⟩
    have inserted (other : BitVec w × Nat) :
        other ∈ ImmutableMap.insert (constantRank hash_value) order first ↔
          other ∈ order ∨ other = first ∧ ∀ old ∈ order, old.1 ≠ first.1 := by
      rw [sorted.mem_insert_iff]
      have ranks : (∀ old ∈ order, constantRank hash_value old.1 ≠ constantRank hash_value first.1) ↔ ∀ old ∈ order, old.1 ≠ first.1 := by
        refine forall₂_congr fun old _ => not_congr ⟨constantRank_injective, fun same => ?_⟩
        rw [same]
      rw [ranks]
    rw [foldl_cons, members entry, inserted entry, List.lookup_cons]
    by_cases same : entry.1 = first.1
    · -- the case is there already, or it is added now
      have taken : ¬ ∀ other ∈ ImmutableMap.insert (constantRank hash_value) order first, other.1 ≠ entry.1 := by
        intro fresh
        by_cases new : ∀ old ∈ order, old.1 ≠ first.1
        · exact fresh first ((inserted first).mpr (.inr ⟨rfl, new⟩)) same.symm
        · simp only [not_forall, not_not] at new
          obtain ⟨old, member, sameOld⟩ := new
          exact fresh old ((inserted old).mpr (.inl member)) (sameOld.trans same.symm)
      have whole : entry = first ↔ first.2 = entry.2 := ⟨fun equal => by rw [equal], fun equal => Prod.ext same equal.symm⟩
      rw [or_iff_left fun both => taken both.1, whole, same, beq_self_eq_true]
      simp only [Option.some.injEq]
      exact or_congr_right and_comm
    · have kept : entry ≠ first := fun equal => same (congrArg Prod.fst equal)
      have fresh : (∀ other ∈ ImmutableMap.insert (constantRank hash_value) order first,
          other.1 ≠ entry.1) ↔ ∀ other ∈ order, other.1 ≠ entry.1 := by
        constructor
        · exact fun all old member => all old ((inserted old).mpr (.inl member))
        · intro all other member
          obtain old | ⟨rfl, -⟩ := (inserted other).mp member
          · exact all other old
          · exact Ne.symm same
      rw [fresh, beq_eq_false_iff_ne.mpr same]
      exact or_congr_left (or_iff_left fun both => kept both.1)

theorem mem_expressionOrder (entry : BitVec w × Nat) :
    entry ∈ si.expressionOrder hash_value ↔ si.cases.lookup entry.1 = some entry.2 := by
  rw [SwitchInst.expressionOrder, (insertCases_spec si.cases [] .nil).2 entry]
  simp

end Order

section Targets

variable {bb : Nat} {condition : Expr} {targets : List (Nat × Expr)}

theorem setTarget_keys : (setTarget bb condition targets).map Prod.fst =
    if bb ∈ targets.map Prod.fst then targets.map Prod.fst else targets.map Prod.fst ++ [bb] := by
  fun_induction setTarget bb condition targets with
  | case1 => rfl
  | case2 target targets same => simp [same]
  | case3 target targets different ih =>
    rw [map_cons, ih, map_cons]
    simp only [mem_cons, Ne.symm different, false_or]
    split <;> rfl

theorem setTarget_keys_nodup (nodup : (targets.map Prod.fst).Nodup) : ((setTarget bb condition targets).map Prod.fst).Nodup := by
  rw [setTarget_keys]
  split
  · exact nodup
  · rename_i new
    rw [nodup_append]
    refine ⟨nodup, nodup_singleton bb, ?_⟩
    intro key member other single
    rw [List.mem_singleton.mp single]
    exact fun same => new (same ▸ member)

theorem mem_of_mem_setTarget {target : Nat × Expr} (nodup : (targets.map Prod.fst).Nodup)
    (member : target ∈ setTarget bb condition targets) : target = (bb, condition) ∨ target ∈ targets ∧ target.1 ≠ bb := by
  fun_induction setTarget bb condition targets with
  | case1 => exact .inl (List.mem_singleton.mp member)
  | case2 first targets same =>
    rw [map_cons, nodup_cons, same] at nodup
    cases member with
    | head => exact .inl rfl
    | tail _ later =>
      refine .inr ⟨mem_cons_of_mem first later, fun equal => nodup.1 ?_⟩
      exact equal ▸ mem_map_of_mem later
  | case3 first targets different ih =>
    cases member with
    | head => exact .inr ⟨by simp, different⟩
    | tail _ later =>
      exact (ih (List.nodup_cons.mp nodup).2 later).imp_right fun both => ⟨mem_cons_of_mem first both.1, both.2⟩

theorem filter_targets (nodup : (targets.map Prod.fst).Nodup) (present : bb ∈ targets.map Prod.fst)
    (isTrue : ∀ target ∈ targets, target.2.eval ρ 1 = 1#1 ↔ target.1 = bb) :
    (targets.filter fun target => target.2.eval ρ 1 = 1#1).map Prod.fst = [bb] := by
  induction targets with
  | nil => cases present
  | cons first targets ih =>
    obtain ⟨new, nodup⟩ := List.nodup_cons.mp nodup
    have isTrueRest (target) (member : target ∈ targets) := isTrue target (by simp [member])
    by_cases selected : first.1 = bb
    · have others : targets.filter (fun target => target.2.eval ρ 1 = 1#1) = [] := by
        rw [filter_eq_nil_iff]
        intro target member holds
        have same := (isTrueRest target member).mp (by simpa using holds)
        exact new (selected ▸ same ▸ mem_map_of_mem member)
      rw [filter_cons_of_pos (by simpa using (isTrue first (by simp)).mpr selected), others]
      simp [selected]
    · rw [filter_cons_of_neg (by simpa using (isTrue first (by simp)).not.mpr selected)]
      refine ih nodup ?_ isTrueRest
      cases present with
      | head => exact absurd rfl selected
      | tail _ later => exact later

end Targets

structure Branching (o : Options) (constraints : List Expr) (value : Assignment → BitVec w)
    (defaultDest : Nat) (seen : List (BitVec w × Nat)) (branches : SwitchBranches) : Prop where
  defaultValue : Settles o constraints branches.defaultValue fun ρ =>
    decide (∀ entry ∈ seen, entry.2 = defaultDest ∨ value ρ ≠ entry.1)
  nodup : (branches.branchTargets.map Prod.fst).Nodup
  notDefault : ∀ target ∈ branches.branchTargets, target.1 ≠ defaultDest
  settles : ∀ target ∈ branches.branchTargets, Settles o constraints target.2 fun ρ =>
    decide (∃ entry ∈ seen, entry.2 = target.1 ∧ value ρ = entry.1)
  covers : ∀ entry ∈ seen, entry.2 ≠ defaultDest → ∀ ρ, Hold ρ constraints →
    value ρ = entry.1 → entry.2 ∈ branches.branchTargets.map Prod.fst

namespace Branching

variable {defaultDest : Nat} {seen : List (BitVec w × Nat)} {branches : SwitchBranches}

theorem initial : Branching o constraints value defaultDest [] ⟨.constant (.alloc 1 1), []⟩ where
  defaultValue := (Settles.constant true).congr fun _ _ => by simp
  nodup := nodup_nil
  notDefault := nofun
  settles := nofun
  covers := nofun

theorem previous (branching : Branching o constraints value defaultDest seen branches) {bb : Nat} (different : bb ≠ defaultDest) :
    Settles o constraints ((branches.branchTargets.lookup bb).getD (.constant (.alloc 0 1)))
      fun ρ => decide (∃ entry ∈ seen, entry.2 = bb ∧ value ρ = entry.1) := by
  cases found : branches.branchTargets.lookup bb with
  | some condition =>
    obtain ⟨before, after, split, -⟩ := lookup_eq_some_iff.mp found
    exact branching.settles (bb, condition) (by simp [split])
  | none =>
    apply (Settles.constant false).congr
    intro ρ hold
    rw [eq_comm, decide_eq_false_iff_not]
    rintro ⟨entry, member, rfl, same⟩
    obtain ⟨target, targetMember, key⟩ := mem_map.mp (branching.covers entry member different ρ hold same)
    have missing := List.lookup_eq_none_iff.mp found target targetMember
    simp [key] at missing

theorem skip (branching : Branching o constraints value defaultDest seen branches) (v : BitVec w) :
    Branching o constraints value defaultDest (seen ++ [(v, defaultDest)]) branches where
  defaultValue := branching.defaultValue.congr fun ρ _ => by
    simp only [forall_mem_append, forall_mem_singleton, true_or, and_true]
  nodup := branching.nodup
  notDefault := branching.notDefault
  settles target member := (branching.settles target member).congr fun ρ _ => by
    have other := (branching.notDefault target member).symm
    simp only [mem_append, mem_singleton, or_and_right, exists_or, exists_eq_left, other, false_and, or_false]
  covers entry member different := by
    rw [mem_append, mem_singleton] at member
    cases member with
    | inl member => exact branching.covers entry member different
    | inr same => exact absurd (congrArg Prod.snd same) different

variable {v : BitVec w} {bb : Nat} {condition : Expr}

theorem excluded (different : bb ≠ defaultDest)
    (settles : Settles o constraints condition fun ρ =>
      decide (∀ entry ∈ seen, entry.2 = defaultDest ∨ value ρ ≠ entry.1) && !decide (value ρ = v)) :
    Settles o constraints condition fun ρ => decide (∀ entry ∈ seen ++ [(v, bb)], entry.2 = defaultDest ∨ value ρ ≠ entry.1) :=
  settles.congr fun ρ _ => by
    rw [← decide_not, ← Bool.decide_and]
    congr 1
    simp only [forall_mem_append, forall_mem_singleton, different, false_or]

theorem impossible (branching : Branching o constraints value defaultDest seen branches) (never : ∀ ρ, Hold ρ constraints → value ρ ≠ v)
    (settles : Settles o constraints condition fun ρ =>
      decide (∀ entry ∈ seen ++ [(v, bb)], entry.2 = defaultDest ∨ value ρ ≠ entry.1)) :
    Branching o constraints value defaultDest (seen ++ [(v, bb)]) { branches with defaultValue := condition } where
  defaultValue := settles
  nodup := branching.nodup
  notDefault := branching.notDefault
  settles target member := (branching.settles target member).congr fun ρ hold => by
    simp only [mem_append, mem_singleton, or_and_right, exists_or, exists_eq_left, never ρ hold, and_false, or_false]
  covers entry member other ρ hold same := by
    rw [mem_append, mem_singleton] at member
    cases member with
    | inl member => exact branching.covers entry member other ρ hold same
    | inr last =>
      subst last
      exact absurd same (never ρ hold)

theorem added (branching : Branching o constraints value defaultDest seen branches) (different : bb ≠ defaultDest) {merged : Expr}
    (settles : Settles o constraints condition fun ρ =>
      decide (∀ entry ∈ seen ++ [(v, bb)], entry.2 = defaultDest ∨ value ρ ≠ entry.1))
    (merges : Settles o constraints merged fun ρ =>
      decide (value ρ = v) || decide (∃ entry ∈ seen, entry.2 = bb ∧ value ρ = entry.1)) :
    Branching o constraints value defaultDest (seen ++ [(v, bb)]) ⟨condition, setTarget bb merged branches.branchTargets⟩ where
  defaultValue := settles
  nodup := setTarget_keys_nodup branching.nodup
  notDefault target member := by
    obtain rfl | old := mem_of_mem_setTarget branching.nodup member
    · exact different
    · exact branching.notDefault target old.1
  settles target member := by
    obtain rfl | ⟨old, other⟩ := mem_of_mem_setTarget branching.nodup member
    · apply merges.congr
      intro ρ _
      rw [← Bool.decide_or]
      congr 1
      simp only [mem_append, mem_singleton, or_and_right, exists_or, exists_eq_left, true_and]
      exact propext or_comm
    · apply (branching.settles target old).congr
      intro ρ _
      simp only [mem_append, mem_singleton, or_and_right, exists_or, exists_eq_left, other.symm, false_and, or_false]
  covers entry member other ρ hold same := by
    rw [setTarget_keys]
    rw [mem_append, mem_singleton] at member
    cases member with
    | inl member =>
      have present := branching.covers entry member other ρ hold same
      split
      · exact present
      · exact mem_append_left _ present
    | inr last =>
      subst last
      split
      · assumption
      · simp

end Branching

variable {defaultDest : Nat} {seen : List (BitVec w × Nat)} {branches : SwitchBranches}

theorem switchCase_spec (sound : solver.Sound) (optimizes : ∀ valueOnly, Optimizes o fun e => optimizeExpr e valueOnly)
    (sane : Sane o constraints) (means : Means o constraints cond value)
    (branching : Branching o constraints value si.defaultDest seen branches) (v : BitVec w) (bb : Nat) :
    Satisfies (· = .outOfFuel) (Branching o constraints value si.defaultDest (seen ++ [(v, bb)]))
      (switchCase o simplifyExprs solver optimizeExpr fuel constraints si cond branches v bb) := by
  apply Satisfies.bind (eq_spec sane means v)
  intro matched settlesMatched
  split
  · rename_i isDefault
    rw [isDefault]
    exact branching.skip v
  · rename_i different
    apply Satisfies.bind (isZero_spec sane settlesMatched)
    intro isZero settlesZero
    apply Satisfies.bind (and_spec sane branching.defaultValue settlesZero)
    intro condition settlesBoth
    have excluded := Branching.excluded different settlesBoth
    have optimized : Settles o constraints (optimizeExpr matched false) fun ρ =>
        decide (value ρ = v) :=
      fun ρ hold => optimizes false ρ matched 1 _ (settlesMatched ρ hold)
    apply Satisfies.bind (mayBeTrue_spec sound.correct sane optimized)
    intro mayBeTrue tells
    match mayBeTrue, tells with
    | none, unsound => exact absurd sound unsound
    | some false, never =>
      apply branching.impossible _ excluded
      intro ρ hold same
      exact nomatch never.mpr ⟨ρ, hold, decide_eq_true same⟩
    | some true, _ =>
      apply Satisfies.bind (or_spec sane optimized (branching.previous different))
      intro merged merges
      exact branching.added different excluded merges

/-- Exactly one condition is true, that of the block which the instruction selects. -/
def Partitions (constraints : List Expr) (value : Assignment → BitVec w) (si : SwitchInst w)
    (targets : List (Nat × Expr)) : Prop :=
  ∀ ρ, Hold ρ constraints →
    (targets.filter fun target => target.2.eval ρ 1 = 1#1).map Prod.fst =
      [si.findCaseValue (value ρ)]

section Selection

variable (branching : Branching o constraints value si.defaultDest (si.expressionOrder hash_value) branches)

theorem findCaseValue_of_lookup {v : BitVec w} {bb : Nat} (found : si.cases.lookup v = some bb) : si.findCaseValue v = bb := by
  rw [SwitchInst.findCaseValue, found, Option.getD_some]

include branching

theorem default_isTrue (hold : Hold ρ constraints) :
    branches.defaultValue.eval ρ 1 = 1#1 ↔ si.defaultDest = si.findCaseValue (value ρ) := by
  rw [(branching.defaultValue ρ hold).value, BitVector.ofBool_eq_one, decide_eq_true_eq]
  cases found : si.cases.lookup (value ρ) with
  | none =>
    have selected : si.findCaseValue (value ρ) = si.defaultDest := by
      rw [SwitchInst.findCaseValue, found, Option.getD_none]
    refine iff_of_true (fun entry member => .inr fun same => ?_) selected.symm
    rw [mem_expressionOrder, ← same, found] at member
    cases member
  | some bb =>
    rw [findCaseValue_of_lookup found]
    constructor
    · intro all
      have last := all (value ρ, bb) ((mem_expressionOrder _).mpr found)
      simpa [eq_comm] using last
    · intro selected entry member
      by_cases same : value ρ = entry.1
      · rw [mem_expressionOrder, ← same, found] at member
        exact .inl ((Option.some.inj member).symm.trans selected.symm)
      · exact .inr same

theorem target_isTrue (hold : Hold ρ constraints) {target : Nat × Expr} (member : target ∈ branches.branchTargets) :
    target.2.eval ρ 1 = 1#1 ↔ target.1 = si.findCaseValue (value ρ) := by
  rw [(branching.settles target member ρ hold).value, BitVector.ofBool_eq_one, decide_eq_true_eq]
  constructor
  · rintro ⟨entry, entryMember, key, same⟩
    rw [mem_expressionOrder, ← same] at entryMember
    rw [findCaseValue_of_lookup entryMember, key]
  · intro selected
    have different := branching.notDefault target member
    rw [selected] at different
    cases found : si.cases.lookup (value ρ) with
    | none =>
      rw [SwitchInst.findCaseValue, found] at different
      exact absurd rfl different
    | some bb =>
      rw [findCaseValue_of_lookup found] at selected
      exact ⟨(value ρ, bb), (mem_expressionOrder _).mpr found, selected.symm, rfl⟩

theorem selected_present (hold : Hold ρ constraints) (different : si.defaultDest ≠ si.findCaseValue (value ρ)) :
    si.findCaseValue (value ρ) ∈ branches.branchTargets.map Prod.fst := by
  cases found : si.cases.lookup (value ρ) with
  | none =>
    rw [SwitchInst.findCaseValue, found] at different
    exact absurd rfl different
  | some bb =>
    rw [findCaseValue_of_lookup found] at different ⊢
    exact branching.covers (value ρ, bb) ((mem_expressionOrder _).mpr found) different.symm ρ hold rfl

end Selection

theorem switchConditions_spec (sound : solver.Sound) (optimizes : ∀ valueOnly, Optimizes o fun e => optimizeExpr e valueOnly)
    (sane : Sane o constraints) (means : Means o constraints cond value) :
    Satisfies (· = .outOfFuel) (Partitions constraints value si)
      (switchConditions o simplifyExprs solver optimizeExpr fuel constraints si cond hash_value) := by
  apply Satisfies.bind (.foldlM (Branching o constraints value si.defaultDest) Branching.initial
    fun seen entry remaining branches _ branching =>
      switchCase_spec sound optimizes sane means branching entry.1 entry.2)
  intro branches branching
  have optimized : Settles o constraints (optimizeExpr branches.defaultValue false) fun ρ =>
      decide (∀ entry ∈ si.expressionOrder hash_value, entry.2 = si.defaultDest ∨ value ρ ≠ entry.1) :=
    fun ρ hold => optimizes false ρ _ 1 _ (branching.defaultValue ρ hold)
  have sameValue (ρ : Assignment) (hold : Hold ρ constraints) :
      (optimizeExpr branches.defaultValue false).eval ρ 1 = branches.defaultValue.eval ρ 1 :=
    (optimized ρ hold).value.trans (branching.defaultValue ρ hold).value.symm
  have absent : si.defaultDest ∉ branches.branchTargets.map Prod.fst := by
    intro present
    obtain ⟨target, member, key⟩ := mem_map.mp present
    exact branching.notDefault target member key
  apply Satisfies.bind (mayBeTrue_spec sound.correct sane optimized)
  intro mayBeTrue tells
  match mayBeTrue, tells with
  | none, unsound => exact absurd sound unsound
  | some false, never =>
    intro ρ hold
    apply filter_targets branching.nodup
    · apply selected_present branching hold
      intro selected
      have isTrue := (default_isTrue branching hold).mpr selected
      rw [(branching.defaultValue ρ hold).value, BitVector.ofBool_eq_one] at isTrue
      exact nomatch never.mpr ⟨ρ, hold, isTrue⟩
    · exact fun target member => target_isTrue branching hold member
  | some true, _ =>
    have missing : branches.branchTargets.lookup si.defaultDest = none := by
      rw [lookup_eq_none_iff]
      intro target member
      simpa using (branching.notDefault target member).symm
    rw [missing]
    intro ρ hold
    apply filter_targets
    · rw [map_append, nodup_append]
      refine ⟨branching.nodup, nodup_singleton _, ?_⟩
      intro key member other single
      rw [map_singleton, mem_singleton] at single
      subst single
      rintro rfl
      exact absent member
    · rw [map_append, mem_append]
      by_cases selected : si.defaultDest = si.findCaseValue (value ρ)
      · exact .inr (by simp [selected])
      · exact .inl (selected_present branching hold selected)
    · intro target member
      rw [mem_append, mem_singleton] at member
      cases member with
      | inl member => exact target_isTrue branching hold member
      | inr last =>
        subst last
        rw [sameValue ρ hold]
        exact default_isTrue branching hold

theorem toUnique_spec (correct : solver.Correct) (optimizes : ∀ valueOnly, Optimizes o fun e => optimizeExpr e valueOnly)
    (sane : Sane o constraints) (means : Means o constraints cond value) :
    Satisfies (· = .outOfFuel) (fun cond => Means o constraints cond value)
      (toUnique o simplifyExprs solver optimizeExpr fuel constraints cond) := by
  rw [toUnique]
  split
  · exact means
  · have optimized : Means o constraints (optimizeExpr cond true) value := fun ρ hold => optimizes true ρ cond w _ (means ρ hold)
    apply Satisfies.bind (getValue_answers correct sane optimized)
    intro answer right
    cases answer with
    | none => exact means
    | some found =>
      obtain ⟨ρ₀, hold₀, rfl⟩ := right
      apply Satisfies.bind (eq_spec sane optimized (value ρ₀))
      intro equality settles
      have optimizedEquality : Settles o constraints (optimizeExpr equality false) fun ρ =>
          decide (value ρ = value ρ₀) :=
        fun ρ hold => optimizes false ρ equality 1 _ (settles ρ hold)
      apply Satisfies.bind (mustBeTrue_spec correct sane optimizedEquality)
      intro mustBeTrue tells
      match mustBeTrue, tells with
      | none, _ | some false, _ => exact means
      | some true, always =>
        intro ρ hold
        have same := of_decide_eq_true (always.mp rfl ρ hold)
        exact (Denotes.constant ⟨w, value ρ₀⟩).of_eq same.symm

theorem switchCase_halts (branches : SwitchBranches) (v : BitVec w) (bb : Nat) :
    Ends fun fuel => switchCase o simplifyExprs solver optimizeExpr fuel constraints si cond branches v bb := by
  apply (EqExpr.create_ends cond (.constant ⟨w, v⟩)).bind
  intro matched _
  apply Halts.ite
  · exact fun _ => .pure branches
  · intro _
    apply (createIsZero_ends matched).bind
    intro isZero _
    apply (AndExpr.create_ends branches.defaultValue isZero).bind
    intro condition _
    apply (mayBeTrue_halts constraints (optimizeExpr matched false)).bind
    intro mayBeTrue _
    rcases mayBeTrue with _ | _ | _
    · exact .error _ (by simp)
    · exact .pure _
    · apply (OrExpr.create_ends _ _).bind
      exact fun _ _ => .pure _

theorem switchConditions_halts :
    Ends fun fuel => switchConditions o simplifyExprs solver optimizeExpr fuel constraints si cond hash_value := by
  apply Halts.bind
  · exact .foldlM_const fun branches entry => switchCase_halts branches entry.1 entry.2
  intro branches _
  apply (mayBeTrue_halts constraints (optimizeExpr branches.defaultValue false)).bind
  intro mayBeTrue _
  match mayBeTrue with
  | none => exact .error _ nofun
  | some false => exact .pure _
  | some true =>
    cases branches.branchTargets.lookup si.defaultDest with
    | none => exact .pure _
    | some condition => exact .pure _

theorem toUnique_halts :
    Ends fun fuel => toUnique o simplifyExprs solver optimizeExpr fuel constraints
      cond := by
  cases isConstant : cond.constant? with
  | some ce =>
    simp only [toUnique, isConstant]
    exact .pure cond
  | none =>
    simp only [toUnique, isConstant]
    apply (getValue_halts constraints (optimizeExpr cond true)).bind
    intro answer _
    cases answer with
    | none => exact .pure cond
    | some found =>
      apply (EqExpr.create_ends _ _).bind
      intro equality _
      apply (mustBeTrue_halts constraints (optimizeExpr equality false)).bind
      intro mustBeTrue _
      match mustBeTrue with
      | none | some false => exact .pure cond
      | some true => exact .pure (Expr.constant found)

def Selects (constraints : List Expr) (value : Assignment → BitVec w) (si : SwitchInst w) :
    Nat ⊕ List (Nat × Expr) → Prop
  | .inl bb => ∀ ρ, Hold ρ constraints → si.findCaseValue (value ρ) = bb
  | .inr targets => Partitions constraints value si targets

/-- A known condition of more than 64 bits is not looked up. -/
def Unsupported (constraints : List Expr) (value : Assignment → BitVec w) : Prop :=
  64 < w ∧ ∃ known, ∀ ρ, Hold ρ constraints → value ρ = known

theorem executeSwitch_spec (sound : solver.Sound) (optimizes : ∀ valueOnly, Optimizes o fun e => optimizeExpr e valueOnly)
    (sane : Sane o constraints) (means : Means o constraints cond value) :
    Satisfies
      (fun fault => fault = .outOfFuel ∨
        fault = .assertion .indexTooLarge ∧ Unsupported constraints value) (Selects constraints value si)
      (executeSwitch o simplifyExprs solver optimizeExpr fuel constraints si cond hash_value) := by
  apply Satisfies.bind_left (toUnique_spec sound.correct optimizes sane means)
  intro cond means
  cases isConstant : cond.constant? with
  | none =>
    apply Satisfies.bind_left (switchConditions_spec sound optimizes sane means)
    exact fun targets partitions => partitions
  | some ce =>
    rw [Expr.constant?_eq_some] at isConstant
    subst isConstant
    obtain ⟨ρ₀, hold₀⟩ := sane.possible
    have known : ce = ⟨w, value ρ₀⟩ := (means ρ₀ hold₀).of_constant
    subst known
    have agree (ρ : Assignment) (hold : Hold ρ constraints) : value ρ = value ρ₀ := by
      have same : (⟨w, value ρ₀⟩ : ConstantExpr) = ⟨w, value ρ⟩ := (means ρ hold).of_constant
      rw [ConstantExpr.mk.injEq, heq_eq_eq] at same
      exact same.2.symm
    dsimp only
    rw [require]
    split
    · intro ρ hold
      rw [BitVec.ofNat_toNat, BitVec.setWidth_eq, agree ρ hold]
    · rename_i wide
      exact .inr ⟨rfl, Nat.lt_of_not_le wide, value ρ₀, agree⟩

theorem executeSwitch_halts : Ends fun fuel => executeSwitch o simplifyExprs solver optimizeExpr fuel constraints si cond hash_value := by
  apply toUnique_halts.bind
  intro cond _
  cases isConstant : cond.constant? with
  | none => exact switchConditions_halts.map
  | some ce =>
    dsimp only
    rw [require]
    split
    · exact .pure _
    · exact .error _ (by simp)

theorem executeSwitch_partition (sound : solver.Sound)
    (optimizes : ∀ valueOnly, Optimizes o fun e => optimizeExpr e valueOnly)
    (sane : Sane o constraints) (means : Means o constraints cond value) :
    (∃ targets, Partitions constraints value si targets ∧
      Returns (fun fuel => Executor.switchConditions o simplifyExprs solver optimizeExpr fuel
        constraints si cond hash_value) targets) ∧
    ((∃ outcome, Selects constraints value si outcome ∧
      Returns (fun fuel => Executor.executeSwitch o simplifyExprs solver optimizeExpr fuel
        constraints si cond hash_value) outcome) ∨
      Unsupported constraints value) := by
  constructor
  · exact switchConditions_halts.returns fun fuel =>
      switchConditions_spec sound optimizes sane means
  · by_cases unsupported : Unsupported constraints value
    · exact .inr unsupported
    · left
      apply executeSwitch_halts.returns
      intro fuel
      apply (executeSwitch_spec sound optimizes sane means).weaken
      rintro fault (exhausted | ⟨-, wide⟩)
      · exact exhausted
      · exact absurd wide unsupported

section Example

open Executor (idealSolver idealSolver_sound)

def sampleSwitch : SwitchInst 64 where
  cases := [(4096, 1), (8192, 1), (0, 2)]
  defaultDest := 2

theorem executeSwitch_partition_sample :
    (∃ targets, Partitions [] (fun ρ => samplePointer.eval ρ 64) sampleSwitch targets ∧
      Returns (fun fuel => Executor.switchConditions ⟨false, true⟩ false idealSolver
        (fun e _ => e) fuel [] sampleSwitch samplePointer (fun _ => 0)) targets) ∧
    (∃ outcome, Selects [] (fun ρ => samplePointer.eval ρ 64) sampleSwitch outcome ∧
      Returns (fun fuel => Executor.executeSwitch ⟨false, true⟩ false idealSolver
        (fun e _ => e) fuel [] sampleSwitch samplePointer (fun _ => 0)) outcome) := by
  refine And.imp_right (fun whole => whole.resolve_right fun wide => absurd wide.1 (by decide))
    (executeSwitch_partition idealSolver_sound (fun _ _ _ _ _ => id) Sane.nil ?_)
  exact fun _ _ => ⟨samplePointer_wellFormed, rfl, rfl⟩

end Example

end NeuroMerge.Execution
