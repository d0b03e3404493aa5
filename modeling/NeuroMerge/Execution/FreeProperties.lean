import NeuroMerge.Execution.Free
import NeuroMerge.Execution.UnlimitedFork
import NeuroMerge.Execution.ResolveProperties

/-!
# Freeing acts on one object

The search for the object leaves the state in parts, one for each object whose base the
pointer may be, and one for all other values of the pointer.
-/

namespace NeuroMerge.Execution

open List Symbolic Executor
open Symbolic.ConstraintManager (Hold)
open Executor (Unlimited)
open Memory (MemoryObject AddressSpace)

variable {ρ : Assignment} {o : Options} {options : ForkOptions} {solver : Solver}
  {optimizeExpr : Expr → Bool → Expr} {fuel w : Nat} {executor : Executor}
  {state : ExecutionState} {p address : Expr} {value : Assignment → BitVec w}
  {rl : ResolutionList} {op other : ObjectPair} {name : String} {isLocal isGlobal : MemoryObject → Bool} {target : Option Nat}

def ObjectPair.base (w : Nat) (op : ObjectPair) : BitVec w := BitVec.ofNat w op.1.address

theorem ObjectPair.toNat_base (addressable : op.1.Addressable w) : (ObjectPair.base w op).toNat = op.1.address := by
  exact Nat.mod_eq_of_lt addressable.address

def DistinctBases (w : Nat) (rl : ResolutionList) : Prop :=
  rl.Pairwise fun op other => ObjectPair.base w op ≠ ObjectPair.base w other

theorem base_injective {space : AddressSpace} (separate : space.Separate w)
    (member : op ∈ space.objects) (memberOther : other ∈ space.objects)
    (same : ObjectPair.base w op = ObjectPair.base w other) : op = other := by
  have addresses := congrArg BitVec.toNat same
  rw [ObjectPair.toNat_base (separate.addressable op member), ObjectPair.toNat_base (separate.addressable other memberOther)] at addresses
  apply separate.eq_of_contains member memberOther op.1.contains_base
  rw [addresses]
  exact other.1.contains_base

theorem Listed.distinctBases {constraints : List Expr} {space : AddressSpace}
    (separate : space.Separate w) (listed : Listed constraints value space rl) : DistinctBases w rl := by
  apply listed.nodup.imp_of_mem
  intro op other member memberOther different same
  exact different (base_injective separate ((listed.mem_iff op).mp member).1 ((listed.mem_iff other).mp memberOther).1 same)

structure ExactlyResolved (o : Options) (state : ExecutionState) (value : Assignment → BitVec w)
    (rl : ResolutionList) (results : ExactResolutionList) (unbound : Option ExecutionState) :
    Prop where
  sublist : (results.map Prod.fst).Sublist rl
  part : ∀ result ∈ results, Part o state (fun ρ => value ρ = ObjectPair.base w result.1) result.2
  covers : ∀ op ∈ rl, ∀ ρ, Hold ρ state.constraints → value ρ = ObjectPair.base w op →
    op ∈ results.map Prod.fst
  unbound : Divides o state (fun ρ => ∀ op ∈ rl, value ρ ≠ ObjectPair.base w op) unbound

namespace ExactlyResolved

variable {results : ExactResolutionList} {first unbound last : Option ExecutionState}

theorem nil (sane : Sane o state.constraints) : ExactlyResolved o state value [] [] (some state) where
  sublist := .refl []
  part := nofun
  covers := nofun
  unbound := Part.self sane fun _ _ => nofun

theorem single (whenTrue : Divides o state (fun ρ => value ρ = ObjectPair.base w op) first)
    (always : ∀ ρ, Hold ρ state.constraints → value ρ = ObjectPair.base w op) (distinct : DistinctBases w (op :: rl)) :
    ExactlyResolved o state value (op :: rl) (first.map fun part => (op, part)).toList none where
  sublist := by
    cases first with
    | none => exact nil_sublist _
    | some part => exact singleton_sublist.mpr (by simp)
  part := by
    cases first with
    | none => exact nofun
    | some part =>
      intro result member
      rw [mem_singleton.mp member]
      exact whenTrue
  covers := by
    intro found member ρ hold isBase
    have head : found = op := by
      cases member with
      | head => rfl
      | tail _ later =>
        have different := (pairwise_cons.mp distinct).1 found later
        exact absurd ((always ρ hold).symm.trans isBase) different
    cases first with
    | none => exact absurd (always ρ hold) (whenTrue ρ hold)
    | some part => simp [head]
  unbound := fun ρ hold none => none op (by simp) (always ρ hold)

theorem cons {part : ExecutionState} (whenTrue : Divides o state (fun ρ => value ρ = ObjectPair.base w op) first)
    (whenFalse : Part o state (fun ρ => value ρ ≠ ObjectPair.base w op) part) (distinct : DistinctBases w (op :: rl))
    (resolved : ExactlyResolved o part value rl results unbound) :
    ExactlyResolved o state value (op :: rl) ((first.map fun part => (op, part)).toList ++ results) unbound where
  sublist := by
    cases first with
    | none => exact resolved.sublist.cons op
    | some found => exact resolved.sublist.cons_cons op
  part := by
    intro result member
    rw [mem_append] at member
    cases member with
    | inl member =>
      cases first with
      | none => cases member
      | some found =>
        rw [mem_singleton.mp member]
        exact whenTrue
    | inr member =>
      apply (whenFalse.trans (resolved.part result member)).congr
      intro ρ _
      rw [and_iff_right_of_imp]
      intro isBase
      rw [isBase]
      exact ((pairwise_cons.mp distinct).1 result.1 (resolved.sublist.mem (mem_map_of_mem member))).symm
  covers := by
    intro found member ρ hold isBase
    rw [map_append, mem_append]
    by_cases isFirst : value ρ = ObjectPair.base w op
    · left
      have head : found = op := by
        cases member with
        | head => rfl
        | tail _ later =>
          have different := (pairwise_cons.mp distinct).1 found later
          exact absurd (isFirst.symm.trans isBase) different
      cases first with
      | none => exact absurd isFirst (whenTrue ρ hold)
      | some part => simp [head]
    · right
      have later : found ∈ rl := by
        cases member with
        | head => exact absurd isBase isFirst
        | tail _ later => exact later
      exact resolved.covers found later ρ ((whenFalse.hold_iff ρ).mpr ⟨hold, isFirst⟩) isBase
  unbound := by
    have split (ρ : Assignment) : (∀ other ∈ op :: rl, value ρ ≠ ObjectPair.base w other) ↔
        value ρ ≠ ObjectPair.base w op ∧ ∀ other ∈ rl, value ρ ≠ ObjectPair.base w other :=
      forall_mem_cons
    cases unbound with
    | none =>
      intro ρ hold none
      obtain ⟨different, others⟩ := (split ρ).mp none
      exact resolved.unbound ρ ((whenFalse.hold_iff ρ).mpr ⟨hold, different⟩) others
    | some last => exact (whenFalse.trans resolved.unbound).congr fun ρ _ => (split ρ).symm

end ExactlyResolved

theorem resolveExactLoop_spec (sound : solver.Sound) (notReplaying : options.replayKTest = false) (distinct : DistinctBases w rl) :
    ∀ (executor : Executor) (state : ExecutionState) (results : ExactResolutionList),
      Unlimited options state → Sane o state.constraints → Means o state.constraints p value →
      Satisfies (· = .outOfFuel) (fun result => (∃ forks, result.1 = { executor with forks := forks }) ∧
          ∃ found, result.2.1 = results ++ found ∧ ExactlyResolved o state value rl found result.2.2)
        (resolveExactLoop o options solver w fuel p rl executor state results) := by
  induction rl with
  | nil =>
    intro executor state results _ sane _
    exact ⟨⟨executor.forks, rfl⟩, [], (append_nil results).symm, .nil sane⟩
  | cons op rl ih =>
    intro executor state results unlimited sane means
    apply Satisfies.bind (eq_spec sane means (ObjectPair.base w op))
    intro inBounds settles
    apply Satisfies.bind (fork_parts sound unlimited notReplaying sane settles)
    rintro ⟨forked, first, second⟩ ⟨⟨forks, rfl⟩, whenTrue, whenFalse⟩
    simp only [decide_eq_true_eq, decide_eq_false_iff_not] at whenTrue whenFalse
    cases second with
    | none =>
      have always (ρ : Assignment) (hold : Hold ρ state.constraints) :
          value ρ = ObjectPair.base w op :=
        Classical.not_not.mp (whenFalse ρ hold)
      exact ⟨⟨forks, rfl⟩, _, rfl, .single whenTrue always distinct⟩
    | some unbound =>
      have rest := ih (pairwise_cons.mp distinct).2 { executor with forks := forks }
        unbound (results ++ (first.map fun part => (op, part)).toList)
        (Part.unlimited whenFalse unlimited) (Part.sane whenFalse) (Part.means whenFalse means)
      apply rest.mono
      rintro ⟨ended, all, last⟩ ⟨⟨later, rfl⟩, found, rfl, resolved⟩
      exact ⟨⟨later, rfl⟩, _, append_assoc _ _ _, .cons whenTrue whenFalse distinct resolved⟩

def invalidPointer (name : String) (unbound : Option ExecutionState) :
    List (ExecutionState × TerminateReason) :=
  (unbound.map fun part => (part, .ptr ("memory error: invalid pointer: " ++ name))).toList

theorem resolveExact_spec (sound : solver.Sound) (notReplaying : options.replayKTest = false)
    (optimizes : ∀ valueOnly, Optimizes o fun e => optimizeExpr e valueOnly)
    (unlimited : Unlimited options state) (sane : Sane o state.constraints)
    (means : Means o state.constraints p value) (narrow : w ≤ 64) (separate : state.addressSpace.Separate w) :
    Satisfies (· = .outOfFuel)
      (fun result => ∃ forks rl unbound,
        result.1 = { executor with
          forks := forks, terminated := executor.terminated ++ invalidPointer name unbound } ∧
        Listed state.constraints value state.addressSpace rl ∧
        ExactlyResolved o state value rl result.2 unbound)
      (resolveExact o options solver optimizeExpr w fuel executor state p name) := by
  have optimized : Means o state.constraints (optimizeExpr p true) value := fun ρ hold => optimizes true ρ p w _ (means ρ hold)
  apply Satisfies.bind (resolve_spec sound.correct sane optimized narrow separate)
  rintro ⟨incomplete, rl⟩ ⟨-, ended⟩
  have listed : Listed state.constraints value state.addressSpace rl := by
    cases incomplete with
    | false => exact ended
    | true =>
      have reason : 2 ≤ 0 ∨ ¬ solver.Sound ∨ ∃ op ∈ state.addressSpace.objects, false = true := ended
      simp [sound] at reason
  apply Satisfies.bind (resolveExactLoop_spec sound notReplaying (listed.distinctBases separate)
    executor state [] unlimited sane optimized)
  rintro ⟨ended, results, unbound⟩ ⟨⟨forks, rfl⟩, found, rfl, resolved⟩
  cases unbound with
  | none => exact ⟨forks, rl, none, by simp [invalidPointer], listed, resolved⟩
  | some part => exact ⟨forks, rl, some part, rfl, listed, resolved⟩

abbrev Ending := ExecutionState × Option TerminateReason

def endings (states : List ExecutionState)
    (terminated : List (ExecutionState × TerminateReason)) : List Ending :=
  states.map (fun part => (part, none)) ++ terminated.map fun part => (part.1, some part.2)

def objectEnding (w : Nat) (isLocal isGlobal : MemoryObject → Bool) (target : Option Nat)
    (found : ObjectPair × ExecutionState) : Ending :=
  if isLocal found.1.1 then (found.2, some (.free "free of alloca"))
  else if isGlobal found.1.1 then (found.2, some (.free "free of global"))
  else
    (Executor.bindNull w target
      { found.2 with addressSpace := found.2.addressSpace.unbindObject found.1.1 }, none)

theorem freeObject_eq (executor : Executor) (op : ObjectPair) (part : ExecutionState) :
    freeObject w isLocal isGlobal target executor op.1 part =
      match objectEnding w isLocal isGlobal target (op, part) with
      | (part, some reason) => (executor.terminate part reason, none)
      | (part, none) => (executor, some part) := by
  rw [freeObject, objectEnding]
  by_cases onStack : isLocal op.1 = true
  · simp only [if_pos onStack]
  · by_cases isStatic : isGlobal op.1 = true
    · simp only [if_neg onStack, if_pos isStatic]
    · simp only [if_neg onStack, if_neg isStatic]

theorem freeObjects_spec (results : ExactResolutionList) : ∀ executor : Executor,
    ∃ states terminated,
      freeObjects w isLocal isGlobal target executor results =
        ({ executor with terminated := executor.terminated ++ terminated }, states) ∧
      (endings states terminated).Perm (results.map (objectEnding w isLocal isGlobal target)) := by
  induction results with
  | nil =>
    intro executor
    exact ⟨[], [], by rw [append_nil]; rfl, .refl []⟩
  | cons found results ih =>
    intro executor
    obtain ⟨op, part⟩ := found
    rw [freeObjects, freeObject_eq, map_cons]
    obtain ⟨ended, reason⟩ := objectEnding w isLocal isGlobal target (op, part)
    cases reason with
    | none =>
      obtain ⟨states, terminated, rest, perm⟩ := ih executor
      refine ⟨ended :: states, terminated, ?_, perm.cons _⟩
      dsimp only
      rw [rest]
      rfl
    | some reason =>
      obtain ⟨states, terminated, rest, perm⟩ := ih (executor.terminate ended reason)
      refine ⟨states, (ended, reason) :: terminated, ?_, perm_middle.trans (perm.cons _)⟩
      dsimp only
      rw [rest]
      simp [terminate]

/-- Of the object that the pointer is the base of, and of no other one, the memory is
freed. -/
structure FreeOutcome (w : Nat) (isLocal isGlobal : MemoryObject → Bool) (state : ExecutionState)
    (pointer : BitVec w) (ending : Ending) : Prop where
  null : pointer = 0#w →
    ending.2 = none ∧ ending.1.addressSpace.objects = state.addressSpace.objects
  heap : ∀ op ∈ state.addressSpace.objects, pointer ≠ 0#w → pointer.toNat = op.1.address →
    isLocal op.1 = false → isGlobal op.1 = false →
      ending.2 = none ∧ ∀ other, other ∈ ending.1.addressSpace.objects ↔
        other ∈ state.addressSpace.objects ∧ other ≠ op
  notHeap : ∀ op ∈ state.addressSpace.objects, pointer ≠ 0#w → pointer.toNat = op.1.address →
    isLocal op.1 = true ∨ isGlobal op.1 = true → ∃ message, ending.2 = some (.free message)
  elsewhere : pointer ≠ 0#w →
    (∀ op ∈ state.addressSpace.objects, pointer.toNat ≠ op.1.address) →
      ending.2 = some (.ptr "memory error: invalid pointer: free")

/-- Every assignment of the path condition is in exactly one of the states, which has the
outcome for it. -/
structure Partitioned (state : ExecutionState) (outcome : Assignment → Ending → Prop)
    (endings : List Ending) : Prop where
  covers : ∀ ρ, Hold ρ state.constraints →
    ∃ ending ∈ endings, Hold ρ ending.1.constraints ∧ outcome ρ ending
  disjoint : endings.Pairwise fun first second =>
    ∀ ρ, Hold ρ first.1.constraints → ¬ Hold ρ second.1.constraints
  within : ∀ ending ∈ endings, ∀ ρ, Hold ρ ending.1.constraints → Hold ρ state.constraints

theorem Partitioned.perm {outcome : Assignment → Ending → Prop} {first second : List Ending}
    (partitioned : Partitioned state outcome first) (perm : first.Perm second) : Partitioned state outcome second where
  covers ρ hold := by
    obtain ⟨ending, member, holds, right⟩ := partitioned.covers ρ hold
    exact ⟨ending, perm.mem_iff.mp member, holds, right⟩
  disjoint := (perm.pairwise_iff fun apart ρ right left => apart ρ left right).mp partitioned.disjoint
  within ending member := partitioned.within ending (perm.mem_iff.mpr member)

section Outcomes

variable {part : ExecutionState} {pointer : BitVec w}

theorem bindNull_constraints : (bindNull w target part).constraints = part.constraints := by
  cases target <;> rfl

theorem bindNull_addressSpace : (bindNull w target part).addressSpace = part.addressSpace := by
  cases target <;> rfl

theorem objectEnding_constraints : (objectEnding w isLocal isGlobal target (op, part)).1.constraints = part.constraints := by
  rw [objectEnding]
  split
  · rfl
  · split
    · rfl
    · exact bindNull_constraints

theorem toNat_eq_address (separate : state.addressSpace.Separate w) (member : op ∈ state.addressSpace.objects) :
    pointer.toNat = op.1.address ↔ pointer = ObjectPair.base w op := by
  rw [← ObjectPair.toNat_base (separate.addressable op member), BitVec.toNat_inj]

theorem separate_congr {space copied : AddressSpace} (same : copied.objects = space.objects)
    (separate : space.Separate w) : copied.Separate w := by
  constructor
  · rw [same]
    exact separate.sorted
  · rw [same]
    exact separate.disjoint
  · rw [same]
    exact separate.addressable

theorem mem_unbindObject {space : AddressSpace} (separate : space.Separate w) (member : op ∈ space.objects) :
    other ∈ (space.unbindObject op.1).objects ↔ other ∈ space.objects ∧ other ≠ op := by
  rw [AddressSpace.unbindObject, ImmutableMap.remove, mem_filter]
  apply and_congr_right
  intro memberOther
  rw [decide_eq_true_eq, ne_eq, not_iff_not]
  constructor
  · intro same
    apply base_injective separate memberOther member
    rw [ObjectPair.base, ObjectPair.base, same]
  · rintro rfl
    rfl

theorem null_outcome (isNull : pointer = 0#w) (objects : part.addressSpace.objects = state.addressSpace.objects) :
    FreeOutcome w isLocal isGlobal state pointer (bindNull w target part, none) where
  null _ := ⟨rfl, by rw [bindNull_addressSpace, objects]⟩
  heap _ _ notNull := absurd isNull notNull
  notHeap _ _ notNull := absurd isNull notNull
  elsewhere notNull := absurd isNull notNull

theorem object_outcome (separate : state.addressSpace.Separate w) (objects : part.addressSpace.objects = state.addressSpace.objects)
    (member : op ∈ state.addressSpace.objects) (notNull : pointer ≠ 0#w) (isBase : pointer = ObjectPair.base w op) :
    FreeOutcome w isLocal isGlobal state pointer (objectEnding w isLocal isGlobal target (op, part)) := by
  have address : pointer.toNat = op.1.address := (toNat_eq_address separate member).mpr isBase
  have only {other : ObjectPair} (memberOther : other ∈ state.addressSpace.objects)
      (same : pointer.toNat = other.1.address) : other = op :=
    base_injective separate memberOther member (((toNat_eq_address separate memberOther).mp same).symm.trans isBase)
  constructor
  · exact fun isNull => absurd isNull notNull
  · intro found memberFound _ same onHeap notGlobal
    obtain rfl := only memberFound same
    rw [objectEnding, if_neg (by simp [onHeap]), if_neg (by simp [notGlobal])]
    refine ⟨rfl, fun other => ?_⟩
    rw [bindNull_addressSpace, ← mem_unbindObject separate member]
    simp only [AddressSpace.unbindObject, objects]
  · intro found memberFound _ same elsewhere
    obtain rfl := only memberFound same
    rw [objectEnding]
    by_cases onStack : isLocal found.1 = true
    · exact ⟨_, by rw [if_pos onStack]⟩
    · exact ⟨_, by rw [if_neg onStack, if_pos (elsewhere.resolve_left onStack)]⟩
  · exact fun _ none => absurd address (none op member)

theorem invalid_outcome (separate : state.addressSpace.Separate w)
    (none : ∀ op ∈ state.addressSpace.objects, pointer ≠ ObjectPair.base w op) (notNull : pointer ≠ 0#w) :
    FreeOutcome w isLocal isGlobal state pointer (part, some (.ptr ("memory error: invalid pointer: " ++ "free"))) where
  null isNull := absurd isNull notNull
  heap op member _ same := absurd ((toNat_eq_address separate member).mp same) (none op member)
  notHeap op member _ same := absurd ((toNat_eq_address separate member).mp same) (none op member)
  elsewhere _ _ := rfl

end Outcomes

def freeEndings (w : Nat) (isLocal isGlobal : MemoryObject → Bool) (target : Option Nat)
    (null : Option ExecutionState) (results : ExactResolutionList)
    (unbound : Option ExecutionState) : List Ending :=
  (null.map fun part => (Executor.bindNull w target part, none)).toList ++
    (results.map (objectEnding w isLocal isGlobal target) ++
      (unbound.map fun part =>
        (part, some (.ptr ("memory error: invalid pointer: " ++ "free")))).toList)

section Parts

variable {results : ExactResolutionList} {null unbound : Option ExecutionState} {rest : ExecutionState} {ending : Ending}

theorem freeEndings_perm {states : List ExecutionState} {terminated : List (ExecutionState × TerminateReason)}
    (perm : (endings states terminated).Perm
      (results.map (objectEnding w isLocal isGlobal target))) :
    (endings ((null.map (bindNull w target)).toList ++ states)
        (invalidPointer "free" unbound ++ terminated)).Perm (freeEndings w isLocal isGlobal target null results unbound) := by
  have nulls : (null.map (bindNull w target)).toList.map (fun part => ((part, none) : Ending)) =
        (null.map fun part => (bindNull w target part, none)).toList := by
    cases null <;> rfl
  have invalid : (invalidPointer "free" unbound).map (fun part => ((part.1, some part.2) : Ending)) = (unbound.map fun part =>
          (part, some (.ptr ("memory error: invalid pointer: " ++ "free")))).toList := by
    cases unbound <;> rfl
  rw [endings, freeEndings, map_append, map_append, nulls, invalid, append_assoc]
  apply List.Perm.append_left
  apply (List.Perm.append_left _ perm_append_comm).trans
  rw [← append_assoc]
  exact perm.append_right _

theorem mem_freeEndings
    (member : ending ∈ freeEndings w isLocal isGlobal target null results unbound) :
    (∃ part, null = some part ∧ ending = (bindNull w target part, none)) ∨
      (∃ found ∈ results, ending = objectEnding w isLocal isGlobal target found) ∨
      ∃ part, unbound = some part ∧ ending = (part, some (.ptr ("memory error: invalid pointer: " ++ "free"))) := by
  simp only [freeEndings, mem_append, Option.mem_toList, Option.map_eq_some_iff, mem_map] at member
  obtain ⟨part, isNull, rfl⟩ | ⟨found, isFound, rfl⟩ | ⟨part, isUnbound, rfl⟩ := member
  · exact .inl ⟨part, isNull, rfl⟩
  · exact .inr (.inl ⟨found, isFound, rfl⟩)
  · exact .inr (.inr ⟨part, isUnbound, rfl⟩)

variable (whenNull : Divides o state (fun ρ => value ρ = 0#w) null) (notNull : Part o state (fun ρ => value ρ ≠ 0#w) rest)
  (resolved : ExactlyResolved o rest value rl results unbound)

include whenNull notNull resolved

theorem freeEndings_within :
    ∀ ending ∈ freeEndings w isLocal isGlobal target null results unbound, ∀ ρ,
      Hold ρ ending.1.constraints → Hold ρ state.constraints := by
  intro ending member ρ hold
  obtain ⟨part, rfl, rfl⟩ | ⟨⟨op, part⟩, isFound, rfl⟩ | ⟨part, rfl, rfl⟩ := mem_freeEndings member
  · rw [bindNull_constraints] at hold
    exact Part.hold whenNull hold
  · rw [objectEnding_constraints] at hold
    exact notNull.hold ((resolved.part _ isFound).hold hold)
  · exact notNull.hold (Part.hold resolved.unbound hold)

theorem freeEndings_disjoint (distinct : DistinctBases w rl) :
    (freeEndings w isLocal isGlobal target null results unbound).Pairwise fun first second =>
      ∀ ρ, Hold ρ first.1.constraints → ¬ Hold ρ second.1.constraints := by
  have atMostOne {α : Type} {R : α → α → Prop} (single : Option α) : single.toList.Pairwise R := by
    cases single <;> simp
  -- the value of the pointer tells the states apart
  have found (result : ObjectPair × ExecutionState) (member : result ∈ results) (ρ : Assignment)
      (hold : Hold ρ (objectEnding w isLocal isGlobal target result).1.constraints) :
      value ρ = ObjectPair.base w result.1 ∧ value ρ ≠ 0#w := by
    rw [objectEnding_constraints] at hold
    have part := resolved.part result member
    exact ⟨part.meets hold, notNull.meets (part.hold hold)⟩
  rw [freeEndings, pairwise_append, pairwise_append, pairwise_map]
  refine ⟨atMostOne _, ⟨?_, atMostOne _, ?_⟩, ?_⟩
  · have bases := distinct.sublist resolved.sublist
    rw [pairwise_map] at bases
    apply bases.imp_of_mem
    intro first second memberFirst memberSecond different ρ left right
    apply different
    exact (found first memberFirst ρ left).1.symm.trans (found second memberSecond ρ right).1
  · intro first memberFirst second memberSecond ρ left right
    obtain ⟨result, isFound, rfl⟩ := List.mem_map.mp memberFirst
    obtain ⟨part, rfl, rfl⟩ := Option.map_eq_some_iff.mp (Option.mem_toList.mp memberSecond)
    exact Part.meets resolved.unbound right result.1 (resolved.sublist.mem (mem_map_of_mem isFound)) (found result isFound ρ left).1
  · intro first memberFirst second memberSecond ρ left right
    obtain ⟨part, rfl, rfl⟩ := Option.map_eq_some_iff.mp (Option.mem_toList.mp memberFirst)
    rw [bindNull_constraints] at left
    have isNull := Part.meets whenNull left
    rw [mem_append] at memberSecond
    cases memberSecond with
    | inl member =>
      obtain ⟨result, isFound, rfl⟩ := List.mem_map.mp member
      exact (found result isFound ρ right).2 isNull
    | inr member =>
      obtain ⟨part, rfl, rfl⟩ := Option.map_eq_some_iff.mp (Option.mem_toList.mp member)
      exact notNull.meets (Part.hold resolved.unbound right) isNull

theorem freeEndings_covers (separate : state.addressSpace.Separate w)
    (listed : Listed rest.constraints value rest.addressSpace rl) (hold : Hold ρ state.constraints) :
    ∃ ending ∈ freeEndings w isLocal isGlobal target null results unbound,
      Hold ρ ending.1.constraints ∧ FreeOutcome w isLocal isGlobal state (value ρ) ending := by
  by_cases isNull : value ρ = 0#w
  · cases null with
    | none => exact absurd isNull (whenNull ρ hold)
    | some part =>
      refine ⟨(bindNull w target part, none), by simp [freeEndings], ?_, ?_⟩
      · rw [bindNull_constraints, Part.hold_iff whenNull]
        exact ⟨hold, isNull⟩
      · exact null_outcome isNull (Part.objects whenNull)
  · have holdRest : Hold ρ rest.constraints := (notNull.hold_iff ρ).mpr ⟨hold, isNull⟩
    by_cases isBase : ∃ op ∈ rl, value ρ = ObjectPair.base w op
    · obtain ⟨op, member, isBase⟩ := isBase
      obtain ⟨⟨op, part⟩, isFound, rfl⟩ := List.mem_map.mp (resolved.covers op member ρ holdRest isBase)
      have divides := resolved.part _ isFound
      have isObject := ((listed.mem_iff op).mp member).1
      rw [notNull.objects] at isObject
      refine ⟨objectEnding w isLocal isGlobal target (op, part), ?_, ?_, ?_⟩
      · simp only [freeEndings, mem_append, mem_map]
        exact .inr (.inl ⟨_, isFound, rfl⟩)
      · rw [objectEnding_constraints, divides.hold_iff]
        exact ⟨holdRest, isBase⟩
      · exact object_outcome separate (divides.objects.trans notNull.objects) isObject isNull isBase
    · have different (op : ObjectPair) (member : op ∈ rl) : value ρ ≠ ObjectPair.base w op := fun same => isBase ⟨op, member, same⟩
      have whenUnbound := resolved.unbound
      cases unbound with
      | none => exact absurd different (whenUnbound ρ holdRest)
      | some part =>
        refine ⟨_, mem_append_right _ (mem_append_right _ (mem_singleton_self _)),
          (Part.hold_iff whenUnbound ρ).mpr ⟨holdRest, different⟩, ?_⟩
        apply invalid_outcome separate _ isNull
        intro op member same
        apply different op _ same
        refine (listed.mem_iff op).mpr ⟨by rw [notNull.objects]; exact member, ρ, holdRest, ?_⟩
        rw [(toNat_eq_address separate member).mpr same]
        exact op.1.contains_base

end Parts

theorem executeFree_spec (sound : solver.Sound) (notReplaying : options.replayKTest = false)
    (optimizes : ∀ valueOnly, Optimizes o fun e => optimizeExpr e valueOnly)
    (unlimited : Unlimited options state) (sane : Sane o state.constraints)
    (means : Means o state.constraints address value) (narrow : w ≤ 64) (separate : state.addressSpace.Separate w) :
    Satisfies (· = .outOfFuel)
      (fun result => ∃ forks terminated,
        result.1 = { executor with
          forks := forks, terminated := executor.terminated ++ terminated } ∧
        Partitioned state (fun ρ => FreeOutcome w isLocal isGlobal state (value ρ)) (endings result.2 terminated))
      (executeFree o options solver optimizeExpr w fuel isLocal isGlobal target executor state address) := by
  have optimized : Means o state.constraints (optimizeExpr address true) value :=
    fun ρ hold => optimizes true ρ address w _ (means ρ hold)
  have isZero : Satisfies (· = .outOfFuel) (fun isZero => Settles o state.constraints isZero fun ρ => decide (value ρ = 0#w))
      (createIsZero o fuel (optimizeExpr address true)) := by
    rw [createIsZero, optimized.width sane]
    exact eq_spec sane optimized 0#w
  apply Satisfies.bind isZero
  intro isZero settles
  apply Satisfies.bind (fork_parts sound unlimited notReplaying sane settles)
  rintro ⟨forked, null, rest⟩ ⟨⟨forks, rfl⟩, whenNull, whenFalse⟩
  simp only [decide_eq_true_eq, decide_eq_false_iff_not] at whenNull whenFalse
  cases rest with
  | none =>
    have always (ρ : Assignment) (hold : Hold ρ state.constraints) : value ρ = 0#w := Classical.not_not.mp (whenFalse ρ hold)
    refine ⟨forks, [], by rw [append_nil], ?_⟩
    cases null with
    | none =>
      obtain ⟨ρ, hold⟩ := sane.possible
      exact absurd (always ρ hold) (whenNull ρ hold)
    | some part =>
      have part_iff (ρ : Assignment) : Hold ρ (bindNull w target part).constraints ↔ Hold ρ state.constraints := by
        rw [bindNull_constraints, Part.hold_iff whenNull]
        exact and_iff_left_of_imp (always ρ)
      constructor
      · intro ρ hold
        exact ⟨_, mem_singleton_self _, (part_iff ρ).mpr hold, null_outcome (always ρ hold) (Part.objects whenNull)⟩
      · exact pairwise_singleton _ _
      · intro ending member ρ hold
        rw [mem_singleton.mp member] at hold
        exact (part_iff ρ).mp hold
  | some rest =>
    have restSeparate : rest.addressSpace.Separate w := separate_congr (Part.objects whenFalse) separate
    apply Satisfies.bind (resolveExact_spec sound notReplaying optimizes
      (Part.unlimited whenFalse unlimited) (Part.sane whenFalse) (Part.means whenFalse optimized)
      narrow restSeparate)
    rintro ⟨ended, results⟩ ⟨later, rl, unbound, rfl, listed, resolved⟩
    obtain ⟨states, terminated, freed, perm⟩ := freeObjects_spec results { executor with
      forks := later, terminated := executor.terminated ++ invalidPointer "free" unbound }
    dsimp only
    rw [freed]
    refine ⟨later, invalidPointer "free" unbound ++ terminated, by rw [append_assoc], Partitioned.perm ?_ (freeEndings_perm perm).symm⟩
    exact ⟨fun ρ hold => freeEndings_covers whenNull whenFalse resolved separate listed hold,
      freeEndings_disjoint whenNull whenFalse resolved (listed.distinctBases restSeparate),
      freeEndings_within whenNull whenFalse resolved⟩

theorem resolveExactLoop_halts (rl : ResolutionList) :
    ∀ (executor : Executor) (state : ExecutionState) (results : ExactResolutionList),
      Ends fun fuel => resolveExactLoop o options solver w fuel p rl executor state
        results := by
  induction rl with
  | nil => exact fun executor state results => .pure _
  | cons op rl ih =>
    intro executor state results
    apply (EqExpr.create_ends p (op.1.getBaseExpr w)).bind
    intro inBounds _
    apply internalFork_halts.bind
    rintro ⟨forked, first, second⟩ _
    cases second with
    | none => exact .pure _
    | some unbound => exact ih _ _ _

theorem resolveExact_halts :
    Ends fun fuel => resolveExact o options solver optimizeExpr w fuel executor state p
      name := by
  apply resolve_halts.bind
  rintro ⟨incomplete, rl⟩ _
  apply (resolveExactLoop_halts rl executor state []).bind
  rintro ⟨ended, results, unbound⟩ _
  cases unbound with
  | none => exact .pure _
  | some part => exact .pure _

theorem executeFree_halts :
    Ends fun fuel => executeFree o options solver optimizeExpr w fuel isLocal isGlobal target executor state address := by
  apply (createIsZero_ends (optimizeExpr address true)).bind
  intro isZero _
  apply internalFork_halts.bind
  rintro ⟨forked, null, rest⟩ _
  cases rest with
  | none => exact .pure _
  | some rest =>
    apply resolveExact_halts.bind
    rintro ⟨ended, results⟩ _
    exact .pure _

theorem executeFree_partition (sound : solver.Sound) (notReplaying : options.replayKTest = false)
    (optimizes : ∀ valueOnly, Optimizes o fun e => optimizeExpr e valueOnly)
    (unlimited : Unlimited options state) (sane : Sane o state.constraints)
    (means : Means o state.constraints address value) (narrow : w ≤ 64)
    (separate : state.addressSpace.Separate w) :
    ∃ executor' states terminated,
      Returns (fun fuel => Executor.executeFree o options solver optimizeExpr w fuel isLocal
        isGlobal target executor state address) (executor', states) ∧
      executor'.heap = executor.heap ∧
      executor'.terminated = executor.terminated ++ terminated ∧
      Partitioned state (fun ρ => FreeOutcome w isLocal isGlobal state (value ρ))
        (endings states terminated) := by
  have halts : Ends fun fuel => executeFree o options solver optimizeExpr w fuel isLocal
      isGlobal target executor state address := executeFree_halts
  obtain ⟨⟨executor', states⟩, ⟨forks, terminated, same, partitioned⟩, returns⟩ :=
    halts.returns fun fuel =>
      executeFree_spec sound notReplaying optimizes unlimited sane means narrow separate
  subst same
  exact ⟨_, states, terminated, returns, rfl, rfl, partitioned⟩

section Example

open Executor (idealSolver idealSolver_sound sampleOptions sampleExecutor)

def freeSampleState : ExecutionState := ⟨0, 0, [], 0, false, sampleSpace, [], []⟩

theorem executeFree_partition_sample : ∃ executor' states terminated,
    Returns (fun fuel => Executor.executeFree ⟨false, true⟩ sampleOptions idealSolver
      (fun e _ => e) 64 fuel (fun _ => false) (fun mo => mo.id = 2) none sampleExecutor
      freeSampleState samplePointer) (executor', states) ∧
    executor'.heap = [] ∧ executor'.terminated = [] ++ terminated ∧
    Partitioned freeSampleState
      (fun ρ => FreeOutcome 64 (fun _ => false) (fun mo => mo.id = 2) freeSampleState
        (samplePointer.eval ρ 64))
      (endings states terminated) :=
  executeFree_partition idealSolver_sound rfl (fun _ _ _ _ _ => id) ⟨rfl, rfl, rfl, rfl, rfl, rfl⟩
    Sane.nil (fun _ _ => ⟨samplePointer_wellFormed, rfl, rfl⟩) (by decide) sampleSpace_separate

end Example

end NeuroMerge.Execution
