import NeuroMerge.Execution.AllocProperties
import NeuroMerge.Execution.FreePortions

/-!
# The allocation functions

What `malloc`, `calloc`, `memalign` and `realloc` return, for arguments of which only the
values are known.
-/

namespace NeuroMerge.Execution

open Symbolic
open Symbolic.ConstraintManager (Hold)
open Memory (MemoryObject ObjectState AddressSpace Context Ref Heap deref Clear Host MemoryOptions MemoryManager)

variable {ρ : Assignment} {o : Options} {options : ForkOptions} {solver : Solver}
  {optimizeExpr : Expr → Bool → Expr} {context : Context} {host : Host} {memory : MemoryOptions}
  {fuel w n target : Nat} {constraints : List Expr} {executor : Executor} {manager : MemoryManager}
  {state part last : ExecutionState} {allocSite : KInstIterator → AllocSite}
  {heap heap' : Heap} {isLocal isGlobal : MemoryObject → Bool} {address size : Expr}
  {pointer : Assignment → BitVec w} {value : Assignment → BitVec n}

/-!
## Moving an object
-/

def PointsTo (w : Nat) (state : ExecutionState) (pointer : BitVec w) : Option ObjectPair → Prop
  | none => pointer = 0#w
  | some op =>
    op ∈ state.addressSpace.objects ∧ pointer = ObjectPair.base w op ∧ pointer ≠ 0#w

def Reallocated (o : Options) (target : Nat) (allocSite : KInstIterator → AllocSite)
    (state : ExecutionState) (pointer : Assignment → BitVec w) (value : Assignment → BitVec n)
    (before after : Heap) (last : ExecutionState) : Prop :=
  ∃ moved part, Portion o state (fun ρ => PointsTo w state (pointer ρ) moved) part ∧
    AllocOutcome o state.constraints w ⟨target, false, moved⟩ allocSite part value 0 before after
      last

/-- The states that go on, and what is left behind. -/
structure Reallocates (o : Options) (memory : MemoryOptions) (target : Nat)
    (allocSite : KInstIterator → AllocSite) (state : ExecutionState)
    (pointer : Assignment → BitVec w) (value : Assignment → BitVec n) (heap : Heap)
    (manager : MemoryManager) (result : Executor × MemoryManager × List ExecutionState) : Prop where
  proceeds : Proceeds o state.constraints heap manager result.1.heap result.2.1
  ready : result.2.1.Ready memory
  states : ∀ last ∈ result.2.2,
    Reallocated o target allocSite state pointer value heap result.1.heap last

theorem PointsTo.isObject {moved : Option ObjectPair} (on : Portion o state (fun ρ => PointsTo w state (pointer ρ) moved) part) :
    ∀ op ∈ moved, op ∈ state.addressSpace.objects := by
  intro op isMoved
  subst isMoved
  obtain ⟨ρ, hold⟩ := on.sane.possible
  exact (on.meets hold).1

namespace Reallocates

theorem nil (ready : manager.Ready memory) (sameHeap : executor.heap = heap) :
    Reallocates o memory target allocSite state pointer value heap manager (executor, manager, []) where
  proceeds := by
    rw [sameHeap]
    exact .refl
  ready := ready
  states := nofun

theorem append {executor executor' : Executor} {manager' manager'' : MemoryManager}
    {states others : List ExecutionState} (backed : Backed o state.constraints heap manager state)
    (first : Reallocates o memory target allocSite state pointer value heap manager
      (executor, manager', states))
    (second : Reallocates o memory target allocSite state pointer value executor.heap manager'
      (executor', manager'', others)) :
    Reallocates o memory target allocSite state pointer value heap manager (executor', manager'', states ++ others) := by
  refine ⟨first.proceeds.trans second.proceeds, second.ready, fun last member => ?_⟩
  have moves {before after : Heap} (earlier : Keeps o state.constraints heap before)
      (later : Keeps o state.constraints after executor'.heap)
      (made : Reallocated o target allocSite state pointer value before after last) :
      Reallocated o target allocSite state pointer value heap executor'.heap last := by
    obtain ⟨moved, part, on, outcome⟩ := made
    exact ⟨moved, part, on, outcome.heaps earlier later (backed.congr on.objects)
      fun op isMoved => on.objects.symm ▸ PointsTo.isObject on op isMoved⟩
  rw [List.mem_append] at member
  cases member with
  | inl member => exact moves (.refl heap) second.proceeds.heap (first.states last member)
  | inr member => exact moves first.proceeds.heap (.refl _) (second.states last member)

end Reallocates

variable {second : Option ExecutionState}

section Realloc

variable (sound : solver.Sound) (optimizes : ∀ valueOnly, Optimizes o fun e => optimizeExpr e valueOnly)
  (lawful : host.Lawful) (sane : Sane o state.constraints) (site : allocSite state.prevPC = .call) (narrow : n ≤ 64)
  (separate : state.addressSpace.Separate context.pointerWidth) (means : Means o state.constraints size value)

include sound optimizes lawful sane site narrow separate means

theorem executeAlloc_reallocates {pointer : Assignment → BitVec context.pointerWidth}
    (moved : Option ObjectPair) (ready : manager.Ready memory) (backed : Backed o state.constraints executor.heap manager state)
    (on : Portion o state (fun ρ => PointsTo context.pointerWidth state (pointer ρ) moved) part) :
    Satisfies (Replays options) (Reallocates o memory target allocSite state pointer value executor.heap manager)
      (Executor.executeAlloc o options solver optimizeExpr context host memory fuel allocSite
        target false (moved.map Prod.snd) executor manager part size 0) := by
  have default : getAllocationAlignment (allocSite part.prevPC) ≤ 2 ^ 62 := by
    rw [on.prevPC, site]
    decide
  have prepared : Prepared o state.constraints context.pointerWidth memory ⟨target, false, moved⟩
      executor.heap manager state :=
    ⟨ready, backed, separate, PointsTo.isObject on⟩
  have spec : Satisfies (Replays options) (AllocOutcomes o state.constraints context.pointerWidth memory ⟨target, false, moved⟩
        allocSite part value 0 executor.heap manager)
      (Executor.executeAlloc o options solver optimizeExpr context host memory fuel allocSite
        target false (moved.map Prod.snd) executor manager part size 0) :=
    executeAlloc_spec sound optimizes sane.possible lawful (prepared.congr on.objects) default
      narrow (Nat.two_pow_pos 64) on.sane (on.means means)
  apply spec.mono
  intro result facts
  obtain ⟨proceeds, readyAfter, outcomes⟩ := facts
  exact ⟨proceeds, readyAfter default, fun last member => ⟨moved, part, on, outcomes last member⟩⟩

theorem reallocNull_spec {pointer : Assignment → BitVec context.pointerWidth}
    {first : Option ExecutionState} (ready : manager.Ready memory) (backed : Backed o state.constraints executor.heap manager state)
    (on : ∀ part ∈ first, Portion o state (fun ρ => pointer ρ = 0#(context.pointerWidth)) part) :
    Satisfies (Replays options) (Reallocates o memory target allocSite state pointer value executor.heap manager)
      (SpecialFunctionHandler.reallocNull o options solver optimizeExpr context host memory fuel
        allocSite target executor manager size first) := by
  cases first with
  | none => exact .nil ready rfl
  | some part =>
    have onPart : Portion o state (fun ρ => PointsTo context.pointerWidth state (pointer ρ) none) part := on part rfl
    exact executeAlloc_reallocates sound optimizes lawful sane site narrow separate means none ready backed onPart

theorem reallocObjects_spec {pointer : Assignment → BitVec context.pointerWidth} (rl : ExactResolutionList) :
    ∀ (executor : Executor) (manager : MemoryManager), manager.Ready memory →
      Backed o state.constraints executor.heap manager state → AtBases o state pointer rl →
      (∀ found ∈ rl, ∀ ρ, Hold ρ found.2.constraints → pointer ρ ≠ 0#_) →
      Satisfies (Replays options) (Reallocates o memory target allocSite state pointer value executor.heap manager)
        (SpecialFunctionHandler.reallocObjects o options solver optimizeExpr context host memory
          fuel allocSite target size executor manager rl) := by
  induction rl with
  | nil => exact fun executor manager ready _ _ _ => .nil ready rfl
  | cons found rl ih =>
    intro executor manager ready backed atBases notNull
    obtain ⟨op, part⟩ := found
    obtain ⟨isObject, on⟩ := atBases (op, part) (by simp)
    have onPart : Portion o state (fun ρ => PointsTo context.pointerWidth state (pointer ρ) (some op)) part := { on with
        within := fun ρ hold =>
          ⟨on.hold hold, isObject, on.meets hold, notNull (op, part) (by simp) ρ hold⟩ }
    apply Satisfies.bind (executeAlloc_reallocates sound optimizes lawful sane site narrow separate means (some op) ready backed onPart)
    intro result first
    obtain ⟨executor', manager', states⟩ := result
    apply Satisfies.bind (ih executor' manager' first.ready (backed.proceeds first.proceeds)
      (fun found member => atBases found (List.mem_cons_of_mem _ member))
      fun found member => notNull found (List.mem_cons_of_mem _ member))
    intro result second
    exact first.append backed second

section

variable {pointer : Assignment → BitVec context.pointerWidth} (wide : context.pointerWidth ≤ 64)
  (points : Means o state.constraints address pointer) (ready : manager.Ready memory)
  (backed : Backed o state.constraints executor.heap manager state)
include wide points ready backed

theorem reallocPointer_spec (on : ∀ part ∈ second, Portion o state (fun ρ => pointer ρ ≠ 0#_) part) :
    Satisfies (Replays options) (Reallocates o memory target allocSite state pointer value executor.heap manager)
      (SpecialFunctionHandler.reallocPointer o options solver optimizeExpr context host memory fuel
        allocSite target executor manager address size second) := by
  cases second with
  | none => exact .nil ready rfl
  | some part =>
    have onPart := on part rfl
    apply Satisfies.bind (resolveExact_portions sound optimizes onPart.sane (onPart.means points)
      wide (separate_congr onPart.objects separate))
    intro result facts
    obtain ⟨executor', rl⟩ := result
    obtain ⟨sameHeap, atBases⟩ := facts
    have atState : AtBases o state pointer rl := by
      intro found member
      obtain ⟨isObject, onFound⟩ := atBases found member
      rw [onPart.objects] at isObject
      exact ⟨isObject, (onPart.trans onFound).weaken fun _ _ => And.right⟩
    rw [← sameHeap] at backed ⊢
    exact reallocObjects_spec sound optimizes lawful sane site narrow separate means rl executor'
      manager ready backed atState fun found member ρ hold =>
        onPart.meets ((atBases found member).2.hold hold)

theorem reallocNonzero_spec {condition : Assignment → Prop} (on : ∀ part ∈ second, Portion o state condition part) :
    Satisfies (Replays options) (Reallocates o memory target allocSite state pointer value executor.heap manager)
      (SpecialFunctionHandler.reallocNonzero o options solver optimizeExpr context host memory fuel
        allocSite target executor manager address size second) := by
  cases second with
  | none => exact .nil ready rfl
  | some part =>
    have onPart := on part rfl
    have pointsPart := onPart.means points
    rw [SpecialFunctionHandler.reallocNonzero, createIsZero, pointsPart.width onPart.sane]
    apply Satisfies.bind_left (eq_spec onPart.sane pointsPart 0#_)
    intro isNull settles
    apply Satisfies.bind (fork_portions sound onPart.sane settles)
    intro forked sides
    obtain ⟨forked, first, second⟩ := forked
    have sameHeap : forked.heap = executor.heap := sides.heap
    rw [← sameHeap] at backed ⊢
    apply Satisfies.bind (reallocNull_spec sound optimizes lawful sane site narrow separate means
      ready backed fun part isFirst => (onPart.trans (sides.whenTrue part isFirst)).weaken fun _ _ both => of_decide_eq_true both.2)
    intro result made
    apply Satisfies.bind (reallocPointer_spec sound optimizes lawful sane site narrow separate
      means wide points made.ready (backed.proceeds made.proceeds)
      fun part isSecond => (onPart.trans (sides.whenFalse part isSecond)).weaken fun _ _ both => of_decide_eq_false both.2)
    intro result moved
    exact made.append backed moved

end

end Realloc

/-!
## What a call returns
-/

structure Argument (o : Options) (constraints : List Expr) (w : Nat) where
  expr : Expr
  value : Assignment → BitVec w
  means : Means o constraints expr value

/-- A pointer has `w` bits, and a size has `n`. -/
inductive AllocCall (o : Options) (constraints : List Expr) (w n : Nat) where
  | malloc (size : Argument o constraints n)
  | calloc (count size : Argument o constraints n)
  | memalign (alignment size : Argument o constraints n)
  | realloc (address : Argument o constraints w) (size : Argument o constraints n)

namespace AllocCall

open SpecialFunctionHandler

section Handle

variable (options : ForkOptions) (solver : Solver) (optimizeExpr : Expr → Bool → Expr)
  (context : Context) (host : Host) (memory : MemoryOptions) (fuel : Nat)
  (allocSite : KInstIterator → AllocSite) (target : Nat) (isLocal isGlobal : MemoryObject → Bool)

def handle (executor : Executor) (manager : MemoryManager) (state : ExecutionState) :
    AllocCall o constraints w n → Except Fault (Executor × MemoryManager × List ExecutionState)
  | .malloc size =>
    handleMalloc o options solver optimizeExpr context host memory fuel allocSite target executor
      manager state size.expr
  | .calloc count size =>
    handleCalloc o options solver optimizeExpr context host memory fuel allocSite target executor
      manager state count.expr size.expr
  | .memalign alignment size =>
    handleMemalign o options solver optimizeExpr context host memory fuel allocSite target
      executor manager state [alignment.expr, size.expr]
  | .realloc address size =>
    handleRealloc o options solver optimizeExpr context host memory fuel allocSite target isLocal
      isGlobal executor manager state address.expr size.expr

end Handle

def bytes (ρ : Assignment) : AllocCall o constraints w n → Nat
  | .calloc count size => (count.value ρ).toNat * (size.value ρ).toNat
  | .malloc size | .memalign _ size | .realloc _ size => (size.value ρ).toNat

def Moves (ρ : Assignment) (op : ObjectPair) : AllocCall o constraints w n → Prop
  | .realloc address _ => address.value ρ ≠ 0#w ∧ (address.value ρ).toNat = op.1.address
  | _ => False

/-- If the size has one value, the address is a multiple of the smallest alignment that is
possible. -/
def Aligned (address : Nat) : AllocCall o constraints w n → Prop
  | .memalign alignment size => OnlyOne constraints size.value → ∀ least,
      IsLeast {a | ∃ ρ, Hold ρ constraints ∧ (alignment.value ρ).toNat = a} least →
        least ≠ 0 → least ∣ address
  | _ => True

def Filled (before : Heap) (state last : ExecutionState) (os : ObjectState) :
    AllocCall o constraints w n → Prop
  | .calloc _ _ => ∀ ρ, Hold ρ last.constraints → ∀ i < os.size, os.byte ρ i = 0
  | .realloc address _ => ∀ ρ, Hold ρ last.constraints → address.value ρ ≠ 0#w →
      ∃ op ∈ state.addressSpace.objects, (address.value ρ).toNat = op.1.address ∧
        ∃ old, before[op.2]? = some old ∧ old.size = op.1.size ∧
          ∀ i < min old.size os.size, os.byte ρ i = old.byte ρ i
  | _ => True

/-- The call returns the base of a new object as it was asked for. -/
structure Fulfilled (call : AllocCall o constraints w n) (target : Nat) (before after : Heap)
    (state last : ExecutionState) (mo : MemoryObject) (os : ObjectState) : Prop where
  stack : last.stack = (state.bindLocal target (mo.getBaseExpr w)).stack
  notNull : mo.address ≠ 0
  fresh : ∀ op ∈ state.addressSpace.objects, ∀ address,
    mo.Contains address → ¬ op.1.Contains address
  bound : ∃ ref, (mo, ref) ∈ last.addressSpace.objects ∧ after[ref]? = some os
  object : os.object = mo ∧ os.size = mo.size
  others : ∀ ρ, Hold ρ last.constraints → ∀ op ∈ state.addressSpace.objects,
    op ∈ last.addressSpace.objects ↔ ¬ call.Moves ρ op
  size : ∀ ρ, Hold ρ last.constraints → call.bytes ρ < 2 ^ 32 → call.bytes ρ < 2 ^ n →
    mo.size = call.bytes ρ
  aligned : call.Aligned mo.address
  filled : call.Filled before state last os

def Frees (target : Nat) (state last : ExecutionState) : AllocCall o constraints w n → Prop
  | .realloc address size => (∀ ρ, Hold ρ last.constraints → size.value ρ = 0#n) ∧
      Freed w state address.value (some target) last
  | _ => False

inductive Outcome (call : AllocCall o constraints w n) (target : Nat) (before after : Heap)
    (state last : ExecutionState) : Prop where
  | fulfilled {mo : MemoryObject} {os : ObjectState}
      (made : call.Fulfilled target before after state last mo os) :
      Outcome call target before after state last
  | null (stack : last.stack = (state.bindLocal target (createPointer w 0)).stack)
      (objects : last.addressSpace.objects = state.addressSpace.objects) :
      Outcome call target before after state last
  | freed (frees : call.Frees target state last) : Outcome call target before after state last

theorem fresh_of_clear {objects : List ObjectPair} {mo : MemoryObject} (clear : Clear (objects.map Prod.fst) mo.address mo.size) :
    ∀ op ∈ objects, ∀ address, mo.Contains address → ¬ op.1.Contains address := by
  intro op member address contains containsOther
  have apart := clear op.1 (List.mem_map_of_mem member)
  have above := contains.1
  have below := contains.2
  have aboveOther := containsOther.1
  have belowOther := containsOther.2
  omega

theorem outcome_of_allocOutcome {call : AllocCall o state.constraints w n}
    {condition : Assignment → Prop} {request : AllocRequest} {alignment : Nat} (on : Portion o state condition part)
    (outcome : AllocOutcome o state.constraints w request allocSite part value alignment heap heap'
      last) (bytes : ∀ ρ, call.bytes ρ < 2 ^ n → (value ρ).toNat = call.bytes ρ)
    (moves : ∀ ρ, Hold ρ last.constraints → ∀ op ∈ state.addressSpace.objects,
      call.Moves ρ op ↔ request.moved = some op)
    (aligned : ∀ address, (alignment = 0 ∨ OnlyOne part.constraints value →
      effectiveAlignment allocSite part alignment ∣ address) → call.Aligned address)
    (filled : ∀ os : ObjectState, (∀ ρ, Hold ρ state.constraints → ∀ i < os.size,
      os.byte ρ i = request.content heap ρ i) → call.Filled heap state last os) : call.Outcome request.target heap heap' state last := by
  cases outcome.outcome with
  | inl denied =>
    have isDenied := denied.of_portion on
    exact .null isDenied.stack isDenied.objects
  | inr made =>
    obtain ⟨mo, ref, os, granted, size, dvd⟩ := made
    have isGranted := granted.of_portion on
    refine .fulfilled ⟨isGranted.stack, isGranted.notNull, fresh_of_clear isGranted.clear,
      ⟨ref, (isGranted.objects _).mpr (.inl rfl), isGranted.stored⟩,
      ⟨isGranted.object, isGranted.size⟩, fun ρ hold op member => ?_, fun ρ hold small fits => ?_,
      aligned mo.address dvd, filled os fun ρ hold i within => ?_⟩
    · rw [isGranted.objects op, moves ρ hold op member, and_iff_right member]
      apply or_iff_right
      -- an object of the state is not the new one
      intro isNew
      have apart := isGranted.clear op.1 (List.mem_map_of_mem member)
      rw [isNew] at apart
      dsimp only at apart
      omega
    · rw [size ρ hold, bytes ρ fits]
      exact Nat.mod_eq_of_lt small
    · exact isGranted.bytes ρ hold i (isGranted.size ▸ within)

theorem reallocZero_spec {first : Option ExecutionState} (sound : solver.Sound)
    (optimizes : ∀ valueOnly, Optimizes o fun e => optimizeExpr e valueOnly)
    (separate : state.addressSpace.Separate context.pointerWidth) (wide : context.pointerWidth ≤ 64)
    (address : Argument o state.constraints context.pointerWidth) (size : Argument o state.constraints n)
    (on : ∀ part ∈ first, Portion o state (fun ρ => size.value ρ = 0#n) part) :
    Satisfies (Replays options)
      (fun result => result.1.heap = executor.heap ∧
        ∀ last ∈ result.2, (∀ ρ, Hold ρ last.constraints → Hold ρ state.constraints) ∧
          (AllocCall.realloc address size).Frees target state last)
      (reallocZero o options solver optimizeExpr context fuel target isLocal isGlobal executor address.expr first) := by
  cases first with
  | none => exact ⟨rfl, nofun⟩
  | some part =>
    have onPart := on part rfl
    apply Satisfies.mono (executeFree_portions sound optimizes onPart.sane
      (onPart.means address.means) wide (separate_congr onPart.objects separate))
    intro result facts
    refine ⟨facts.1, fun last member => ?_⟩
    obtain ⟨within, freed⟩ := facts.2 last member
    refine ⟨fun ρ hold => onPart.hold (within ρ hold), fun ρ hold => onPart.meets (within ρ hold), ?_⟩
    exact ⟨freed.stack.trans (bindNull_stack onPart.stack), onPart.objects ▸ freed.objects⟩

theorem reallocated_outcome (separate : state.addressSpace.Separate w) (backed : Backed o state.constraints heap manager state)
    (address : Argument o state.constraints w) (size : Argument o state.constraints n)
    (made : Reallocated o target allocSite state address.value size.value heap heap' last) :
    (∀ ρ, Hold ρ last.constraints → Hold ρ state.constraints) ∧
      (AllocCall.realloc address size).Outcome target heap heap' state last := by
  obtain ⟨moved, part, on, outcome⟩ := made
  have points (ρ : Assignment) (hold : Hold ρ last.constraints) :
      PointsTo w state (address.value ρ) moved := on.meets (outcome.within ρ hold)
  have holdState (ρ : Assignment) (hold : Hold ρ last.constraints) : Hold ρ state.constraints := on.hold (outcome.within ρ hold)
  refine ⟨holdState, outcome_of_allocOutcome on outcome (fun _ _ => rfl) ?_ (fun _ _ => trivial) ?_⟩
  · intro ρ hold op member
    have pointsHere := points ρ hold
    cases moved with
    | none => exact iff_of_false (fun moves => moves.1 pointsHere) nofun
    | some found =>
      obtain ⟨memberFound, isBase, notNull⟩ := pointsHere
      have moves_iff : (AllocCall.realloc address size).Moves ρ op ↔
          address.value ρ = ObjectPair.base w op :=
        (and_iff_right notNull).trans (toNat_eq_address separate member)
      rw [moves_iff, isBase, Option.some_inj]
      exact ⟨base_injective separate memberFound member, fun same => by rw [same]⟩
  · intro os contents ρ hold notNull
    have pointsHere := points ρ hold
    cases moved with
    | none => exact absurd pointsHere notNull
    | some op =>
      obtain ⟨member, isBase, -⟩ := pointsHere
      obtain ⟨old, stored, -, sameSize, -⟩ := backed.stored op member
      refine ⟨op, member, (toNat_eq_address separate member).mpr isBase, old, stored, sameSize, fun i within => ?_⟩
      obtain ⟨inOld, inNew⟩ := lt_min_iff.mp within
      rw [contents ρ (holdState ρ hold) i inNew]
      simp only [AllocRequest.content, Option.bind_some, stored, if_pos inOld]

section Spec

variable (sound : solver.Sound) (optimizes : ∀ valueOnly, Optimizes o fun e => optimizeExpr e valueOnly)
  (lawful : host.Lawful) (sane : Sane o state.constraints) (site : allocSite state.prevPC = .call) (narrow : n ≤ 64)
  (separate : state.addressSpace.Separate context.pointerWidth) (ready : manager.Ready memory)
  (backed : Backed o state.constraints executor.heap manager state)

include sound optimizes lawful sane site narrow separate ready backed

theorem executeAlloc_outcome {zeroMemory : Bool} {alignment : Nat} {call : AllocCall o state.constraints context.pointerWidth n}
    (means : Means o state.constraints size value) (small : alignment < 2 ^ 64)
    (bytes : ∀ ρ, call.bytes ρ < 2 ^ n → (value ρ).toNat = call.bytes ρ) (moves : ∀ ρ op, ¬ call.Moves ρ op)
    (aligned : ∀ address, (alignment = 0 ∨ OnlyOne state.constraints value →
      effectiveAlignment allocSite state alignment ∣ address) → call.Aligned address)
    (filled : ∀ (last : ExecutionState) (os : ObjectState),
      (∀ ρ, Hold ρ last.constraints → Hold ρ state.constraints) →
      (∀ ρ, Hold ρ state.constraints → ∀ i < os.size, os.byte ρ i = fill zeroMemory) →
        call.Filled executor.heap state last os) :
    Satisfies (Replays options)
      (fun result => Keeps o state.constraints executor.heap result.1.heap ∧
        ∀ last ∈ result.2.2, (∀ ρ, Hold ρ last.constraints → Hold ρ state.constraints) ∧
          call.Outcome target executor.heap result.1.heap state last)
      (Executor.executeAlloc o options solver optimizeExpr context host memory fuel allocSite
        target zeroMemory none executor manager state size alignment) := by
  have default : getAllocationAlignment (allocSite state.prevPC) ≤ 2 ^ 62 := by
    rw [site]
    decide
  have prepared : Prepared o state.constraints context.pointerWidth memory ⟨target, zeroMemory, none⟩ executor.heap manager state :=
    ⟨ready, backed, separate, nofun⟩
  have spec : Satisfies (Replays options) (AllocOutcomes o state.constraints context.pointerWidth memory ⟨target, zeroMemory, none⟩
        allocSite state value alignment executor.heap manager)
      (Executor.executeAlloc o options solver optimizeExpr context host memory fuel allocSite
        target zeroMemory none executor manager state size alignment) :=
    executeAlloc_spec sound optimizes sane.possible lawful prepared default narrow small sane means
  apply spec.mono
  intro result facts
  obtain ⟨proceeds, -, outcomes⟩ := facts
  refine ⟨proceeds.heap, fun last member => ?_⟩
  have outcome := outcomes last member
  refine ⟨outcome.within, ?_⟩
  exact outcome_of_allocOutcome (Portion.self sane fun _ _ => trivial) outcome bytes
    (fun ρ _ op _ => iff_of_false (moves ρ op) nofun) aligned
    fun os contents => filled last os outcome.within contents

theorem handleMalloc_spec (size : Argument o state.constraints n) :
    Satisfies (Replays options)
      (fun result => Keeps o state.constraints executor.heap result.1.heap ∧
        ∀ last ∈ result.2.2, (∀ ρ, Hold ρ last.constraints → Hold ρ state.constraints) ∧
          (AllocCall.malloc size : AllocCall o _ context.pointerWidth n).Outcome target
            executor.heap result.1.heap state last)
      (handleMalloc o options solver optimizeExpr context host memory fuel allocSite target executor manager state size.expr) := by
  exact executeAlloc_outcome sound optimizes lawful sane site narrow separate ready backed
    size.means (Nat.two_pow_pos 64) (fun _ _ => rfl) (fun _ _ => id) (fun _ _ => trivial)
    fun _ _ _ _ => trivial

theorem handleCalloc_spec (count size : Argument o state.constraints n) :
    Satisfies (Replays options)
      (fun result => Keeps o state.constraints executor.heap result.1.heap ∧
        ∀ last ∈ result.2.2, (∀ ρ, Hold ρ last.constraints → Hold ρ state.constraints) ∧
          (AllocCall.calloc count size : AllocCall o _ context.pointerWidth n).Outcome target
            executor.heap result.1.heap state last)
      (handleCalloc o options solver optimizeExpr context host memory fuel allocSite target
        executor manager state count.expr size.expr) := by
  have product : Satisfies (· = .outOfFuel) (fun product => Means o state.constraints product fun ρ => count.value ρ * size.value ρ)
      (MulExpr.create count.expr size.expr) :=
    Means.of_builds sane fun ρ hold =>
      MulExpr.create_builds (count.means ρ hold) (size.means ρ hold)
  apply Satisfies.bind_left product
  intro product means
  apply executeAlloc_outcome sound optimizes lawful sane site narrow separate ready backed means (Nat.two_pow_pos 64)
  · intro ρ fits
    exact Nat.mod_eq_of_lt fits
  · exact fun _ _ => id
  · exact fun _ _ => trivial
  · intro last os within contents ρ hold i inside
    exact contents ρ (within ρ hold) i inside

theorem handleMemalign_spec (alignment size : Argument o state.constraints n) :
    Satisfies (Replays options)
      (fun result => Keeps o state.constraints executor.heap result.1.heap ∧
        ∀ last ∈ result.2.2, (∀ ρ, Hold ρ last.constraints → Hold ρ state.constraints) ∧
          (AllocCall.memalign alignment size : AllocCall o _ context.pointerWidth n).Outcome target
            executor.heap result.1.heap state last)
      (handleMemalign o options solver optimizeExpr context host memory fuel allocSite target
        executor manager state [alignment.expr, size.expr]) := by
  apply Satisfies.bind_left (getRange_spec sound sane alignment.means narrow)
  intro range facts
  obtain ⟨min, max, ranges, rfl⟩ := facts
  have minimum : IsLeast {a | ∃ ρ, Hold ρ state.constraints ∧ (alignment.value ρ).toNat = a} min := by
    refine ⟨ranges.least, fun a isValue => ?_⟩
    obtain ⟨ρ, hold, rfl⟩ := isValue
    exact (ranges.between ρ hold).1
  have fits : min < 2 ^ n := by
    obtain ⟨ρ, -, rfl⟩ := ranges.least
    exact (alignment.value ρ).isLt
  have isMin : (BitVec.ofNat n min).toNat = min := by
    exact Nat.mod_eq_of_lt fits
  apply require_satisfies _ fun tooWide => absurd narrow tooWide
  intro _
  change Satisfies _ _ (Executor.executeAlloc o options solver optimizeExpr context host memory fuel
    allocSite target false none executor manager state size.expr (BitVec.ofNat n min).toNat)
  rw [isMin]
  apply executeAlloc_outcome sound optimizes lawful sane site narrow separate ready backed
    size.means (fits.trans_le (Nat.pow_le_pow_right (by decide) narrow)) (fun _ _ => rfl)
    (fun _ _ => id)
  · intro address certain only least isLeast notZero
    rw [isLeast.unique minimum] at notZero ⊢
    have dvd := certain (.inr only)
    rwa [effectiveAlignment, if_neg notZero] at dvd
  · exact fun _ _ _ _ => trivial

theorem handleRealloc_spec (wide : context.pointerWidth ≤ 64) (address : Argument o state.constraints context.pointerWidth)
    (size : Argument o state.constraints n) :
    Satisfies (Replays options)
      (fun result => Keeps o state.constraints executor.heap result.1.heap ∧
        ∀ last ∈ result.2.2, (∀ ρ, Hold ρ last.constraints → Hold ρ state.constraints) ∧
          (AllocCall.realloc address size).Outcome target executor.heap result.1.heap state last)
      (handleRealloc o options solver optimizeExpr context host memory fuel allocSite target
        isLocal isGlobal executor manager state address.expr size.expr) := by
  rw [handleRealloc, createIsZero, size.means.width sane]
  apply Satisfies.bind_left (eq_spec sane size.means 0#n)
  intro isZero settles
  apply Satisfies.bind (fork_portions sound sane settles)
  intro forked sides
  obtain ⟨forked, first, second⟩ := forked
  have isZeroPart : ∀ part ∈ first, Portion o state (fun ρ => size.value ρ = 0#n) part :=
    fun part isFirst => (sides.whenTrue part isFirst).weaken fun _ _ => of_decide_eq_true
  apply Satisfies.bind (reallocZero_spec sound optimizes separate wide address size isZeroPart)
  intro result facts
  obtain ⟨executor', freed⟩ := result
  obtain ⟨sameHeap, frees⟩ := facts
  have heaps : executor'.heap = executor.heap := sameHeap.trans sides.heap
  rw [← heaps] at backed ⊢
  apply Satisfies.bind (reallocNonzero_spec sound optimizes lawful sane site narrow separate
    size.means wide address.means ready backed sides.whenFalse)
  intro result made
  refine ⟨made.proceeds.heap, fun last member => ?_⟩
  rw [List.mem_append] at member
  cases member with
  | inl member =>
    obtain ⟨within, isFreed⟩ := frees last member
    exact ⟨within, .freed isFreed⟩
  | inr member =>
    exact reallocated_outcome separate backed address size (made.states last member)

end Spec

theorem reallocObjects_halts (rl : ExactResolutionList) :
    ∀ (executor : Executor) (manager : MemoryManager), Ends fun fuel =>
      reallocObjects o options solver optimizeExpr context host memory fuel allocSite target size executor manager rl := by
  induction rl with
  | nil => exact fun executor manager => .pure _
  | cons found rl ih =>
    intro executor manager
    apply executeAlloc_halts.bind
    intro result _
    exact (ih _ _).bind fun _ _ => .pure _

theorem reallocNonzero_halts : Ends fun fuel =>
    reallocNonzero o options solver optimizeExpr context host memory fuel allocSite target executor manager address size second := by
  cases second with
  | none =>
    exact .pure _
  | some part =>
    apply (createIsZero_ends address).bind
    intro isNull _
    apply internalFork_halts.bind
    intro forked _
    apply Halts.bind
    · cases forked.2.1 with
      | none =>
        exact .pure _
      | some part =>
        exact executeAlloc_halts
    intro made _
    apply Halts.bind
    · cases forked.2.2 with
      | none =>
        exact .pure _
      | some part =>
        exact resolveExact_halts.bind fun found _ => reallocObjects_halts found.2 _ _
    exact fun _ _ => .pure _

theorem handle_halts (call : AllocCall o constraints w n) : Ends fun fuel =>
    call.handle options solver optimizeExpr context host memory fuel allocSite target isLocal isGlobal executor manager state := by
  cases call with
  | malloc size => exact executeAlloc_halts
  | calloc count size =>
    apply (MulExpr.create_ends count.expr size.expr).bind
    exact fun _ _ => executeAlloc_halts
  | memalign alignment size =>
    simp only [handle, handleMemalign]
    apply getRange_halts.bind
    intro range _
    cases range.1.constant? with
    | none => exact .pure _
    | some alignmentConst =>
      apply Ends.require
      exact executeAlloc_halts
  | realloc address size =>
    apply (createIsZero_ends size.expr).bind
    intro isZero _
    apply internalFork_halts.bind
    intro forked _
    apply Halts.bind
    · cases forked.2.1 with
      | none =>
        exact .pure _
      | some part =>
        exact executeFree_halts
    intro freed _
    exact reallocNonzero_halts.bind fun _ _ => .pure _

/-- In each state that goes on the memory is new and as it was asked for, or null is returned
and nothing has changed, or the object was freed as the new size is zero. -/
theorem handle_outcome (sound : solver.Sound)
    (optimizes : ∀ valueOnly, Optimizes o fun e => optimizeExpr e valueOnly)
    (lawful : host.Lawful) (sane : Sane o state.constraints)
    (site : allocSite state.prevPC = .call) (narrow : n ≤ 64) (wide : context.pointerWidth ≤ 64)
    (separate : state.addressSpace.Separate context.pointerWidth) (ready : manager.Ready memory)
    (backed : Backed o state.constraints executor.heap manager state)
    (call : AllocCall o state.constraints context.pointerWidth n) :
    (∀ fuel result, call.handle options solver optimizeExpr context host memory fuel allocSite
        target isLocal isGlobal executor manager state = .ok result →
      Keeps o state.constraints executor.heap result.1.heap ∧
      ∀ last ∈ result.2.2, (∀ ρ, Hold ρ last.constraints → Hold ρ state.constraints) ∧
        call.Outcome target executor.heap result.1.heap state last) ∧
      (options.replayKTest = false → ∃ result, Returns (fun fuel =>
        call.handle options solver optimizeExpr context host memory fuel allocSite target isLocal
          isGlobal executor manager state) result) := by
  have spec (fuel : Nat) : Satisfies (Replays options)
      (fun result => Keeps o state.constraints executor.heap result.1.heap ∧
        ∀ last ∈ result.2.2, (∀ ρ, Hold ρ last.constraints → Hold ρ state.constraints) ∧
          call.Outcome target executor.heap result.1.heap state last)
      (call.handle options solver optimizeExpr context host memory fuel allocSite target isLocal
        isGlobal executor manager state) := by
    cases call with
    | malloc size =>
      exact handleMalloc_spec sound optimizes lawful sane site narrow separate ready backed size
    | calloc count size =>
      exact handleCalloc_spec sound optimizes lawful sane site narrow separate ready backed count
        size
    | memalign alignment size =>
      exact handleMemalign_spec sound optimizes lawful sane site narrow separate ready backed
        alignment size
    | realloc address size =>
      exact handleRealloc_spec sound optimizes lawful sane site narrow separate ready backed wide
        address size
  refine ⟨fun fuel result returned => (spec fuel).elim returned, fun notReplaying => ?_⟩
  have halts : Ends fun fuel => call.handle options solver optimizeExpr context host memory fuel
      allocSite target isLocal isGlobal executor manager state := call.handle_halts
  obtain ⟨result, -, returns⟩ := halts.returns fun fuel => (spec fuel).weaken fun fault replays =>
    replays.resolve_right (by simp [notReplaying])
  exact ⟨result, returns⟩

end AllocCall

section Example

open Executor (idealSolver idealSolver_sound sampleOptions sampleExecutor)

def blockEnd (objects : List MemoryObject) : Nat :=
  objects.foldr (fun mo top => max top (mo.address + max 1 mo.size)) 1

theorem le_blockEnd {objects : List MemoryObject} {mo : MemoryObject} (member : mo ∈ objects) :
    mo.address + max 1 mo.size ≤ blockEnd objects := by
  induction objects with
  | nil => cases member
  | cons first rest ih =>
    cases member with
    | head => exact le_max_right _ _
    | tail _ later => exact (ih later).trans (le_max_left _ _)

def sampleHost : Host where
  malloc objects _ := 16 * blockEnd objects
  posixMemalign objects alignment _ := alignment * blockEnd objects

theorem sampleHost_lawful : sampleHost.Lawful where
  malloc_aligned objects _ := Nat.dvd_mul_right_of_dvd (by decide) _
  malloc_clear objects _ _ mo member := by
    right
    have below := le_blockEnd member
    change _ ≤ 16 * blockEnd objects
    omega
  posixMemalign_aligned objects alignment _ _ _ := Nat.dvd_mul_right _ _
  posixMemalign_clear objects alignment _ notNull mo member :=
    have positive : 0 < alignment := Nat.pos_of_ne_zero (Nat.ne_zero_of_mul_ne_zero_left notNull)
    .inr ((le_blockEnd member).trans (Nat.le_mul_of_pos_left _ positive))

def sampleManager : MemoryManager :=
  ⟨0, 0, 0, [⟨1, 4096, 8, false⟩, ⟨2, 8192, 8, false⟩], 3⟩

def allocSampleExecutor : Executor :=
  { sampleExecutor with
    heap := [newState true 1 ⟨1, 4096, 8, false⟩, newState true 1 ⟨2, 8192, 8, false⟩] }

def allocSampleState : ExecutionState :=
  ⟨0, 0, [⟨0, ⟨0, 1⟩, fun _ => none⟩], 0, false, sampleSpace, [], []⟩

theorem allocSample_backed : Backed ⟨false, true⟩ [] allocSampleExecutor.heap sampleManager allocSampleState where
  managed := by decide
  stored := by
    intro op member
    have both : op = (⟨1, 4096, 8, false⟩, 0) ∨ op = (⟨2, 8192, 8, false⟩, 1) := by
      simpa [allocSampleState, sampleSpace] using member
    cases both with
    | inl first =>
      subst first
      exact ⟨_, rfl, rfl, rfl, newState_valid 1 (by decide)⟩
    | inr second =>
      subst second
      exact ⟨_, rfl, rfl, rfl, newState_valid 1 (by decide)⟩

def sampleArgument (value : BitVec 64) : Argument ⟨false, true⟩ [] 64 :=
  ⟨.constant ⟨64, value⟩, fun _ => value, fun _ _ => Denotes.constant ⟨64, value⟩⟩

def sampleRealloc (size : BitVec 64) : AllocCall ⟨false, true⟩ [] 64 64 :=
  .realloc ⟨samplePointer, fun ρ => samplePointer.eval ρ 64, samplePointer_means⟩
    (sampleArgument size)

def sampleRun (solver : Solver) (fuel : Nat) :
    Except Fault (Executor × MemoryManager × List ExecutionState) :=
  (sampleRealloc 16).handle sampleOptions solver (fun e _ => e) ⟨true, 64⟩ sampleHost
    ⟨false, false, 10⟩ fuel (fun _ => .call) 0 (fun _ => false) (fun _ => false)
    allocSampleExecutor sampleManager allocSampleState

theorem handle_outcome_sample : ∃ result, Returns (sampleRun idealSolver) result ∧
    ∀ last ∈ result.2.2, (sampleRealloc 16).Outcome 0 allocSampleExecutor.heap result.1.heap
      allocSampleState last := by
  have sane : Sane ⟨false, true⟩ allocSampleState.constraints := Sane.nil
  have wide : (⟨true, 64⟩ : Context).pointerWidth ≤ 64 := by decide
  have ready : sampleManager.Ready ⟨false, false, 10⟩ := nofun
  have both : (∀ fuel result, sampleRun idealSolver fuel = .ok result →
        Keeps ⟨false, true⟩ allocSampleState.constraints allocSampleExecutor.heap result.1.heap ∧
        ∀ last ∈ result.2.2, (∀ ρ, Hold ρ last.constraints → Hold ρ allocSampleState.constraints) ∧
          (sampleRealloc 16).Outcome 0 allocSampleExecutor.heap result.1.heap allocSampleState
            last) ∧
      (sampleOptions.replayKTest = false → ∃ result, Returns (sampleRun idealSolver) result) :=
    AllocCall.handle_outcome idealSolver_sound (fun _ _ _ _ _ => id) sampleHost_lawful sane rfl
      le_rfl wide sampleSpace_separate ready allocSample_backed (sampleRealloc 16)
  obtain ⟨outcomes, returns⟩ := both
  obtain ⟨result, returned⟩ := returns rfl
  obtain ⟨fuel, isResult⟩ := returned.some_fuel
  exact ⟨result, returned, fun last member => ((outcomes fuel result isResult).2 last member).2⟩

theorem realloc_zero_frees : ∃ last,
    (AllocCall.realloc (sampleArgument 4096) (sampleArgument 0)).handle sampleOptions idealSolver
        (fun e _ => e) ⟨true, 64⟩ sampleHost ⟨false, false, 10⟩ 3 (fun _ => .call) 0
        (fun _ => false) (fun _ => false) allocSampleExecutor sampleManager allocSampleState =
      .ok (allocSampleExecutor, sampleManager, [last]) ∧
    last.stack = (allocSampleState.bindLocal 0 (createPointer 64 0)).stack ∧
    (⟨1, 4096, 8, false⟩, 0) ∈ allocSampleState.addressSpace.objects ∧
    (⟨1, 4096, 8, false⟩, 0) ∉ last.addressSpace.objects :=
  ⟨_, rfl, rfl, by decide, by decide⟩

end Example

end NeuroMerge.Execution
