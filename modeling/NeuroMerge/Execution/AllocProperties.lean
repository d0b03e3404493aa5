import NeuroMerge.Execution.ForkPortions
import NeuroMerge.Execution.FreeProperties
import NeuroMerge.Execution.MoveObject
import NeuroMerge.Execution.SwitchProperties

/-!
# What an allocation gives

Every state that goes on has a null pointer and the memory as it was, or the base of a new
object of the size that was asked for.
-/

namespace NeuroMerge.Execution

open Symbolic Executor
open Symbolic.ConstraintManager (Hold)
open Memory (MemoryObject ObjectState AddressSpace Context Ref Heap deref SameFrame Clear Host MemoryOptions MemoryManager)

variable {ρ : Assignment} {o : Options} {options : ForkOptions} {solver : Solver}
  {optimizeExpr : Expr → Bool → Expr} {context : Context} {host : Host} {memory : MemoryOptions}
  {fuel n target alignment : Nat} {constraints : List Expr} {e size : Expr}
  {executor : Executor} {manager manager' : MemoryManager} {state part last : ExecutionState}
  {value : Assignment → BitVec n} {allocSite : KInstIterator → AllocSite} {zeroMemory : Bool}
  {mo : MemoryObject} {ref : Ref} {os : ObjectState} {heap heap' : Heap}

/-!
## Binding a new object
-/

def fill (zeroMemory : Bool) : BitVec 8 := if zeroMemory then 0 else 0xAB

def newState (zeroMemory : Bool) (owner : BitVec 32) (mo : MemoryObject) : ObjectState :=
  let os : ObjectState := { ObjectState.create mo none with copyOnWriteOwner := owner }
  if zeroMemory then os.initializeToZero else os.initializeToRandom

theorem newState_object (owner : BitVec 32) : (newState zeroMemory owner mo).object = mo := by
  cases zeroMemory <;> rfl

theorem newState_size (owner : BitVec 32) : (newState zeroMemory owner mo).size = mo.size := by
  cases zeroMemory <;> rfl

theorem newState_byte (owner : BitVec 32) (i : Nat) : (newState zeroMemory owner mo).byte ρ i = fill zeroMemory := by
  cases zeroMemory <;> rfl

theorem newState_valid (owner : BitVec 32) (narrow : mo.size < 2 ^ 32) : AlwaysValid o constraints (newState zeroMemory owner mo) := by
  intro ρ _
  have isNone : (newState zeroMemory owner mo).knownSymbolics = none := by
    cases zeroMemory <;> rfl
  have concrete (i : Nat) : (newState zeroMemory owner mo).isByteConcrete i = true := by
    cases zeroMemory <;> rfl
  constructor
  · rw [newState_size]
    exact narrow
  · have updates : (newState zeroMemory owner mo).updates = ⟨none, .null⟩ := by
      cases zeroMemory <;> rfl
    rw [updates]
    exact Memory.UpdateList.valid_null nofun
  · intro i e _ known
    rw [ObjectState.knownSymbolic?, isNone] at known
    cases known
  · exact fun _ _ => .inl (concrete _)

def withObject (heap : Heap) (state : ExecutionState) (mo : MemoryObject) : ExecutionState :=
  { state with addressSpace := state.addressSpace.replace mo heap.length }

theorem bindObjectInState_eq : bindObjectInState executor state mo = .ok ({ executor with heap := executor.heap ++
          [{ ObjectState.create mo none with copyOnWriteOwner := state.addressSpace.cowKey }] },
        withObject executor.heap state mo) := by
  simp [bindObjectInState, AddressSpace.bindObject, deref, ObjectState.create, withObject, require, bind, Except.bind, pure, Except.pure]

theorem bindAllocated_none :
    bindAllocated o context fuel target zeroMemory none executor state mo = .ok ({ executor with heap := executor.heap ++
          [newState zeroMemory state.addressSpace.cowKey mo] },
        (withObject executor.heap state mo).bindLocal target (mo.getBaseExpr context.pointerWidth)) := by
  rw [bindAllocated, bindObjectInState_eq]
  simp [deref, newState, pure, Except.pure]

theorem bindAllocated_some (source : Ref) :
    bindAllocated o context fuel target zeroMemory (some source) executor state mo =
      moveObject o context fuel { executor with heap := executor.heap ++
          [newState zeroMemory state.addressSpace.cowKey mo] }
        ((withObject executor.heap state mo).bindLocal target (mo.getBaseExpr context.pointerWidth)) source executor.heap.length := by
  rw [bindAllocated, bindObjectInState_eq]
  simp [deref, newState]

theorem ne_address_of_clear {objects : List ObjectPair} (clear : Clear (objects.map Prod.fst) mo.address mo.size) :
    ∀ op ∈ objects, op.1.address ≠ mo.address := by
  intro op member
  have apart := clear op.1 (List.mem_map_of_mem member)
  omega

theorem mem_withObject {op : ObjectPair} (clear : Clear (state.addressSpace.objects.map Prod.fst) mo.address mo.size) :
    op ∈ (withObject heap state mo).addressSpace.objects ↔ op = (mo, heap.length) ∨ op ∈ state.addressSpace.objects :=
  ImmutableMap.mem_replace_iff (ne_address_of_clear clear)

theorem mem_unbindObject_withObject {w : Nat} {op other : ObjectPair} (separate : state.addressSpace.Separate w)
    (clear : Clear (state.addressSpace.objects.map Prod.fst) mo.address mo.size) (isObject : op ∈ state.addressSpace.objects) :
    other ∈ ((withObject heap state mo).addressSpace.unbindObject op.1).objects ↔
      other = (mo, heap.length) ∨ other ∈ state.addressSpace.objects ∧ some op ≠ some other := by
  have unbound : other ∈ (state.addressSpace.unbindObject op.1).objects ↔ _ := mem_unbindObject separate isObject
  rw [AddressSpace.unbindObject, ImmutableMap.remove, List.mem_filter] at unbound ⊢
  rw [mem_withObject clear, or_and_right, unbound]
  apply or_congr
  · apply and_iff_left_of_imp
    intro isNew
    rw [isNew, decide_eq_true_eq]
    exact (ne_address_of_clear clear op isObject).symm
  · apply and_congr_right
    intro _
    rw [ne_eq, ne_eq, Option.some_inj, eq_comm]

/-!
## Constant sizes
-/

structure AllocRequest where
  target : Nat
  zeroMemory : Bool
  moved : Option ObjectPair

def AllocRequest.content (request : AllocRequest) (before : Heap) (ρ : Assignment) (i : Nat) :
    BitVec 8 :=
  match request.moved.bind fun op => before[op.2]? with
  | some old => if i < old.size then old.byte ρ i else fill request.zeroMemory
  | none => fill request.zeroMemory

structure Denied (w : Nat) (request : AllocRequest) (state last : ExecutionState) : Prop where
  stack : last.stack = (state.bindLocal request.target (createPointer w 0)).stack
  objects : last.addressSpace.objects = state.addressSpace.objects

/-- The call returns the base of a new object with the right contents. -/
structure Granted (o : Options) (constraints : List Expr) (w : Nat) (request : AllocRequest)
    (state : ExecutionState) (before after : Heap) (last : ExecutionState) (mo : MemoryObject)
    (ref : Ref) (os : ObjectState) : Prop where
  stack : last.stack = (state.bindLocal request.target (mo.getBaseExpr w)).stack
  notNull : mo.address ≠ 0
  clear : Clear (state.addressSpace.objects.map Prod.fst) mo.address mo.size
  objects : ∀ op, op ∈ last.addressSpace.objects ↔
    op = (mo, ref) ∨ op ∈ state.addressSpace.objects ∧ request.moved ≠ some op
  stored : after[ref]? = some os
  object : os.object = mo
  size : os.size = mo.size
  valid : AlwaysValid o constraints os
  bytes : ∀ ρ, Hold ρ constraints → ∀ i < mo.size, os.byte ρ i = request.content before ρ i

theorem bindLocal_stack {dest : Nat} {e : Expr} (same : part.stack = state.stack) :
    (part.bindLocal dest e).stack = (state.bindLocal dest e).stack := by
  simp only [ExecutionState.bindLocal, same]

section Portions

variable {request : AllocRequest} {w : Nat} {condition : Assignment → Prop}

theorem Denied.of_portion (on : Portion o state condition part) (denied : Denied w request part last) : Denied w request state last :=
  ⟨denied.stack.trans (bindLocal_stack on.stack), denied.objects.trans on.objects⟩

theorem Granted.of_portion (on : Portion o state condition part)
    (granted : Granted o constraints w request part heap heap' last mo ref os) :
    Granted o constraints w request state heap heap' last mo ref os :=
  { granted with
    stack := granted.stack.trans (bindLocal_stack on.stack)
    clear := on.objects ▸ granted.clear
    objects := fun op => on.objects ▸ granted.objects op }

end Portions

/-- Every object of the state is known to the memory manager and has its contents on the
heap. -/
structure Backed (o : Options) (constraints : List Expr) (heap : Heap) (manager : MemoryManager)
    (state : ExecutionState) : Prop where
  managed : ∀ op ∈ state.addressSpace.objects, op.1 ∈ manager.objects
  stored : ∀ op ∈ state.addressSpace.objects, ∃ os, heap[op.2]? = some os ∧ os.object = op.1 ∧
    os.size = op.1.size ∧ AlwaysValid o constraints os

structure Proceeds (o : Options) (constraints : List Expr) (heap : Heap) (manager : MemoryManager)
    (heap' : Heap) (manager' : MemoryManager) : Prop where
  heap : Keeps o constraints heap heap'
  objects : ∀ mo ∈ manager.objects, mo ∈ manager'.objects

theorem Backed.proceeds (backed : Backed o constraints heap manager state)
    (proceeds : Proceeds o constraints heap manager heap' manager') : Backed o constraints heap' manager' state where
  managed op member := proceeds.objects _ (backed.managed op member)
  stored op member := by
    obtain ⟨os, stored, object, size, valid⟩ := backed.stored op member
    obtain ⟨os', stored', equivalent⟩ := proceeds.heap op.2 os stored
    exact ⟨os', stored', equivalent.object.trans object, equivalent.size.trans size, equivalent.alwaysValid valid⟩

theorem Backed.congr (backed : Backed o constraints heap manager state)
    (objects : part.addressSpace.objects = state.addressSpace.objects) : Backed o constraints heap manager part := by
  constructor
  · rw [objects]
    exact backed.managed
  · rw [objects]
    exact backed.stored

structure Prepared (o : Options) (constraints : List Expr) (w : Nat) (memory : MemoryOptions)
    (request : AllocRequest) (heap : Heap) (manager : MemoryManager) (state : ExecutionState) :
    Prop where
  ready : manager.Ready memory
  backed : Backed o constraints heap manager state
  separate : state.addressSpace.Separate w
  isObject : ∀ op ∈ request.moved, op ∈ state.addressSpace.objects

section

variable {request : AllocRequest} {w : Nat} (prepared : Prepared o constraints w memory request heap manager state)
include prepared

theorem Prepared.proceeds (proceeds : Proceeds o constraints heap manager heap' manager') (ready : manager'.Ready memory) :
    Prepared o constraints w memory request heap' manager' state :=
  ⟨ready, prepared.backed.proceeds proceeds, prepared.separate, prepared.isObject⟩

theorem Prepared.congr (objects : part.addressSpace.objects = state.addressSpace.objects) :
    Prepared o constraints w memory request heap manager part where
  ready := prepared.ready
  backed := prepared.backed.congr objects
  separate := separate_congr objects prepared.separate
  isObject op member := objects.symm ▸ prepared.isObject op member

end

theorem Proceeds.refl : Proceeds o constraints heap manager heap manager :=
  ⟨.refl heap, fun _ => id⟩

theorem Proceeds.trans {heap'' : Heap} {manager'' : MemoryManager} (first : Proceeds o constraints heap manager heap' manager')
    (second : Proceeds o constraints heap' manager' heap'' manager'') : Proceeds o constraints heap manager heap'' manager'' :=
  ⟨first.heap.trans second.heap, fun mo member => second.objects mo (first.objects mo member)⟩

theorem Copied.keeps {old fresh : ObjectState} {source count : Nat}
    (copied : Copied o constraints (heap ++ [fresh]) old fresh source heap.length count heap')
    (storedOld : heap[source]? = some old) : Keeps o constraints heap heap' := by
  intro ref os stored
  by_cases isSource : ref = source
  · subst isSource
    obtain rfl : old = os := Option.some.inj (storedOld.symm.trans stored)
    exact copied.kept
  · have inHeap : ref < heap.length := (List.getElem?_eq_some_iff.mp stored).1
    refine ⟨os, ?_, .refl os⟩
    rw [copied.others ref isSource (Nat.ne_of_lt inHeap), List.getElem?_append_left inHeap]
    exact stored

variable {request : AllocRequest} {w : Nat}

theorem bindAllocated_spec (possible : ∃ ρ, Hold ρ constraints)
    (prepared : Prepared o constraints context.pointerWidth memory request executor.heap manager
      state) (notNull : mo.address ≠ 0) (narrow : mo.size < 2 ^ 32)
    (clear : Clear (state.addressSpace.objects.map Prod.fst) mo.address mo.size) :
    Satisfies (· = .outOfFuel)
      (fun result => result.2.constraints = state.constraints ∧
        Keeps o constraints executor.heap result.1.heap ∧
        ∃ ref os, Granted o constraints context.pointerWidth request state executor.heap
          result.1.heap result.2 mo ref os)
      (bindAllocated o context fuel request.target request.zeroMemory (request.moved.map Prod.snd) executor state mo) := by
  obtain ⟨target, zeroMemory, moved⟩ := request
  have last : (executor.heap ++ [newState zeroMemory state.addressSpace.cowKey mo])[
      executor.heap.length]? = some (newState zeroMemory state.addressSpace.cowKey mo) := by
    rw [List.getElem?_append_right (Nat.le_refl _), Nat.sub_self]
    rfl
  cases moved with
  | none =>
    change Satisfies _ _ (bindAllocated o context fuel target zeroMemory none executor state mo)
    rw [bindAllocated_none]
    refine ⟨rfl, .append _ _, executor.heap.length, _, rfl, notNull, clear, ?_, last,
      newState_object _, newState_size _, newState_valid _ narrow, ?_⟩
    · intro op
      exact (mem_withObject clear).trans (or_congr_right (and_iff_left nofun).symm)
    · exact fun ρ _ i _ => newState_byte _ i
  | some op =>
    have member := prepared.isObject op rfl
    obtain ⟨old, stored, object, size, valid⟩ := prepared.backed.stored op member
    have inHeap : op.2 < executor.heap.length := (List.getElem?_eq_some_iff.mp stored).1
    change Satisfies _ _ (bindAllocated o context fuel target zeroMemory (some op.2) executor state mo)
    rw [bindAllocated_some]
    have storedOld : (executor.heap ++ [newState zeroMemory state.addressSpace.cowKey mo])[op.2]? = some old := by
      rw [List.getElem?_append_left inHeap, stored]
    apply (moveObject_spec possible storedOld last (Nat.ne_of_lt inHeap) valid (newState_valid _ narrow)).mono
    intro result facts
    obtain ⟨executor', state'⟩ := result
    obtain ⟨copied, rfl⟩ := facts
    obtain ⟨os, storedNew, frame, contents⟩ := copied.written
    refine ⟨rfl, copied.keeps stored, executor.heap.length, os, rfl, notNull, clear, ?_,
      storedNew, frame.object.trans (newState_object _), frame.size.trans (newState_size _),
      fun ρ hold => (contents ρ hold).1, ?_⟩
    · intro other
      rw [object]
      exact mem_unbindObject_withObject prepared.separate clear member
    · intro ρ hold i within
      rw [(contents ρ hold).2 i, newState_byte, newState_size]
      have content : AllocRequest.content ⟨target, zeroMemory, some op⟩ executor.heap ρ i =
          if i < old.size then old.byte ρ i else fill zeroMemory := by
        rw [AllocRequest.content]
        simp only [Option.bind_some, stored]
      rw [content]
      simp only [lt_min_iff, within, and_true]

def effectiveAlignment (allocSite : KInstIterator → AllocSite) (state : ExecutionState)
    (allocationAlignment : Nat) : Nat :=
  if allocationAlignment = 0 then getAllocationAlignment (allocSite state.prevPC)
  else allocationAlignment

/-- What a call for so many bytes, so aligned, leads to. -/
def Allots (o : Options) (constraints : List Expr) (w : Nat) (request : AllocRequest)
    (state : ExecutionState) (before after : Heap) (bytes alignment : Nat)
    (last : ExecutionState) : Prop :=
  Denied w request state last ∨
    ∃ mo ref os, Granted o constraints w request state before after last mo ref os ∧
      mo.size = bytes % 2 ^ 32 ∧ alignment ∣ mo.address

theorem executeAllocConstant_spec {size : ConstantExpr} (possible : ∃ ρ, Hold ρ constraints) (lawful : host.Lawful)
    (prepared : Prepared o constraints context.pointerWidth memory request executor.heap manager
      state) (narrow : size.width ≤ 64) (aligned : effectiveAlignment allocSite state alignment < 2 ^ 64) :
    Satisfies (· = .outOfFuel)
      (fun result => result.2.2.constraints = state.constraints ∧
        Proceeds o constraints executor.heap manager result.1.heap result.2.1 ∧
        (effectiveAlignment allocSite state alignment ≤ 2 ^ 62 → result.2.1.Ready memory) ∧
        Allots o constraints context.pointerWidth request state executor.heap result.1.heap
          size.value.toNat (effectiveAlignment allocSite state alignment) result.2.2)
      (executeAllocConstant o context host memory fuel allocSite request.target
        request.zeroMemory (request.moved.map Prod.snd) executor manager state size alignment) := by
  apply require_satisfies _ fun tooWide => absurd narrow tooWide
  intro _
  have readyAfter : effectiveAlignment allocSite state alignment ≤ 2 ^ 62 →
      (manager.allocate host memory size.value.toNat (effectiveAlignment allocSite state alignment)).2.Ready memory :=
    prepared.ready.allocate
  rw [← effectiveAlignment]
  dsimp only
  cases allocated : manager.allocate host memory size.value.toNat (effectiveAlignment allocSite state alignment) with
  | mk made manager' =>
    rw [allocated] at readyAfter
    cases made with
    | none =>
      have objects := MemoryManager.allocate_none allocated
      refine ⟨rfl, ⟨.refl _, fun mo member => ?_⟩, readyAfter, .inl ⟨rfl, rfl⟩⟩
      rw [objects]
      exact member
    | some mo =>
      obtain ⟨made, objects⟩ := MemoryManager.allocate_some lawful prepared.ready aligned allocated
      have clear : Clear (state.addressSpace.objects.map Prod.fst) mo.address mo.size := by
        intro other member
        obtain ⟨op, isBound, rfl⟩ := List.mem_map.mp member
        exact made.clear _ (prepared.backed.managed op isBound)
      have small : mo.size < 2 ^ 32 := by
        rw [made.size]
        exact Nat.mod_lt _ (Nat.two_pow_pos 32)
      apply Satisfies.bind (bindAllocated_spec possible prepared made.notNull small clear)
      intro result facts
      obtain ⟨sameConstraints, keeps, ref, os, granted⟩ := facts
      refine ⟨sameConstraints, ⟨keeps, fun mo member => ?_⟩, readyAfter, .inr ⟨mo, ref, os, granted, made.size, made.aligned⟩⟩
      rw [objects]
      exact List.mem_cons_of_mem _ member

/-!
## Sizes with several values
-/

def OnlyOne (constraints : List Expr) (value : Assignment → BitVec n) : Prop :=
  ∀ ρ ρ', Hold ρ constraints → Hold ρ' constraints → value ρ = value ρ'

/-- A state that goes on after a call for a size. The alignment is certain if it is that of
the program, or the size has one value. -/
structure AllocOutcome (o : Options) (constraints : List Expr) (w : Nat) (request : AllocRequest)
    (allocSite : KInstIterator → AllocSite) (state : ExecutionState)
    (value : Assignment → BitVec n) (alignment : Nat) (before after : Heap)
    (last : ExecutionState) : Prop where
  within : ∀ ρ, Hold ρ last.constraints → Hold ρ state.constraints
  outcome : Denied w request state last ∨
    ∃ mo ref os, Granted o constraints w request state before after last mo ref os ∧
      (∀ ρ, Hold ρ last.constraints → mo.size = (value ρ).toNat % 2 ^ 32) ∧
      (alignment = 0 ∨ OnlyOne state.constraints value →
        effectiveAlignment allocSite state alignment ∣ mo.address)

theorem AllocRequest.content_keeps (keeps : Keeps o constraints heap heap') (backed : Backed o constraints heap manager state)
    (isObject : ∀ op ∈ request.moved, op ∈ state.addressSpace.objects) (hold : Hold ρ constraints) (i : Nat) :
    request.content heap' ρ i = request.content heap ρ i := by
  obtain ⟨target, zeroMemory, moved⟩ := request
  cases moved with
  | none => rfl
  | some op =>
    obtain ⟨old, stored, -, -, valid⟩ := backed.stored op (isObject op rfl)
    obtain ⟨old', stored', equivalent⟩ := keeps op.2 old stored
    simp only [AllocRequest.content, Option.bind_some, stored, stored']
    rw [equivalent.size]
    by_cases within : i < old.size
    · rw [if_pos within, if_pos within, (equivalent.contents ρ hold (valid ρ hold)).2 i within]
    · rw [if_neg within, if_neg within]

theorem AllocOutcome.heaps {before after later : Heap}
    (outcome : AllocOutcome o constraints w request allocSite state value alignment heap after last)
    (earlier : Keeps o constraints before heap) (keeps : Keeps o constraints after later)
    (backed : Backed o constraints before manager state) (isObject : ∀ op ∈ request.moved, op ∈ state.addressSpace.objects) :
    AllocOutcome o constraints w request allocSite state value alignment before later last := by
  refine ⟨outcome.within, outcome.outcome.imp_right fun made => ?_⟩
  obtain ⟨mo, ref, os, granted, size, aligned⟩ := made
  obtain ⟨os', stored, equivalent⟩ := keeps ref os granted.stored
  refine ⟨mo, ref, os', ⟨granted.stack, granted.notNull, granted.clear, granted.objects, stored,
    equivalent.object.trans granted.object, equivalent.size.trans granted.size,
    equivalent.alwaysValid granted.valid, fun ρ hold i within => ?_⟩, size, aligned⟩
  have inside : i < os.size := granted.size.symm ▸ within
  rw [(equivalent.contents ρ hold (granted.valid ρ hold)).2 i inside,
    granted.bytes ρ hold i within, AllocRequest.content_keeps earlier backed isObject hold]

variable {v : BitVec n}

theorem executeAllocConstant_outcome {condition : Assignment → Prop} {passed : Nat}
    (possible : ∃ ρ, Hold ρ constraints) (lawful : host.Lawful)
    (prepared : Prepared o constraints context.pointerWidth memory request executor.heap manager
      state) (narrow : n ≤ 64) (aligned : effectiveAlignment allocSite state passed < 2 ^ 64)
    (on : Portion o state condition part) (known : ∀ ρ, Hold ρ part.constraints → value ρ = v)
    (carried : alignment = 0 ∨ OnlyOne state.constraints value → passed = alignment) :
    Satisfies (· = .outOfFuel)
      (fun result => Proceeds o constraints executor.heap manager result.1.heap result.2.1 ∧
        (effectiveAlignment allocSite state passed ≤ 2 ^ 62 → result.2.1.Ready memory) ∧
        AllocOutcome o constraints context.pointerWidth request allocSite state value alignment
          executor.heap result.1.heap result.2.2)
      (executeAllocConstant o context host memory fuel allocSite request.target
        request.zeroMemory (request.moved.map Prod.snd) executor manager part ⟨n, v⟩ passed) := by
  have sameAlignment : effectiveAlignment allocSite part passed =
      effectiveAlignment allocSite state passed := by
    rw [effectiveAlignment, on.prevPC, effectiveAlignment]
  apply Satisfies.mono (executeAllocConstant_spec possible lawful (prepared.congr on.objects) narrow (sameAlignment.symm ▸ aligned))
  intro result facts
  obtain ⟨sameConstraints, proceeds, readyAfter, allots⟩ := facts
  rw [sameAlignment] at readyAfter allots
  refine ⟨proceeds, readyAfter, fun ρ hold => ?_, ?_⟩
  · rw [sameConstraints] at hold
    exact on.hold hold
  · cases allots with
    | inl denied => exact .inl (denied.of_portion on)
    | inr made =>
      obtain ⟨mo, ref, os, granted, size, dvd⟩ := made
      refine .inr ⟨mo, ref, os, granted.of_portion on, fun ρ hold => ?_, fun certain => ?_⟩
      · rw [sameConstraints] at hold
        rw [size, known ρ hold]
      · rw [← carried certain]
        exact dvd

theorem constantEq_spec (sane : Sane o constraints) (means : Means o constraints e value) (v : BitVec n) :
    Satisfies (· = .outOfFuel) (fun equality => Settles o constraints equality fun ρ => decide (v = value ρ))
      (EqExpr.create o fuel (.constant ⟨n, v⟩) e) := by
  apply Means.of_builds sane
  intro ρ hold
  exact EqExpr.create_builds Guards.allows_safe (Denotes.constant ⟨n, v⟩) (means ρ hold)

theorem shrink_spec (sound : solver.Sound) (sane : Sane o constraints) (means : Means o constraints size value) (found : BitVec n) :
    Satisfies (· = .outOfFuel) (fun _ => True) (shrink o options solver fuel constraints size found) := by
  induction measure : found.toNat using Nat.strong_induction_on generalizing found with
  | h bound ih =>
    rw [shrink]
    split
    · rename_i large
      apply Satisfies.bind (constantEq_spec sane means _)
      intro equality settles
      apply Satisfies.bind (mayBeTrue_spec sound.correct sane settles)
      intro answer tells
      match answer, tells with
      | none, unsound => exact absurd sound unsound
      | some false, _ => trivial
      | some true, _ =>
        apply ih _ _ _ rfl
        rw [BitVec.toNat_ushiftRight, Nat.shiftRight_eq_div_pow]
        omega
    · trivial

theorem refuseSize_spec (sound : solver.Sound) (sane : Sane o state.constraints) (means : Means o state.constraints size value) :
    Satisfies (Replays options)
      (fun result => result.1.heap = executor.heap ∧ ∀ last ∈ result.2,
        (∀ ρ, Hold ρ last.constraints → Hold ρ state.constraints) ∧
          Denied context.pointerWidth request state last)
      (refuseSize o options solver context fuel request.target executor state size n) := by
  have isHuge : Satisfies (· = .outOfFuel) (fun isHuge => Settles o state.constraints isHuge fun ρ =>
        (BitVec.ofNat n (2 ^ 31)).ult (value ρ))
      (UltExpr.create o fuel (.constant (.alloc (2 ^ 31) n)) size) :=
    Means.of_builds sane fun ρ hold =>
      UltExpr.create_builds Guards.allows_safe (Denotes.alloc (2 ^ 31)) (means ρ hold)
  apply Satisfies.bind_left isHuge
  intro isHuge settles
  apply Satisfies.bind (fork_portions sound sane settles)
  intro forked sides
  obtain ⟨forked, first, second⟩ := forked
  refine ⟨by cases second <;> exact sides.heap, fun last member => ?_⟩
  obtain ⟨part, isFirst, rfl⟩ := Option.map_eq_some_iff.mp member
  have on := sides.whenTrue part isFirst
  exact ⟨fun ρ hold => on.hold hold, bindLocal_stack on.stack, on.objects⟩

def AllocOutcomes (o : Options) (constraints : List Expr) (w : Nat) (memory : MemoryOptions)
    (request : AllocRequest) (allocSite : KInstIterator → AllocSite) (state : ExecutionState)
    (value : Assignment → BitVec n) (alignment : Nat) (before : Heap) (manager : MemoryManager)
    (result : Executor × MemoryManager × List ExecutionState) : Prop :=
  Proceeds o constraints before manager result.1.heap result.2.1 ∧
    (effectiveAlignment allocSite state alignment ≤ 2 ^ 62 → result.2.1.Ready memory) ∧
    ∀ last ∈ result.2.2, AllocOutcome o constraints w request allocSite state value alignment
      before result.1.heap last

theorem AllocOutcomes.append {executor' executor'' : Executor} {manager'' : MemoryManager} {others states : List ExecutionState}
    (prepared : Prepared o constraints w memory request heap manager state)
    (first : AllocOutcomes o constraints w memory request allocSite state value alignment heap
      manager (executor', manager', others))
    (second : AllocOutcomes o constraints w memory request allocSite state value alignment
      executor'.heap manager' (executor'', manager'', states)) :
    AllocOutcomes o constraints w memory request allocSite state value alignment heap manager
      (executor'', manager'', others ++ states) := by
  obtain ⟨proceeds, -, outcomes⟩ := first
  obtain ⟨later, ready, outcomesLater⟩ := second
  refine ⟨proceeds.trans later, ready, fun last member => ?_⟩
  rw [List.mem_append] at member
  cases member with
  | inl member =>
    exact (outcomes last member).heaps (.refl heap) later.heap prepared.backed prepared.isObject
  | inr member =>
    exact (outcomesLater last member).heaps proceeds.heap (.refl _) prepared.backed prepared.isObject

section Symbolic

variable (possible : ∃ ρ, Hold ρ constraints) (lawful : host.Lawful)
  (modest : getAllocationAlignment (allocSite state.prevPC) ≤ 2 ^ 62) (narrow : n ≤ 64)
  (several : ¬ OnlyOne state.constraints value)

include possible lawful modest narrow several

theorem executeAllocConstant_several {condition : Assignment → Prop}
    (prepared : Prepared o constraints context.pointerWidth memory request executor.heap manager
      state) (on : Portion o state condition part) (known : ∀ ρ, Hold ρ part.constraints → value ρ = v) :
    Satisfies (· = .outOfFuel)
      (fun result => AllocOutcomes o constraints context.pointerWidth memory request allocSite
          state value alignment executor.heap manager (result.1, result.2.1, [result.2.2]) ∧
        result.2.1.Ready memory)
      (executeAllocConstant o context host memory fuel allocSite request.target
        request.zeroMemory (request.moved.map Prod.snd) executor manager part ⟨n, v⟩ 0) := by
  have effective : effectiveAlignment allocSite state 0 ≤ 2 ^ 62 := modest
  have carried : alignment = 0 ∨ OnlyOne state.constraints value → 0 = alignment := fun certain => (certain.resolve_right several).symm
  apply Satisfies.mono (executeAllocConstant_outcome possible lawful prepared narrow
    (Nat.lt_of_le_of_lt effective (by decide)) on known carried)
  intro result facts
  obtain ⟨proceeds, ready, outcome⟩ := facts
  refine ⟨⟨proceeds, fun _ => ready effective, fun last member => ?_⟩, ready effective⟩
  rw [List.mem_singleton.mp member]
  exact outcome

theorem executeAllocOther_spec {condition : Assignment → Prop} {second : Option ExecutionState} (sound : solver.Sound)
    (prepared : Prepared o constraints context.pointerWidth memory request executor.heap manager
      state) (means : Means o state.constraints size value) (on : ∀ part ∈ second, Portion o state condition part) :
    Satisfies (Replays options)
      (fun result => AllocOutcomes o constraints context.pointerWidth memory request allocSite
          state value alignment executor.heap manager result ∧ result.2.1.Ready memory)
      (executeAllocOther o options solver context host memory fuel allocSite
        request.target request.zeroMemory (request.moved.map Prod.snd) executor manager size n second) := by
  cases second with
  | none => exact ⟨⟨.refl, fun _ => prepared.ready, nofun⟩, prepared.ready⟩
  | some part =>
    have onPart := on part rfl
    have meansPart := onPart.means means
    apply Satisfies.bind_left (getValue_spec sound onPart.sane meansPart)
    intro answer facts
    obtain ⟨ρ₀, hold₀, rfl⟩ := facts
    apply Satisfies.bind_left (constantEq_spec onPart.sane meansPart (value ρ₀))
    intro equality settles
    apply Satisfies.bind_left (mustBeTrue_spec sound.correct onPart.sane settles)
    intro answer tells
    match answer, tells with
    | none, unsound => exact absurd sound unsound
    | some true, always =>
      have known (ρ : Assignment) (hold : Hold ρ part.constraints) : value ρ = value ρ₀ := (of_decide_eq_true (always.mp rfl ρ hold)).symm
      apply Satisfies.bind_left (executeAllocConstant_several possible lawful modest narrow several prepared onPart known)
      exact fun result outcome => outcome
    | some false, _ =>
      apply Satisfies.bind (refuseSize_spec sound onPart.sane meansPart)
      intro result facts
      obtain ⟨sameHeap, denied⟩ := facts
      refine ⟨⟨⟨?_, fun _ => id⟩, fun _ => prepared.ready, fun last member => ?_⟩, prepared.ready⟩
      · dsimp only
        rw [sameHeap]
        exact .refl _
      · obtain ⟨within, isDenied⟩ := denied last (Option.mem_toList.mp member)
        exact ⟨fun ρ hold => onPart.hold (within ρ hold), .inl (isDenied.of_portion onPart)⟩

theorem executeAllocExample_spec {first : Option ExecutionState}
    (prepared : Prepared o constraints context.pointerWidth memory request executor.heap manager
      state) (on : ∀ part ∈ first, Portion o state (fun ρ => value ρ = v) part) :
    Satisfies (· = .outOfFuel)
      (fun result => AllocOutcomes o constraints context.pointerWidth memory request allocSite
          state value alignment executor.heap manager result ∧ result.2.1.Ready memory)
      (executeAllocExample o context host memory fuel allocSite request.target
        request.zeroMemory (request.moved.map Prod.snd) executor manager ⟨n, v⟩ first) := by
  cases first with
  | none => exact ⟨⟨.refl, fun _ => prepared.ready, nofun⟩, prepared.ready⟩
  | some part =>
    have onPart := on part rfl
    apply Satisfies.bind (executeAllocConstant_several possible lawful modest narrow several
      prepared onPart fun ρ hold => onPart.meets hold)
    exact fun result outcome => outcome

theorem executeAllocSymbolic_spec (sound : solver.Sound) (optimizes : ∀ valueOnly, Optimizes o fun e => optimizeExpr e valueOnly)
    (prepared : Prepared o constraints context.pointerWidth memory request executor.heap manager
      state) (sane : Sane o state.constraints) (means : Means o state.constraints size value) :
    Satisfies (Replays options)
      (AllocOutcomes o constraints context.pointerWidth memory request allocSite state value
        alignment executor.heap manager)
      (executeAllocSymbolic o options solver optimizeExpr context host memory fuel
        allocSite request.target request.zeroMemory (request.moved.map Prod.snd) executor manager state size) := by
  have optimized : Means o state.constraints (optimizeExpr size true) value := fun ρ hold => optimizes true ρ size n _ (means ρ hold)
  apply Satisfies.bind_left (getValue_spec sound sane optimized)
  intro answer facts
  obtain ⟨ρ₀, hold₀, rfl⟩ := facts
  apply Satisfies.bind_left (shrink_spec sound sane optimized (value ρ₀))
  intro found _
  apply Satisfies.bind_left (constantEq_spec sane optimized found)
  intro equality settles
  apply Satisfies.bind (fork_portions sound sane settles)
  intro forked sides
  obtain ⟨forked, first, second⟩ := forked
  have heap : forked.heap = executor.heap := sides.heap
  rw [← heap] at prepared ⊢
  apply Satisfies.bind (executeAllocOther_spec possible lawful modest narrow several sound prepared optimized sides.whenFalse)
  intro result facts
  obtain ⟨outcomes, ready⟩ := facts
  have preparedLater := prepared.proceeds outcomes.1 ready
  have isExample : ∀ part ∈ first, Portion o state (fun ρ => value ρ = found) part :=
    fun part isFirst => (sides.whenTrue part isFirst).weaken fun ρ _ same =>
      (of_decide_eq_true same).symm
  apply Satisfies.bind_left (executeAllocExample_spec possible lawful modest narrow several preparedLater isExample)
  intro result facts
  exact AllocOutcomes.append prepared outcomes facts.1

end Symbolic

section

variable (sound : solver.Sound) (optimizes : ∀ valueOnly, Optimizes o fun e => optimizeExpr e valueOnly)
include sound optimizes

theorem toUnique_constant (sane : Sane o constraints) (means : Means o constraints size value) (only : OnlyOne constraints value) :
    Satisfies (· = .outOfFuel) (fun e => e.constant? ≠ none)
      (toUnique o options.simplifyExprs solver optimizeExpr fuel constraints size) := by
  rw [toUnique]
  split
  · rename_i ce isConstant
    change size.constant? ≠ none
    rw [isConstant]
    rintro ⟨⟩
  · have optimized : Means o constraints (optimizeExpr size true) value := fun ρ hold => optimizes true ρ size n _ (means ρ hold)
    apply Satisfies.bind (getValue_spec sound sane optimized)
    intro answer facts
    obtain ⟨ρ₀, hold₀, rfl⟩ := facts
    apply Satisfies.bind (eq_spec sane optimized (value ρ₀))
    intro equality settles
    have optimizedEquality : Settles o constraints (optimizeExpr equality false) fun ρ =>
        decide (value ρ = value ρ₀) :=
      fun ρ hold => optimizes false ρ equality 1 _ (settles ρ hold)
    apply Satisfies.bind (mustBeTrue_spec sound.correct sane optimizedEquality)
    intro answer tells
    rcases answer with _ | _ | _
    · exact absurd sound tells
    · have always : ∀ ρ, Hold ρ constraints → decide (value ρ = value ρ₀) = true := fun ρ hold => decide_eq_true (only ρ ρ₀ hold hold₀)
      exact absurd (tells.mpr always) Bool.false_ne_true
    · rintro ⟨⟩

theorem executeAlloc_spec (possible : ∃ ρ, Hold ρ constraints) (lawful : host.Lawful)
    (prepared : Prepared o constraints context.pointerWidth memory request executor.heap manager
      state) (modest : getAllocationAlignment (allocSite state.prevPC) ≤ 2 ^ 62) (narrow : n ≤ 64)
    (aligned : alignment < 2 ^ 64) (sane : Sane o state.constraints) (means : Means o state.constraints size value) :
    Satisfies (Replays options)
      (AllocOutcomes o constraints context.pointerWidth memory request allocSite state value
        alignment executor.heap manager)
      (executeAlloc o options solver optimizeExpr context host memory fuel allocSite
        request.target request.zeroMemory (request.moved.map Prod.snd) executor manager state size alignment) := by
  have effective : effectiveAlignment allocSite state alignment < 2 ^ 64 := by
    rw [effectiveAlignment]
    split
    · exact Nat.lt_of_le_of_lt modest (by decide)
    · exact aligned
  have unique : Satisfies (· = .outOfFuel) (fun e => Means o state.constraints e value ∧
        (OnlyOne state.constraints value → e.constant? ≠ none))
      (toUnique o options.simplifyExprs solver optimizeExpr fuel state.constraints size) := by
    have denotes : Satisfies (· = .outOfFuel) (fun e => Means o state.constraints e value)
        (toUnique o options.simplifyExprs solver optimizeExpr fuel state.constraints size) :=
      toUnique_spec sound.correct optimizes sane means
    by_cases only : OnlyOne state.constraints value
    · apply (denotes.and (toUnique_constant sound optimizes sane means only)).mono
      exact fun e facts => ⟨facts.1, fun _ => facts.2⟩
    · exact denotes.mono fun e means => ⟨means, fun only' => absurd only' only⟩
  apply Satisfies.bind_left unique
  intro e facts
  obtain ⟨denotes, isConstant⟩ := facts
  cases constant : e.constant? with
  | none =>
    have several : ¬ OnlyOne state.constraints value := fun only => isConstant only constant
    exact executeAllocSymbolic_spec possible lawful modest narrow several sound optimizes prepared sane denotes
  | some ce =>
    rw [Expr.constant?_eq_some] at constant
    subst constant
    have same (ρ : Assignment) (hold : Hold ρ state.constraints) : ce = ⟨n, value ρ⟩ := (denotes ρ hold).of_constant
    obtain ⟨ρ₀, hold₀⟩ := sane.possible
    obtain rfl := same ρ₀ hold₀
    have known (ρ : Assignment) (hold : Hold ρ state.constraints) : value ρ = value ρ₀ := by
      have equal := same ρ hold
      simp only [ConstantExpr.mk.injEq, heq_eq_eq, true_and] at equal
      exact equal.symm
    apply Satisfies.bind_left (executeAllocConstant_outcome possible lawful prepared narrow effective
      (Portion.self sane known) known fun _ => rfl)
    intro result facts
    obtain ⟨proceeds, ready, outcome⟩ := facts
    refine ⟨proceeds, ready, fun last member => ?_⟩
    rw [List.mem_singleton.mp member]
    exact outcome

/-!
## Every allocation ends
-/

end

variable {reallocFrom : Option Ref}

theorem bindAllocated_halts : Ends fun fuel => bindAllocated o context fuel target zeroMemory reallocFrom executor state mo := by
  cases reallocFrom with
  | none =>
    simp only [bindAllocated_none]
    exact .ok _
  | some source =>
    simp only [bindAllocated_some]
    exact moveObject_halts

theorem executeAllocConstant_halts {size : ConstantExpr} :
    Ends fun fuel => executeAllocConstant o context host memory fuel allocSite target
      zeroMemory reallocFrom executor manager state size alignment := by
  simp only [executeAllocConstant]
  apply Ends.require
  cases manager.allocate host memory size.value.toNat
      (if alignment = 0 then getAllocationAlignment (allocSite state.prevPC) else alignment) with
  | mk made manager' =>
    cases made with
    | none => exact .pure _
    | some mo => exact bindAllocated_halts.bind fun _ _ => .pure _

theorem shrink_halts (found : BitVec n) : Ends fun fuel => shrink o options solver fuel constraints size found := by
  induction measure : found.toNat using Nat.strong_induction_on generalizing found with
  | h bound ih =>
    by_cases large : (BitVec.ofNat n 128).toNat < found.toNat
    · simp only [shrink.eq_def o options solver _ constraints size found, dif_pos large]
      apply (EqExpr.create_ends (.constant ⟨n, found >>> 1⟩) size).bind
      intro equality _
      apply (mayBeTrue_halts constraints equality).bind
      intro answer _
      rcases answer with _ | _ | _
      · exact .error _ (by simp)
      · exact .pure found
      · apply ih _ _ _ rfl
        rw [BitVec.toNat_ushiftRight, Nat.shiftRight_eq_div_pow]
        omega
    · simp only [shrink.eq_def o options solver _ constraints size found, dif_neg large]
      exact .pure found

theorem executeAllocOther_halts {w : Nat} {second : Option ExecutionState} :
    Ends fun fuel => executeAllocOther o options solver context host memory fuel allocSite
      target zeroMemory reallocFrom executor manager size w second := by
  cases second with
  | none =>
    exact .pure _
  | some part =>
    apply (getValue_halts part.constraints size).bind
    intro answer _
    cases answer with
    | none => exact .error _ nofun
    | some tmp =>
      apply (EqExpr.create_ends (.constant tmp) size).bind
      intro equality _
      apply (mustBeTrue_halts part.constraints equality).bind
      intro answer _
      match answer with
      | none => exact .error _ nofun
      | some true => exact executeAllocConstant_halts.bind fun _ _ => .pure _
      | some false =>
        apply Halts.bind
        · simp only [refuseSize]
          apply (UltExpr.create_ends (.constant (.alloc (2 ^ 31) w)) size).bind
          intro isHuge _
          exact internalFork_halts.bind fun _ _ => .pure _
        · exact fun _ _ => .pure _

theorem executeAllocExample_halts {found : ConstantExpr} {first : Option ExecutionState} :
    Ends fun fuel => executeAllocExample o context host memory fuel allocSite target
      zeroMemory reallocFrom executor manager found first := by
  cases first with
  | none =>
    exact .pure _
  | some part =>
    exact executeAllocConstant_halts.bind fun _ _ => .pure _

theorem executeAlloc_halts :
    Ends fun fuel => executeAlloc o options solver optimizeExpr context host memory fuel
      allocSite target zeroMemory reallocFrom executor manager state size alignment := by
  apply toUnique_halts.bind
  intro e _
  cases e.constant? with
  | some ce => exact executeAllocConstant_halts.bind fun _ _ => .pure _
  | none =>
    apply (getValue_halts state.constraints (optimizeExpr e true)).bind
    intro answer _
    cases answer with
    | none => exact .error _ nofun
    | some found =>
      apply (shrink_halts found.value).bind
      intro smaller _
      apply (EqExpr.create_ends (.constant ⟨found.width, smaller⟩) (optimizeExpr e true)).bind
      intro equality _
      apply internalFork_halts.bind
      intro forked _
      apply executeAllocOther_halts.bind
      intro others _
      exact executeAllocExample_halts.bind fun _ _ => .pure _

end NeuroMerge.Execution
