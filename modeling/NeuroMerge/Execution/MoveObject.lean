import NeuroMerge.Execution.Alloc
import NeuroMerge.Execution.MergeDecision

/-!
# Moving the contents of an object

What `realloc` leaves of the old object and in the new one, under every assignment of a path
condition.
-/

namespace NeuroMerge.Execution

open List Symbolic
open Symbolic.ConstraintManager (Hold)
open Memory (MemoryObject ObjectState Context Ref Heap deref SameFrame SameBytes Admits)

variable {ρ : Assignment} {o : Options} {context : Context} {fuel id i count : Nat}
  {constraints : List Expr} {executor : Executor} {state : ExecutionState}
  {os os' os'' old fresh : ObjectState} {heap heap' heap'' : Heap} {source target : Ref}

theorem Satisfies.forall_assignments {α : Type} {computation : Except Fault α}
    {post : Assignment → α → Prop} (possible : ∃ ρ, Hold ρ constraints)
    (each : ∀ ρ, Hold ρ constraints → Satisfies (Excused (.safe o ρ) ρ) (post ρ) computation) :
    Satisfies (· = .outOfFuel) (fun result => ∀ ρ, Hold ρ constraints → post ρ result)
      computation := by
  obtain ⟨ρ₀, hold₀⟩ := possible
  apply ((only_outOfFuel (each ρ₀ hold₀)).and .self).mono
  intro result facts ρ hold
  exact (each ρ hold).elim facts.2

def AlwaysValid (o : Options) (constraints : List Expr) (os : ObjectState) : Prop :=
  ∀ ρ, Hold ρ constraints → os.Valid (.safe o ρ)

structure Equivalent (o : Options) (constraints : List Expr) (os os' : ObjectState) : Prop
    extends SameFrame os os' where
  contents : ∀ ρ, Hold ρ constraints → os.Valid (.safe o ρ) →
    os'.Valid (.safe o ρ) ∧ ∀ i < os.size, os'.byte ρ i = os.byte ρ i

namespace Equivalent

theorem refl (os : ObjectState) : Equivalent o constraints os os :=
  ⟨SameFrame.refl os, fun _ _ valid => ⟨valid, fun _ _ => rfl⟩⟩

theorem trans (first : Equivalent o constraints os os')
    (second : Equivalent o constraints os' os'') : Equivalent o constraints os os'' := by
  refine ⟨first.toSameFrame.trans second.toSameFrame, fun ρ hold valid => ?_⟩
  obtain ⟨valid', bytes⟩ := first.contents ρ hold valid
  obtain ⟨valid'', bytes'⟩ := second.contents ρ hold valid'
  refine ⟨valid'', fun i within => ?_⟩
  rw [bytes' i (first.size ▸ within), bytes i within]

theorem alwaysValid (equivalent : Equivalent o constraints os os')
    (valid : AlwaysValid o constraints os) : AlwaysValid o constraints os' :=
  fun ρ hold => (equivalent.contents ρ hold (valid ρ hold)).1

end Equivalent

def Keeps (o : Options) (constraints : List Expr) (heap heap' : Heap) : Prop :=
  ∀ (ref : Ref) (os : ObjectState), heap[ref]? = some os →
    ∃ os', heap'[ref]? = some os' ∧ Equivalent o constraints os os'

namespace Keeps

theorem refl (heap : Heap) : Keeps o constraints heap heap :=
  fun _ os stored => ⟨os, stored, .refl os⟩

theorem trans (first : Keeps o constraints heap heap') (second : Keeps o constraints heap' heap'') : Keeps o constraints heap heap'' := by
  intro ref os stored
  obtain ⟨os', stored', equivalent⟩ := first ref os stored
  obtain ⟨os'', stored'', equivalent'⟩ := second ref os' stored'
  exact ⟨os'', stored'', equivalent.trans equivalent'⟩

theorem append (heap added : Heap) : Keeps o constraints heap (heap ++ added) := by
  intro ref os stored
  refine ⟨os, ?_, .refl os⟩
  rw [getElem?_append_left (List.getElem?_eq_some_iff.mp stored).1]
  exact stored

end Keeps

theorem read8_equivalent (possible : ∃ ρ, Hold ρ constraints) (valid : AlwaysValid o constraints os) (within : i < os.size) :
    Satisfies (· = .outOfFuel)
      (fun result => Means o constraints result.1 (fun ρ => os.byte ρ i) ∧
        Equivalent o constraints os result.2.1) (os.read8 o fuel id i) := by
  apply Satisfies.mono (Satisfies.forall_assignments possible fun ρ hold =>
    ObjectState.read8_byte Admits.safe (valid ρ hold) within)
  intro result facts
  obtain ⟨ρ₀, hold₀⟩ := possible
  exact ⟨fun ρ hold => (facts ρ hold).1, (facts ρ₀ hold₀).2.2.toSameFrame, fun ρ hold _ => ⟨(facts ρ hold).2.1, (facts ρ hold).2.2.bytes⟩⟩

structure Overwrites (o : Options) (constraints : List Expr) (os : ObjectState) (i : Nat)
    (content : Assignment → BitVec 8) (os' : ObjectState) : Prop extends SameFrame os os' where
  contents : ∀ ρ, Hold ρ constraints → os'.Valid (.safe o ρ) ∧
    ∀ j, os'.byte ρ j = if j = i then content ρ else os.byte ρ j

theorem write_overwrites {value : Expr} {content : Assignment → BitVec 8}
    (possible : ∃ ρ, Hold ρ constraints) (valid : AlwaysValid o constraints os) (means : Means o constraints value content) (i : Nat) :
    Satisfies (· = .outOfFuel) (Overwrites o constraints os i content) (os.write context fuel i value) := by
  apply Satisfies.mono (Satisfies.forall_assignments possible fun ρ hold =>
    ObjectState.write_byte (valid ρ hold) i (means ρ hold))
  intro result facts
  obtain ⟨ρ₀, hold₀⟩ := possible
  exact ⟨(facts ρ₀ hold₀).toSameFrame, fun ρ hold => ⟨(facts ρ hold).valid, (facts ρ hold).bytes⟩⟩

structure Copied (o : Options) (constraints : List Expr) (heap : Heap) (old fresh : ObjectState)
    (source target : Ref) (count : Nat) (heap' : Heap) : Prop where
  kept : ∃ os, heap'[source]? = some os ∧ Equivalent o constraints old os
  written : ∃ os, heap'[target]? = some os ∧ SameFrame fresh os ∧
    ∀ ρ, Hold ρ constraints → os.Valid (.safe o ρ) ∧
      ∀ i, os.byte ρ i = if i < count then old.byte ρ i else fresh.byte ρ i
  others : ∀ ref, ref ≠ source → ref ≠ target → heap'[ref]? = heap[ref]?

theorem Copied.start (storedOld : heap[source]? = some old)
    (storedFresh : heap[target]? = some fresh) (valid : AlwaysValid o constraints fresh) :
    Copied o constraints heap old fresh source target 0 heap where
  kept := ⟨old, storedOld, .refl old⟩
  written := ⟨fresh, storedFresh, SameFrame.refl fresh, fun ρ hold => ⟨valid ρ hold, fun _ => rfl⟩⟩
  others _ _ _ := rfl

theorem copyByte_copied (possible : ∃ ρ, Hold ρ constraints) (valid : AlwaysValid o constraints old) (different : source ≠ target)
    (copied : Copied o constraints heap old fresh source target count executor.heap) (within : count < old.size) :
    Satisfies (· = .outOfFuel)
      (fun executor' =>
        Copied o constraints heap old fresh source target (count + 1) executor'.heap)
      (Executor.copyByte o context fuel source target executor count) := by
  obtain ⟨os, stored, equivalent⟩ := copied.kept
  obtain ⟨os', stored', frame, contents⟩ := copied.written
  rw [Executor.copyByte, Memory.deref_eq_ok.mpr stored]
  apply Satisfies.bind (read8_equivalent possible (equivalent.alwaysValid valid) (equivalent.size ▸ within))
  intro read facts
  obtain ⟨value, read, id⟩ := read
  obtain ⟨means, readEquivalent⟩ := facts
  have inHeap : source < executor.heap.length := (List.getElem?_eq_some_iff.mp stored).1
  have targetInHeap : target < executor.heap.length := (List.getElem?_eq_some_iff.mp stored').1
  have storedTarget : (executor.heap.set source read)[target]? = some os' := by
    rw [getElem?_set_ne different, stored']
  dsimp only
  rw [Memory.deref_eq_ok.mpr storedTarget]
  apply Satisfies.bind (write_overwrites possible (fun ρ hold => (contents ρ hold).1) means count)
  intro written overwrites
  refine ⟨⟨read, ?_, equivalent.trans readEquivalent⟩, ⟨written, ?_, ?_, ?_⟩, ?_⟩
  · dsimp only
    rw [getElem?_set_ne different.symm, getElem?_set_self inHeap]
  · dsimp only
    rw [getElem?_set_self (by rwa [length_set])]
  · exact frame.trans overwrites.toSameFrame
  · intro ρ hold
    obtain ⟨validWritten, bytes⟩ := overwrites.contents ρ hold
    refine ⟨validWritten, fun j => ?_⟩
    rw [bytes j]
    have copiedByte := (equivalent.contents ρ hold (valid ρ hold)).2 count within
    by_cases isNext : j = count
    · rw [if_pos isNext, if_pos (by omega), copiedByte, isNext]
    · rw [if_neg isNext, (contents ρ hold).2 j]
      have same : j < count + 1 ↔ j < count := by omega
      simp only [same]
  · intro ref notSource notTarget
    rw [getElem?_set_ne notTarget.symm, getElem?_set_ne notSource.symm]
    exact copied.others ref notSource notTarget

theorem moveObject_spec (possible : ∃ ρ, Hold ρ constraints) (storedOld : executor.heap[source]? = some old)
    (storedFresh : executor.heap[target]? = some fresh) (different : source ≠ target)
    (valid : AlwaysValid o constraints old) (validFresh : AlwaysValid o constraints fresh) :
    Satisfies (· = .outOfFuel)
      (fun result => Copied o constraints executor.heap old fresh source target
          (min old.size fresh.size) result.1.heap ∧ result.2 = { state with addressSpace := state.addressSpace.unbindObject old.object })
      (Executor.moveObject o context fuel executor state source target) := by
  rw [Executor.moveObject, Memory.deref_eq_ok.mpr storedOld, ok_bind, Memory.deref_eq_ok.mpr storedFresh, ok_bind]
  have loop : Satisfies (· = .outOfFuel) (fun executor' : Executor => Copied o constraints executor.heap old fresh source target
        (List.range (min old.size fresh.size)).length executor'.heap)
      ((List.range (min old.size fresh.size)).foldlM (Executor.copyByte o context fuel source target) executor) := by
    apply Satisfies.foldlM (fun seen (executor' : Executor) =>
        Copied o constraints executor.heap old fresh source target seen.length executor'.heap)
      (Copied.start storedOld storedFresh validFresh)
    intro seen item remaining executor' split copied
    have position := congrArg (fun items => items[seen.length]?) split
    have inRange := congrArg List.length split
    simp only [length_range, length_append, length_cons] at inRange
    simp only [getElem?_append_right (Nat.le_refl _), Nat.sub_self] at position
    rw [getElem?_range (by omega)] at position
    obtain rfl : seen.length = item := Option.some.inj position
    rw [length_append, length_singleton]
    exact copyByte_copied possible valid different copied (by omega)
  rw [length_range] at loop
  apply Satisfies.bind loop
  exact fun executor' copied => ⟨copied, rfl⟩

theorem copyByte_halts : Ends fun fuel => Executor.copyByte o context fuel source target executor i := by
  apply (ExecutionState.deref_asserts executor.heap source).ends.bind
  intro reallocFrom _
  apply (reallocFrom.read8_ends executor.arrays i).bind
  intro read _
  apply (ExecutionState.deref_asserts _ target).ends.bind
  intro os _
  apply (os.write_ends i read.1).bind
  exact fun written _ => .pure _

theorem moveObject_halts : Ends fun fuel => Executor.moveObject o context fuel executor state source target := by
  apply (ExecutionState.deref_asserts executor.heap source).ends.bind
  intro reallocFrom _
  apply (ExecutionState.deref_asserts executor.heap target).ends.bind
  intro os _
  apply Halts.bind (.foldlM_const fun executor i => copyByte_halts)
  exact fun executor' _ => .pure _

end NeuroMerge.Execution
