import NeuroMerge.Foundations.ImmutableMap
import NeuroMerge.Memory.ArrayLaw

/-!
# Address spaces

Object states live on a heap that all address spaces share; an address space maps
memory objects to them. Which object states an address space may write is
inferred from its epoch counter.
-/

namespace NeuroMerge.Memory

open Symbolic (Options Fault Assertion require)

abbrev Ref := Nat

abbrev Heap := List ObjectState

structure AddressSpace where
  cowKey : BitVec 32
  objects : List (MemoryObject × Ref)
  deriving DecidableEq

def deref (heap : Heap) (ref : Ref) : Except Fault ObjectState :=
  match heap[ref]? with
  | some os => pure os
  | none => throw (.assertion .missingObject)

namespace AddressSpace

def empty : AddressSpace := ⟨1, []⟩

/-- `AddressSpace(b)`: the new space, and `b` as the copy leaves it. -/
def copy (b : AddressSpace) : AddressSpace × AddressSpace :=
  let b := { b with cowKey := b.cowKey + 1 }
  (⟨b.cowKey, b.objects⟩, b)

def replace (space : AddressSpace) (mo : MemoryObject) (ref : Ref) : AddressSpace :=
  { space with objects := ImmutableMap.replace MemoryObject.address space.objects (mo, ref) }

def bindObject (heap : Heap) (space : AddressSpace) (mo : MemoryObject) (ref : Ref) :
    Except Fault (Heap × AddressSpace) := do
  let os ← deref heap ref
  require (os.copyOnWriteOwner = 0) .alreadyOwned
  pure (heap.set ref { os with copyOnWriteOwner := space.cowKey }, space.replace mo ref)

def unbindObject (space : AddressSpace) (mo : MemoryObject) : AddressSpace :=
  { space with objects := ImmutableMap.remove MemoryObject.address space.objects mo.address }

def findObject (space : AddressSpace) (mo : MemoryObject) : Option Ref :=
  (ImmutableMap.lookup MemoryObject.address space.objects mo.address).map Prod.snd

def getWriteable (heap : Heap) (space : AddressSpace) (mo : MemoryObject) (ref : Ref) :
    Except Fault (Heap × AddressSpace × Ref) := do
  let os ← deref heap ref
  require (os.readOnly = false) .mutatedNotWritable
  if space.cowKey = os.copyOnWriteOwner then pure (heap, space, ref)
  else do
    let newObjectState ← os.copy
    pure (heap ++ [{ newObjectState with copyOnWriteOwner := space.cowKey }],
      space.replace mo heap.length, heap.length)

end AddressSpace

section Properties

variable {heap : Heap} {space : AddressSpace} {mo : MemoryObject} {ref : Ref} {os : ObjectState}

theorem deref_eq_ok : deref heap ref = .ok os ↔ heap[ref]? = some os := by
  rw [deref]
  cases heap[ref]? with
  | none => exact ⟨nofun, nofun⟩
  | some found => exact ⟨fun same => congrArg some (Except.ok.inj same), fun same => by cases same; rfl⟩

namespace AddressSpace

/-- What is written through `getWriteable`: the object itself or a copy, and owned. -/
def Writeable (heap : Heap) (space : AddressSpace) (mo : MemoryObject) (ref : Ref)
    (os : ObjectState) (result : Heap × AddressSpace × Ref) : Prop :=
  (space.cowKey = os.copyOnWriteOwner ∧ result = (heap, space, ref)) ∨
    (space.cowKey ≠ os.copyOnWriteOwner ∧
      result = (heap ++ [{ os with copyOnWriteOwner := space.cowKey }],
        space.replace mo heap.length, heap.length))

theorem getWriteable_returns (stored : heap[ref]? = some os) (unprotected : os.readOnly = false) :
    ∃ result, space.getWriteable heap mo ref = .ok result ∧ space.Writeable heap mo ref os result := by
  have copied : os.copy = .ok { os with copyOnWriteOwner := 0 } := by
    rw [ObjectState.copy, require, if_pos unprotected]
    rfl
  simp only [getWriteable, deref_eq_ok.mpr stored, bind, Except.bind, require, if_pos unprotected, pure, Except.pure, copied]
  by_cases owns : space.cowKey = os.copyOnWriteOwner
  · rw [if_pos owns]
    exact ⟨_, rfl, .inl ⟨owns, rfl⟩⟩
  · rw [if_neg owns]
    exact ⟨_, rfl, .inr ⟨owns, rfl⟩⟩

theorem getWriteable_cases {result : Heap × AddressSpace × Ref} (returned : space.getWriteable heap mo ref = .ok result) :
    ∃ os, heap[ref]? = some os ∧ os.readOnly = false ∧ space.Writeable heap mo ref os result := by
  obtain ⟨os, found, rest⟩ := bind_eq_ok_iff.mp returned
  have stored := deref_eq_ok.mp found
  by_cases unprotected : os.readOnly = false
  · obtain ⟨expected, returns, writeable⟩ := getWriteable_returns stored unprotected
    cases returned.symm.trans returns
    exact ⟨os, stored, unprotected, writeable⟩
  · rw [require, if_neg unprotected] at rest
    cases rest

end AddressSpace

end Properties

end NeuroMerge.Memory
