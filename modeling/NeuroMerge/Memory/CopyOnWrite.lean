import NeuroMerge.Memory.AddressSpace
import NeuroMerge.Memory.Frame

/-!
# Copy on write

Any interleaving of forks, bindings and writes over any number of address
spaces: what one of them writes is never seen through another.
-/

namespace NeuroMerge.Memory

open List Symbolic

variable {o : Options} {context : Context} {fuel : Nat}

/-- All address spaces, by the order of their creation, and the heap. -/
structure System where
  heap : Heap
  spaces : List (Option AddressSpace)
  arrays : Nat

/-- What an address space, or the code that uses it, does next. -/
inductive Event where
  | createSpace
  | createObject (mo : MemoryObject) (origin : Origin)
  | fork (space : Nat)
  | release (space : Nat)
  | bindObject (space : Nat) (mo : MemoryObject) (ref : Ref)
  | unbindObject (space : Nat) (mo : MemoryObject)
  | getWriteable (space : Nat) (mo : MemoryObject)
  | write (space : Nat) (mo : MemoryObject) (access : Access)

namespace System

def initial : System := ⟨[], [], 0⟩

def space? (σ : System) (s : Nat) : Option AddressSpace := (σ.spaces[s]?).join

def space (σ : System) (s : Nat) : Except Fault AddressSpace :=
  match σ.space? s with
  | some space => pure space
  | none => throw (.assertion .missingObject)

def setSpace (σ : System) (s : Nat) (space : Option AddressSpace) : System :=
  { σ with spaces := σ.spaces.set s space }

def getWriteable (σ : System) (s : Nat) (mo : MemoryObject) : Except Fault (System × Ref) := do
  let space ← σ.space s
  match space.findObject mo with
  | some ref => do
    let (heap, space, ref) ← space.getWriteable σ.heap mo ref
    pure ({ σ.setSpace s (some space) with heap := heap }, ref)
  | none => throw (.assertion .missingObject)

def step (o : Options) (context : Context) (fuel : Nat) (σ : System) : Event → Except Fault System
  | .createSpace => pure { σ with spaces := σ.spaces ++ [some .empty] }
  | .createObject mo origin => pure { σ with heap := σ.heap ++ [origin.state mo] }
  | .fork s => do
    let space ← σ.space s
    let (copied, space) := space.copy
    let σ := σ.setSpace s (some space)
    pure { σ with spaces := σ.spaces ++ [some copied] }
  | .release s => pure (σ.setSpace s none)
  | .bindObject s mo ref => do
    let space ← σ.space s
    let (heap, space) ← space.bindObject σ.heap mo ref
    pure { σ.setSpace s (some space) with heap := heap }
  | .unbindObject s mo => do
    let space ← σ.space s
    pure (σ.setSpace s (some (space.unbindObject mo)))
  | .getWriteable s mo => do
    let (σ, _) ← σ.getWriteable s mo
    pure σ
  | .write s mo access => do
    let (σ, ref) ← σ.getWriteable s mo
    let os ← deref σ.heap ref
    let (_, os, arrays) ← access.perform o context fuel os σ.arrays
    pure { σ with heap := σ.heap.set ref os, arrays := arrays }

end System

def Event.Fits (σ : System) : Event → Prop
  | .fork s => ∀ space, σ.space? s = some space → space.cowKey.toNat + 1 < 2 ^ 32
  | _ => True

inductive Reaches (o : Options) (context : Context) : System → Prop where
  | initial : Reaches o context .initial
  | step {σ σ' : System} {fuel : Nat} (event : Event) :
      Reaches o context σ → event.Fits σ → σ.step o context fuel event = .ok σ' →
      Reaches o context σ'

def Event.actor? : Event → Option Nat
  | .createSpace | .createObject _ _ => none
  | .fork s | .release s | .bindObject s _ _ | .unbindObject s _ | .getWriteable s _
  | .write s _ _ => some s

namespace System

variable {σ σ' : System} {s t : Nat} {space other : AddressSpace} {mo : MemoryObject} {ref : Ref} {os : ObjectState}

theorem space_eq_ok : σ.space s = .ok space ↔ σ.space? s = some space := by
  rw [System.space]
  cases σ.space? s with
  | none => exact ⟨nofun, nofun⟩
  | some found => exact ⟨fun same => congrArg some (Except.ok.inj same), fun same => by cases same; rfl⟩

theorem lt_of_space? (live : σ.space? s = some space) : s < σ.spaces.length := by
  rw [space?] at live
  by_contra outside
  rw [getElem?_eq_none (by omega)] at live
  cases live

theorem space?_setSpace_self (live : s < σ.spaces.length) (space : Option AddressSpace) : (σ.setSpace s space).space? s = space := by
  simp [space?, setSpace, live]

theorem space?_setSpace_ne (other : t ≠ s) (space : Option AddressSpace) : (σ.setSpace s space).space? t = σ.space? t := by
  simp [space?, setSpace, other.symm]

theorem setSpace_self (live : σ.space? s = some space) : σ.setSpace s (some space) = σ := by
  have inside := lt_of_space? live
  rw [space?, getElem?_eq_getElem inside] at live
  have here : σ.spaces[s] = some space := live
  rw [setSpace, ← here, set_getElem_self]

def Holds (σ : System) (s : Nat) (space : AddressSpace) (ref : Ref) : Prop :=
  σ.space? s = some space ∧ ∃ mo, (mo, ref) ∈ space.objects

/-- The invariant: what two spaces hold belongs to an earlier epoch of both. -/
structure Exclusive (σ : System) : Prop where
  positive : ∀ {s space}, σ.space? s = some space → 0 < space.cowKey.toNat
  owned : ∀ {s space ref}, σ.Holds s space ref → ∃ os, σ.heap[ref]? = some os ∧
    0 < os.copyOnWriteOwner.toNat ∧ os.copyOnWriteOwner.toNat ≤ space.cowKey.toNat
  shared : ∀ {s t space other ref os}, s ≠ t → σ.Holds s space ref → σ.Holds t other ref →
    σ.heap[ref]? = some os → os.copyOnWriteOwner.toNat < space.cowKey.toNat

theorem Exclusive.weaken (exclusive : σ.Exclusive)
    (spaces : ∀ {s space'}, σ'.space? s = some space' → space' = .empty ∨
      ∃ space, σ.space? s = some space ∧ space'.cowKey = space.cowKey ∧
        ∀ entry ∈ space'.objects, entry ∈ space.objects)
    (owners : ∀ {ref : Ref} {os : ObjectState}, σ.heap[ref]? = some os →
      ∃ os' : ObjectState, σ'.heap[ref]? = some os' ∧ os'.copyOnWriteOwner = os.copyOnWriteOwner) : σ'.Exclusive := by
  have before {s space' ref} (holds : σ'.Holds s space' ref) : ∃ space, σ.Holds s space ref ∧ space'.cowKey = space.cowKey := by
    obtain ⟨live, mo, member⟩ := holds
    cases spaces live with
    | inl isEmpty =>
      rw [isEmpty] at member
      cases member
    | inr old =>
      obtain ⟨space, live', key, entries⟩ := old
      exact ⟨space, ⟨live', mo, entries _ member⟩, key⟩
  constructor
  · intro s space' live
    cases spaces live with
    | inl isEmpty =>
      rw [isEmpty]
      decide
    | inr old =>
      obtain ⟨space, live', key, -⟩ := old
      rw [key]
      exact exclusive.positive live'
  · intro s space' ref holds
    obtain ⟨space, holds', key⟩ := before holds
    obtain ⟨os, here, bounds⟩ := exclusive.owned holds'
    obtain ⟨os', here', owner⟩ := owners here
    exact ⟨os', here', by rwa [owner, key]⟩
  · intro s t space' other' ref os' different holds holds' here'
    obtain ⟨space, old, key⟩ := before holds
    obtain ⟨other, old', -⟩ := before holds'
    obtain ⟨os, here, -⟩ := exclusive.owned old
    obtain ⟨found, here'', owner⟩ := owners here
    cases Option.some.inj (here'.symm.trans here'')
    rw [owner, key]
    exact exclusive.shared different old old' here

theorem Exclusive.adopt (exclusive : σ.Exclusive) (live : σ.space? s = some space)
    (fresh : ∀ {t other}, ¬ σ.Holds t other ref) (mo : MemoryObject) {heap : Heap}
    (adopted : heap[ref]? = some os) (owner : os.copyOnWriteOwner = space.cowKey)
    (rest : ∀ {r os}, r ≠ ref → σ.heap[r]? = some os → heap[r]? = some os) :
    Exclusive { σ.setSpace s (some (space.replace mo ref)) with heap := heap } := by
  have here := space?_setSpace_self (lt_of_space? live) (some (space.replace mo ref))
  have before {t other r} (holds : Holds { σ.setSpace s (some (space.replace mo ref)) with heap := heap } t other r) :
      (t = s ∧ other.cowKey = space.cowKey ∧ (r = ref ∨ σ.Holds s space r)) ∨ (t ≠ s ∧ σ.Holds t other r) := by
    obtain ⟨found, mo', member⟩ := holds
    change (σ.setSpace s (some (space.replace mo ref))).space? t = some other at found
    by_cases same : t = s
    · subst same
      rw [here] at found
      cases found
      refine .inl ⟨rfl, rfl, ?_⟩
      obtain new | old := ImmutableMap.mem_of_mem_replace member
      · exact .inl (congrArg Prod.snd new)
      · exact .inr ⟨live, mo', old⟩
    · rw [space?_setSpace_ne same] at found
      exact .inr ⟨same, found, mo', member⟩
  constructor
  · intro t other found
    change (σ.setSpace s (some (space.replace mo ref))).space? t = some other at found
    by_cases same : t = s
    · subst same
      rw [here] at found
      cases found
      have positive : 0 < space.cowKey.toNat := exclusive.positive live
      exact positive
    · rw [space?_setSpace_ne same] at found
      exact exclusive.positive found
  · intro t other r holds
    have kept {t' other'} (old : σ.Holds t' other' r) (key : other.cowKey = other'.cowKey) :
        ∃ os, heap[r]? = some os ∧ 0 < os.copyOnWriteOwner.toNat ∧ os.copyOnWriteOwner.toNat ≤ other.cowKey.toNat := by
      obtain ⟨os, found, bounds⟩ := exclusive.owned old
      refine ⟨os, rest (fun same => fresh (same ▸ old)) found, by rwa [key]⟩
    obtain ⟨-, key, rfl | old⟩ | ⟨-, old⟩ := before holds
    · refine ⟨os, adopted, ?_⟩
      rw [owner, key]
      exact ⟨exclusive.positive live, Nat.le_refl _⟩
    · exact kept old key
    · exact kept old rfl
  · intro t t' other other' r os' different holds holds' found
    have kept {t₁ t₂ o₁ o₂} (old : σ.Holds t₁ o₁ r) (old' : σ.Holds t₂ o₂ r) (ne : t₁ ≠ t₂) (key : other.cowKey = o₁.cowKey) :
        os'.copyOnWriteOwner.toNat < other.cowKey.toNat := by
      obtain ⟨os, stored, -⟩ := exclusive.owned old
      have same := rest (fun same => fresh (same ▸ old)) stored
      cases Option.some.inj (same.symm.trans found)
      rw [key]
      exact exclusive.shared ne old old' stored
    obtain ⟨rfl, key, new | old⟩ | ⟨ne, old⟩ := before holds
    · obtain ⟨rfl, -⟩ | ⟨-, old'⟩ := before holds'
      · exact absurd rfl different
      · exact absurd (new ▸ old') fresh
    · obtain ⟨rfl, -⟩ | ⟨-, old'⟩ := before holds'
      · exact absurd rfl different
      · exact kept old old' different key
    · obtain ⟨rfl, -, new | old'⟩ | ⟨-, old'⟩ := before holds'
      · exact absurd (new ▸ old) fresh
      · exact kept old old' different rfl
      · exact kept old old' different rfl

theorem space?_append (spaces : List (Option AddressSpace)) (added : Option AddressSpace) {heap : Heap} {arrays : Nat} (t : Nat) :
    space? ⟨heap, spaces ++ [added], arrays⟩ t = if t = spaces.length then added else space? ⟨heap, spaces, arrays⟩ t := by
  rw [space?, space?]
  split
  · rename_i last
    subst last
    simp
  · rename_i other
    by_cases inside : t < spaces.length
    · rw [getElem?_append_left inside]
    · rw [getElem?_eq_none (by simpa using by omega), getElem?_eq_none (by simpa using inside)]

theorem Exclusive.fork (exclusive : σ.Exclusive) (live : σ.space? s = some space) (fits : space.cowKey.toNat + 1 < 2 ^ 32) :
    Exclusive { σ.setSpace s (some space.copy.2) with
      spaces := (σ.setSpace s (some space.copy.2)).spaces ++ [some space.copy.1] } := by
  have inside := lt_of_space? live
  have key : (space.cowKey + 1).toNat = space.cowKey.toNat + 1 := by
    exact Nat.mod_eq_of_lt fits
  have before {t other} (found : space? { σ.setSpace s (some space.copy.2) with
      spaces := (σ.setSpace s (some space.copy.2)).spaces ++ [some space.copy.1] } t = some other) :
      (other.objects = space.objects ∧ other.cowKey = space.cowKey + 1) ∨ (t ≠ s ∧ σ.space? t = some other) := by
    rw [space?_append] at found
    split at found
    · cases found
      exact .inl ⟨rfl, rfl⟩
    · change (σ.setSpace s (some space.copy.2)).space? t = some other at found
      by_cases same : t = s
      · subst same
        rw [space?_setSpace_self inside] at found
        cases found
        exact .inl ⟨rfl, rfl⟩
      · rw [space?_setSpace_ne same] at found
        exact .inr ⟨same, found⟩
  constructor
  · intro t other found
    obtain ⟨-, epoch⟩ | ⟨-, old⟩ := before found
    · rw [epoch, key]
      exact Nat.succ_pos _
    · exact exclusive.positive old
  · rintro t other r ⟨found, mo, member⟩
    obtain ⟨objects, epoch⟩ | ⟨-, old⟩ := before found
    · obtain ⟨os, stored, positive, le⟩ := exclusive.owned ⟨live, mo, objects ▸ member⟩
      refine ⟨os, stored, positive, ?_⟩
      rw [epoch, key]
      omega
    · exact exclusive.owned ⟨old, mo, member⟩
  · rintro t t' other other' r os different ⟨found, mo, member⟩ ⟨found', mo', member'⟩ stored
    obtain ⟨objects, epoch⟩ | ⟨ne, old⟩ := before found
    · obtain ⟨os', stored', -, le⟩ := exclusive.owned ⟨live, mo, objects ▸ member⟩
      cases Option.some.inj (stored'.symm.trans stored)
      rw [epoch, key]
      omega
    · obtain ⟨objects', -⟩ | ⟨-, old'⟩ := before found'
      · exact exclusive.shared ne ⟨old, mo, member⟩ ⟨live, mo', objects' ▸ member'⟩ stored
      · exact exclusive.shared different ⟨old, mo, member⟩ ⟨old', mo', member'⟩ stored

theorem getWriteable_cases (returned : σ.getWriteable s mo = .ok (σ', ref)) :
    ∃ space bound os, σ.space? s = some space ∧ space.findObject mo = some bound ∧
      σ.heap[bound]? = some os ∧
      ((space.cowKey = os.copyOnWriteOwner ∧ σ' = σ ∧ ref = bound) ∨
        (space.cowKey ≠ os.copyOnWriteOwner ∧ ref = σ.heap.length ∧
          σ' = { σ.setSpace s (some (space.replace mo ref)) with
            heap := σ.heap ++ [{ os with copyOnWriteOwner := space.cowKey }] })) := by
  obtain ⟨space, isSpace, rest⟩ := bind_eq_ok_iff.mp returned
  have live := space_eq_ok.mp isSpace
  cases found : space.findObject mo with
  | none =>
    rw [found] at rest
    cases rest
  | some bound =>
    simp only [found] at rest
    obtain ⟨result, writeable, same⟩ := bind_eq_ok_iff.mp rest
    obtain ⟨os, stored, -, own | copied⟩ := AddressSpace.getWriteable_cases writeable
    · obtain ⟨owns, rfl⟩ := own
      cases same
      refine ⟨space, bound, os, live, found, stored, .inl ⟨owns, ?_, rfl⟩⟩
      rw [setSpace_self live]
    · obtain ⟨foreign, rfl⟩ := copied
      cases same
      exact ⟨space, bound, os, live, found, stored, .inr ⟨foreign, rfl, rfl⟩⟩

theorem Exclusive.only (exclusive : σ.Exclusive) (holds : σ.Holds s space ref)
    (stored : σ.heap[ref]? = some os) (owns : os.copyOnWriteOwner = space.cowKey) (different : t ≠ s) : ¬ σ.Holds t other ref := by
  intro shared
  have earlier := exclusive.shared different.symm holds shared stored
  rw [owns] at earlier
  exact absurd earlier (Nat.lt_irrefl _)

theorem holds_findObject (live : σ.space? s = some space) (found : space.findObject mo = some ref) : σ.Holds s space ref := by
  rw [AddressSpace.findObject, Option.map_eq_some_iff] at found
  obtain ⟨⟨mo', ref'⟩, entry, rfl⟩ := found
  exact ⟨live, mo', ImmutableMap.lookup_mem entry⟩

theorem findObject_replace (space : AddressSpace) (mo : MemoryObject) (ref : Ref) : (space.replace mo ref).findObject mo = some ref := by
  rw [AddressSpace.findObject, AddressSpace.replace]
  rw [ImmutableMap.lookup_replace_self]
  rfl

def Spares (σ σ' : System) (t : Nat) : Prop :=
  ∀ other, σ.space? t = some other → σ'.space? t = some other ∧
    ∀ entry ∈ other.objects, σ'.heap[entry.2]? = σ.heap[entry.2]?

theorem Spares.trans {σ'' : System} (first : σ.Spares σ' t) (second : σ'.Spares σ'' t) : σ.Spares σ'' t := by
  intro other live
  obtain ⟨live', kept⟩ := first other live
  obtain ⟨live'', kept'⟩ := second other live'
  exact ⟨live'', fun entry member => (kept' entry member).trans (kept entry member)⟩

theorem Exclusive.held_lt (exclusive : σ.Exclusive) (holds : σ.Holds s space ref) : ref < σ.heap.length := by
  obtain ⟨os, stored, -⟩ := exclusive.owned holds
  exact (List.getElem?_eq_some_iff.mp stored).1

/-- The space that asks has the object afterwards, with its contents, in its own
epoch. -/
structure Obtained (σ σ' : System) (s : Nat) (mo : MemoryObject) (ref : Ref) : Prop where
  obtained : ∃ space bound os space', σ.space? s = some space ∧
    space.findObject mo = some bound ∧ σ.heap[bound]? = some os ∧
    σ'.space? s = some space' ∧ space'.cowKey = space.cowKey ∧ space'.findObject mo = some ref ∧
    σ'.heap[ref]? = some { os with copyOnWriteOwner := space'.cowKey }

theorem getWriteable_obtains (returned : σ.getWriteable s mo = .ok (σ', ref)) : σ.Obtained σ' s mo ref := by
  obtain ⟨space, bound, os, live, found, stored, ⟨owns, rfl, rfl⟩ | ⟨foreign, rfl, rfl⟩⟩ := getWriteable_cases returned
  · refine ⟨space, ref, os, space, live, found, stored, live, rfl, found, ?_⟩
    rw [stored, owns]
  · refine ⟨space, bound, os, space.replace mo σ.heap.length, live, found, stored,
      space?_setSpace_self (lt_of_space? live) _, rfl, findObject_replace space mo _, ?_⟩
    simp [AddressSpace.replace]

theorem Exclusive.getWriteable (exclusive : σ.Exclusive) (returned : σ.getWriteable s mo = .ok (σ', ref)) : σ'.Exclusive := by
  obtain ⟨space, bound, os, live, found, stored, ⟨-, rfl, -⟩ | ⟨-, rfl, rfl⟩⟩ := getWriteable_cases returned
  · exact exclusive
  · apply exclusive.adopt live (fun holds => absurd (exclusive.held_lt holds) (lt_irrefl _)) mo (getElem?_concat_length ..) rfl
    intro r found _ old
    rw [getElem?_append_left (List.getElem?_eq_some_iff.mp old).1, old]

theorem Exclusive.getWriteable_spares (exclusive : σ.Exclusive)
    (returned : σ.getWriteable s mo = .ok (σ', ref)) (different : t ≠ s) : σ.Spares σ' t := by
  obtain ⟨space, bound, os, live, found, stored, ⟨-, rfl, -⟩ | ⟨-, rfl, rfl⟩⟩ := getWriteable_cases returned
  · exact fun other live => ⟨live, fun _ _ => rfl⟩
  · intro other here
    refine ⟨(space?_setSpace_ne different _).trans here, ?_⟩
    intro entry member
    exact getElem?_append_left (exclusive.held_lt ⟨here, entry.1, member⟩)

theorem write_cases {fuel : Nat} {access : Access} (stepped : σ.step o context fuel (.write s mo access) = .ok σ') :
    ∃ middle ref os os' arrays, σ.getWriteable s mo = .ok (middle, ref) ∧
      middle.heap[ref]? = some os ∧ SameFrame os os' ∧ σ' = { middle with heap := middle.heap.set ref os', arrays := arrays } := by
  obtain ⟨⟨middle, ref⟩, obtained, rest⟩ := bind_eq_ok_iff.mp stepped
  obtain ⟨os, found, rest⟩ := bind_eq_ok_iff.mp rest
  obtain ⟨⟨res, os', arrays⟩, performed, same⟩ := bind_eq_ok_iff.mp rest
  cases same
  exact ⟨middle, ref, os, os', arrays, obtained, deref_eq_ok.mp found, (access.perform_frame os middle.arrays).elim performed, rfl⟩

theorem getElem?_set_some {heap : Heap} {r : Ref} {os' found : ObjectState}
    (stored : heap[ref]? = some os) (here : heap[r]? = some found) : (heap.set ref os')[r]? = some (if r = ref then os' else found) := by
  rw [getElem?_set]
  have inside := (List.getElem?_eq_some_iff.mp stored).1
  by_cases same : ref = r
  · subst same
    simp [inside]
  · rw [if_neg same, if_neg (fun equal => same equal.symm)]
    exact here

theorem Exclusive.write (exclusive : σ.Exclusive) {os' : ObjectState} {arrays : Nat}
    (stored : σ.heap[ref]? = some os) (frame : SameFrame os os') : Exclusive { σ with heap := σ.heap.set ref os', arrays := arrays } := by
  apply exclusive.weaken
  · intro s space live
    exact .inr ⟨space, live, rfl, fun _ member => member⟩
  · intro r found here
    refine ⟨_, getElem?_set_some stored here, ?_⟩
    split
    · rename_i same
      subst same
      cases Option.some.inj (stored.symm.trans here)
      exact frame.owner
    · rfl

theorem bindObject_cases {heap heap' : Heap} {space' : AddressSpace} (bound : space.bindObject heap mo ref = .ok (heap', space')) :
    ∃ os, heap[ref]? = some os ∧ os.copyOnWriteOwner = 0 ∧ heap' = heap.set ref { os with copyOnWriteOwner := space.cowKey } ∧
      space' = space.replace mo ref := by
  obtain ⟨os, found, rest⟩ := bind_eq_ok_iff.mp bound
  by_cases unowned : os.copyOnWriteOwner = 0
  · rw [require, if_pos unowned] at rest
    cases rest
    exact ⟨os, deref_eq_ok.mp found, unowned, rfl, rfl⟩
  · rw [require, if_neg unowned] at rest
    cases rest

theorem Exclusive.not_holds (exclusive : σ.Exclusive) (stored : σ.heap[ref]? = some os)
    (unowned : os.copyOnWriteOwner = 0) : ¬ σ.Holds t other ref := by
  intro holds
  obtain ⟨found, here, positive, -⟩ := exclusive.owned holds
  cases Option.some.inj (stored.symm.trans here)
  rw [unowned] at positive
  exact absurd positive (by decide)

theorem Exclusive.bind (exclusive : σ.Exclusive) (live : σ.space? s = some space)
    (stored : σ.heap[ref]? = some os) (unowned : os.copyOnWriteOwner = 0) (mo : MemoryObject) :
    Exclusive { σ.setSpace s (some (space.replace mo ref)) with
      heap := σ.heap.set ref { os with copyOnWriteOwner := space.cowKey } } := by
  apply exclusive.adopt live (exclusive.not_holds stored unowned) mo
  · exact (getElem?_set_some stored stored).trans (by rw [if_pos rfl])
  · rfl
  · intro r found different here
    rw [getElem?_set_some stored here, if_neg different]

theorem Exclusive.step (exclusive : σ.Exclusive) {fuel : Nat} {event : Event}
    (fits : event.Fits σ) (stepped : σ.step o context fuel event = .ok σ') : σ'.Exclusive := by
  cases event with
  | createSpace =>
    cases stepped
    apply exclusive.weaken
    · intro t other live
      rw [space?_append] at live
      split at live
      · exact .inl (Option.some.inj live).symm
      · exact .inr ⟨other, live, rfl, fun _ member => member⟩
    · intro r found here
      exact ⟨found, here, rfl⟩
  | createObject mo origin =>
    cases stepped
    apply exclusive.weaken
    · intro t other live
      exact .inr ⟨other, live, rfl, fun _ member => member⟩
    · intro r found here
      refine ⟨found, ?_, rfl⟩
      rw [getElem?_append_left (List.getElem?_eq_some_iff.mp here).1, here]
  | fork s =>
    obtain ⟨space, isSpace, same⟩ := bind_eq_ok_iff.mp stepped
    cases same
    have live := space_eq_ok.mp isSpace
    exact exclusive.fork live (fits space live)
  | release s =>
    cases stepped
    apply exclusive.weaken
    · intro t other live
      by_cases same : t = s
      · subst same
        rw [space?, setSpace, getElem?_set_self'] at live
        cases isSpace : σ.spaces[t]? <;> simp [isSpace] at live
      · rw [space?_setSpace_ne same] at live
        exact .inr ⟨other, live, rfl, fun _ member => member⟩
    · intro r found here
      exact ⟨found, here, rfl⟩
  | bindObject s mo ref =>
    obtain ⟨space, isSpace, rest⟩ := bind_eq_ok_iff.mp stepped
    obtain ⟨⟨heap, space'⟩, bound, same⟩ := bind_eq_ok_iff.mp rest
    cases same
    have live := space_eq_ok.mp isSpace
    obtain ⟨os, stored, unowned, rfl, rfl⟩ := bindObject_cases bound
    exact exclusive.bind live stored unowned mo
  | unbindObject s mo =>
    obtain ⟨space, isSpace, same⟩ := bind_eq_ok_iff.mp stepped
    cases same
    have live := space_eq_ok.mp isSpace
    apply exclusive.weaken
    · intro t other found
      by_cases same : t = s
      · subst same
        rw [space?_setSpace_self (lt_of_space? live)] at found
        cases found
        exact .inr ⟨space, live, rfl, fun _ => ImmutableMap.mem_of_mem_remove⟩
      · rw [space?_setSpace_ne same] at found
        exact .inr ⟨other, found, rfl, fun _ member => member⟩
    · intro r found here
      exact ⟨found, here, rfl⟩
  | getWriteable s mo =>
    obtain ⟨⟨middle, ref⟩, obtained, same⟩ := bind_eq_ok_iff.mp stepped
    cases same
    exact exclusive.getWriteable obtained
  | write s mo access =>
    obtain ⟨middle, ref, os, os', arrays, obtained, stored, frame, rfl⟩ := write_cases stepped
    exact (exclusive.getWriteable obtained).write stored frame

theorem Exclusive.step_spares (exclusive : σ.Exclusive) {fuel : Nat} {event : Event}
    (stepped : σ.step o context fuel event = .ok σ') (different : event.actor? ≠ some t) : σ.Spares σ' t := by
  cases event with
  | createSpace =>
    cases stepped
    intro other live
    refine ⟨?_, fun _ _ => rfl⟩
    rw [space?_append, if_neg (Nat.ne_of_lt (lt_of_space? live))]
    exact live
  | createObject mo origin =>
    cases stepped
    intro other live
    exact ⟨live, fun entry member =>
      getElem?_append_left (exclusive.held_lt ⟨live, entry.1, member⟩)⟩
  | fork s =>
    have ne : t ≠ s := fun same => different (congrArg some same.symm)
    obtain ⟨space, isSpace, same⟩ := bind_eq_ok_iff.mp stepped
    cases same
    intro other live
    refine ⟨?_, fun _ _ => rfl⟩
    have inside := lt_of_space? live
    rw [space?_append, if_neg (by rw [setSpace, length_set]; omega)]
    exact (space?_setSpace_ne ne _).trans live
  | release s =>
    have ne : t ≠ s := fun same => different (congrArg some same.symm)
    cases stepped
    intro other live
    exact ⟨(space?_setSpace_ne ne _).trans live, fun _ _ => rfl⟩
  | bindObject s mo ref =>
    have ne : t ≠ s := fun same => different (congrArg some same.symm)
    obtain ⟨space, isSpace, rest⟩ := bind_eq_ok_iff.mp stepped
    obtain ⟨⟨heap, space'⟩, bound, same⟩ := bind_eq_ok_iff.mp rest
    cases same
    obtain ⟨os, stored, unowned, rfl, rfl⟩ := bindObject_cases bound
    intro other live
    refine ⟨(space?_setSpace_ne ne _).trans live, ?_⟩
    intro entry member
    apply getElem?_set_ne
    rintro rfl
    exact exclusive.not_holds stored unowned ⟨live, entry.1, member⟩
  | unbindObject s mo =>
    have ne : t ≠ s := fun same => different (congrArg some same.symm)
    obtain ⟨space, isSpace, same⟩ := bind_eq_ok_iff.mp stepped
    cases same
    intro other live
    exact ⟨(space?_setSpace_ne ne _).trans live, fun _ _ => rfl⟩
  | getWriteable s mo =>
    have ne : t ≠ s := fun same => different (congrArg some same.symm)
    obtain ⟨⟨middle, ref⟩, obtained, same⟩ := bind_eq_ok_iff.mp stepped
    cases same
    exact exclusive.getWriteable_spares obtained ne
  | write s mo access =>
    have ne : t ≠ s := fun same => different (congrArg some same.symm)
    obtain ⟨middle, ref, os, os', arrays, obtained, stored, frame, rfl⟩ := write_cases stepped
    apply (exclusive.getWriteable_spares obtained ne).trans
    intro other live
    refine ⟨live, ?_⟩
    intro entry member
    apply getElem?_set_ne
    rintro rfl
    obtain ⟨space, bound, before, space', -, -, -, live', key, found, written⟩ := (getWriteable_obtains obtained).obtained
    exact (exclusive.getWriteable obtained).only (holds_findObject live' found) written rfl ne ⟨live, entry.1, member⟩

/-- What one address space does is not observed through another. -/
structure Isolated (o : Options) (context : Context) (σ : System) : Prop where
  /-- An object that a space holds and owns is in no other map. -/
  owner : ∀ {s t space other ref os}, σ.Holds s space ref → σ.Holds t other ref →
    σ.heap[ref]? = some os → os.copyOnWriteOwner = space.cowKey → t = s
  /-- Whatever happens next, the spaces that it is not about hold what they
  held. -/
  spares : ∀ {fuel event σ' t}, σ.step o context fuel event = .ok σ' →
    event.actor? ≠ some t → σ.Spares σ' t
  writeable : ∀ {s space mo ref os}, σ.space? s = some space → space.findObject mo = some ref →
    σ.heap[ref]? = some os → os.readOnly = false → ∃ σ' ref', σ.getWriteable s mo = .ok (σ', ref')
  /-- What `getWriteable` returns has the contents from before, and belongs to
  the space alone. -/
  obtained : ∀ {s mo σ' ref}, σ.getWriteable s mo = .ok (σ', ref) → σ.Obtained σ' s mo ref ∧
    ∀ {t other}, t ≠ s → ¬ σ'.Holds t other ref

theorem getWriteable_returns (live : σ.space? s = some space) (found : space.findObject mo = some ref) (stored : σ.heap[ref]? = some os)
    (unprotected : os.readOnly = false) : ∃ σ' ref', σ.getWriteable s mo = .ok (σ', ref') := by
  obtain ⟨result, returns, -⟩ := AddressSpace.getWriteable_returns stored unprotected
  refine ⟨{ σ.setSpace s (some result.2.1) with heap := result.1 }, result.2.2, ?_⟩
  refine bind_eq_ok_iff.mpr ⟨space, space_eq_ok.mpr live, ?_⟩
  simp only [found]
  exact bind_eq_ok_iff.mpr ⟨result, returns, rfl⟩

theorem Exclusive.isolated (exclusive : σ.Exclusive) : σ.Isolated o context where
  owner holds shared stored owns := by
    by_contra different
    exact exclusive.only holds stored owns different shared
  spares stepped different := exclusive.step_spares stepped different
  writeable := getWriteable_returns
  obtained returned := by
    refine ⟨getWriteable_obtains returned, ?_⟩
    intro t other different
    obtain ⟨space, bound, before, space', -, -, -, live, key, found, stored⟩ := (getWriteable_obtains returned).obtained
    exact (exclusive.getWriteable returned).only (holds_findObject live found) stored rfl different

end System

theorem Reaches.exclusive {σ : System} (reaches : Reaches o context σ) : σ.Exclusive := by
  induction reaches with
  | initial =>
    have nothing (s : Nat) : System.initial.space? s = none := rfl
    constructor
    · intro s space live
      cases (nothing s).symm.trans live
    · rintro s space ref ⟨live, -⟩
      cases (nothing s).symm.trans live
    · rintro s t space other ref os - ⟨live, -⟩
      cases (nothing s).symm.trans live
  | step event _ fits stepped ih => exact ih.step fits stepped

theorem address_spaces_isolated (o : Options) (context : Context) (σ : System)
    (reaches : Reaches o context σ) : σ.Isolated o context :=
  reaches.exclusive.isolated

section Example

def sampleEvents : List Event :=
  [.createSpace, .createObject sampleObject (.zero none), .bindObject 0 sampleObject 0, .fork 0]

def sampleState : ObjectState :=
  { (Origin.zero none).state sampleObject with copyOnWriteOwner := 1 }

def sampleSystem : System :=
  ⟨[sampleState], [some ⟨2, [(sampleObject, 0)]⟩, some ⟨2, [(sampleObject, 0)]⟩], 0⟩

theorem sampleEvents_run : sampleEvents.foldlM (System.step o context fuel) .initial = .ok sampleSystem := rfl

theorem sampleSystem_reached : Reaches o context sampleSystem := by
  have created : System.initial.step o context 0 .createSpace = .ok ⟨[], [some .empty], 0⟩ := rfl
  have allocated : (⟨[], [some .empty], 0⟩ : System).step o context 0 (.createObject sampleObject (.zero none)) =
      .ok ⟨[(Origin.zero none).state sampleObject], [some .empty], 0⟩ := rfl
  have bound : (⟨[(Origin.zero none).state sampleObject], [some .empty], 0⟩ : System).step o context 0 (.bindObject 0 sampleObject 0) =
      .ok ⟨[sampleState], [some ⟨1, [(sampleObject, 0)]⟩], 0⟩ := rfl
  have forked : (⟨[sampleState], [some ⟨1, [(sampleObject, 0)]⟩], 0⟩ : System).step o context 0 (.fork 0) = .ok sampleSystem := rfl
  have reached : Reaches o context ⟨[sampleState], [some ⟨1, [(sampleObject, 0)]⟩], 0⟩ :=
    .step (.bindObject 0 sampleObject 0) (.step (.createObject sampleObject (.zero none))
      (.step .createSpace .initial trivial created) trivial allocated) trivial bound
  apply Reaches.step (.fork 0) reached _ forked
  intro space live
  cases live
  decide

theorem address_spaces_isolated_sample : sampleSystem.Isolated ⟨false, true⟩ ⟨true, 64⟩ :=
  address_spaces_isolated ⟨false, true⟩ ⟨true, 64⟩ sampleSystem sampleSystem_reached

def cycles (first n : Nat) : List Event :=
  (List.range n).flatMap fun i => [.fork 0, .release (first + i)]

theorem cycles_run {σ : System} {space other : AddressSpace} (live : σ.space? 0 = some space)
    (second : σ.space? 1 = some other) (n : Nat) :
    ∃ σ', (cycles σ.spaces.length n).foldlM (System.step o context fuel) σ = .ok σ' ∧
      σ'.heap = σ.heap ∧ σ'.spaces.length = σ.spaces.length + n ∧
      σ'.space? 0 = some { space with cowKey := space.cowKey + BitVec.ofNat 32 n } ∧
      σ'.space? 1 = some other := by
  induction n with
  | zero => exact ⟨σ, rfl, rfl, rfl, by simpa using live, second⟩
  | succ n ih =>
    obtain ⟨σ', run, heap, length, live', second'⟩ := ih
    have long := System.lt_of_space? second'
    have key : space.cowKey + BitVec.ofNat 32 n + 1 = space.cowKey + BitVec.ofNat 32 (n + 1) := by
      rw [BitVec.ofNat_add, BitVec.add_assoc]
      rfl
    let epoch : AddressSpace := { space with cowKey := space.cowKey + BitVec.ofNat 32 (n + 1) }
    let forked := (σ'.setSpace 0 (some epoch)).spaces
    have forkedLength : forked.length = σ'.spaces.length := length_set
    have forks : σ'.step o context fuel (.fork 0) = .ok ⟨σ'.heap, forked ++ [some epoch], σ'.arrays⟩ := by
      refine bind_eq_ok_iff.mpr ⟨_, System.space_eq_ok.mpr live', ?_⟩
      simp only [AddressSpace.copy, key]
      rfl
    have releases : (⟨σ'.heap, forked ++ [some epoch], σ'.arrays⟩ : System).step o context fuel
        (.release (σ.spaces.length + n)) = .ok ⟨σ'.heap, forked ++ [none], σ'.arrays⟩ := by
      rw [← length, ← forkedLength]
      simp [System.step, System.setSpace, pure, Except.pure]
    refine ⟨⟨σ'.heap, forked ++ [none], σ'.arrays⟩, ?_, heap, ?_, ?_, ?_⟩
    · rw [cycles, range_succ, flatMap_append, foldlM_append]
      refine bind_eq_ok_iff.mpr ⟨σ', run, ?_⟩
      rw [flatMap_singleton, foldlM_cons]
      refine bind_eq_ok_iff.mpr ⟨_, forks, ?_⟩
      exact bind_eq_ok_iff.mpr ⟨_, releases, rfl⟩
    · rw [length_append, forkedLength, length]
      rfl
    · rw [System.space?_append, if_neg (by omega)]
      exact System.space?_setSpace_self (by omega) (some epoch)
    · rw [System.space?_append, if_neg (by omega)]
      exact (System.space?_setSpace_ne Nat.one_ne_zero (some epoch)).trans second'

/-- Keys are not unique: the second space has the key that the first one had
when it copied the object, which the third one holds as well. And they overflow:
after enough forks an object of the first epoch is taken for one's own. -/
theorem keys_reused :
    (∃ σ space os other, Reaches ⟨false, true⟩ ⟨true, 64⟩ σ ∧ σ.space? 1 = some space ∧
      σ.heap[1]? = some os ∧ os.copyOnWriteOwner = space.cowKey ∧ σ.Holds 2 other 1) ∧
    (∃ σ σ' space os os',
      (sampleEvents ++ cycles 2 (2 ^ 32 - 1)).foldlM
        (System.step ⟨false, true⟩ ⟨true, 64⟩ 0) .initial = .ok σ ∧
      σ.step ⟨false, true⟩ ⟨true, 64⟩ 0 (.write 0 sampleObject (.writeNumber 0 8 1)) = .ok σ' ∧
      σ.Holds 1 space 0 ∧ σ.heap[0]? = some os ∧ σ'.heap[0]? = some os' ∧
      os.read8 ⟨false, true⟩ 0 0 0 = .ok (.constant ⟨8, 0⟩, os, 0) ∧
      os'.read8 ⟨false, true⟩ 0 0 0 = .ok (.constant ⟨8, 1⟩, os', 0)) := by
  constructor
  · let written : System := ⟨[sampleState, { sampleState with copyOnWriteOwner := 2 }],
      [some ⟨2, [(sampleObject, 1)]⟩, some ⟨2, [(sampleObject, 0)]⟩], 0⟩
    have copied : sampleSystem.step ⟨false, true⟩ ⟨true, 64⟩ 0 (.getWriteable 0 sampleObject) =
        .ok written := rfl
    let final : System := ⟨written.heap, [some ⟨3, [(sampleObject, 1)]⟩,
      some ⟨2, [(sampleObject, 0)]⟩, some ⟨3, [(sampleObject, 1)]⟩], 0⟩
    have forked : written.step ⟨false, true⟩ ⟨true, 64⟩ 0 (.fork 0) = .ok final := rfl
    refine ⟨final, _, _, _, ?_, rfl, rfl, rfl, rfl, sampleObject, by simp⟩
    apply Reaches.step (.fork 0)
      (.step (.getWriteable 0 sampleObject) sampleSystem_reached trivial copied) _ forked
    intro space live
    cases live
    decide
  · obtain ⟨σ, cycled, heap, -, live, second⟩ := cycles_run (o := ⟨false, true⟩)
      (σ := sampleSystem) rfl rfl (2 ^ 32 - 1)
    have key : (2 : BitVec 32) + BitVec.ofNat 32 (2 ^ 32 - 1) = 1 := by decide
    rw [key] at live
    have own : σ.getWriteable 0 sampleObject = .ok (σ, 0) := by
      refine bind_eq_ok_iff.mpr ⟨_, System.space_eq_ok.mpr live, ?_⟩
      refine bind_eq_ok_iff.mpr ⟨(σ.heap, ⟨1, [(sampleObject, 0)]⟩, 0), ?_, ?_⟩
      · rw [heap]
        rfl
      · dsimp only
        rw [System.setSpace_self live]
        rfl
    let written := sampleState.writeNumber ⟨true, 64⟩ 0 1 1
    refine ⟨σ, { σ with heap := σ.heap.set 0 written }, ⟨2, [(sampleObject, 0)]⟩, sampleState, written,
      ?_, ?_, ⟨second, sampleObject, ?_⟩, ?_, ?_, rfl, rfl⟩
    · rw [foldlM_append]
      exact bind_eq_ok_iff.mpr ⟨sampleSystem, sampleEvents_run, cycled⟩
    · refine bind_eq_ok_iff.mpr ⟨_, own, ?_⟩
      refine bind_eq_ok_iff.mpr ⟨sampleState, deref_eq_ok.mpr (by rw [heap]; rfl), rfl⟩
    · exact mem_singleton.mpr rfl
    · rw [heap]
      rfl
    · rw [heap]
      rfl

end Example

end NeuroMerge.Memory
