import NeuroMerge.Memory.AddressSpace
import NeuroMerge.Memory.Frame

/-!
# External calls

External code runs on native memory. Before the call the concrete stores are
copied there, and afterwards back, past the masks. Reads at constant and at
symbolic offsets still agree if the call leaves alone what the update list holds
already.
-/

namespace NeuroMerge.Memory

open Symbolic ObjectState

variable {guards : Guards} {ρ : Assignment} {o : Options} {context : Context} {id : Nat} {os : ObjectState} {c : Contents}

abbrev NativeMemory := Nat → BitVec 8

namespace ObjectState

/-- `flushToConcreteStore`; `getValue` is what the solver answers for a byte, none
if it times out. -/
def flushToConcreteStore (os : ObjectState) (getValue : Nat → Option (BitVec 8)) : ObjectState :=
  (List.range os.size).foldl (fun os i =>
    if (os.knownSymbolic? i).isSome then
      match getValue i with
      | some value => { os with concreteStore := Function.update os.concreteStore i value }
      | none => os
    else os) os

def copyOutConcrete (os : ObjectState) (memory : NativeMemory) : NativeMemory :=
  if os.object.isUserSpecified ∨ os.readOnly then memory
  else fun address =>
    if os.object.address ≤ address ∧ address < os.object.address + os.object.size then
      os.concreteStore (address - os.object.address)
    else memory address

def writeable (os : ObjectState) (cowKey : BitVec 32) : Except Fault ObjectState := do
  require (os.readOnly = false) .mutatedNotWritable
  if cowKey = os.copyOnWriteOwner then pure os
  else do
    let newObjectState ← os.copy
    pure { newObjectState with copyOnWriteOwner := cowKey }

/-- `copyInConcrete`: whether it succeeds, and the object state that is written. -/
def copyInConcrete (os : ObjectState) (cowKey : BitVec 32) (memory : NativeMemory)
    (sourceAddress : Nat) : Except Fault (Bool × Option ObjectState) :=
  if ∀ i < os.object.size, memory (sourceAddress + i) = os.concreteStore i then pure (true, none)
  else if os.readOnly then pure (false, none)
  else do
    let wos ← os.writeable cowKey
    pure (true, some { wos with concreteStore := fun i =>
      if i < os.object.size then memory (sourceAddress + i) else wos.concreteStore i })

def copyInConcretes (os : ObjectState) (cowKey : BitVec 32) (memory : NativeMemory) :
    Except Fault (Bool × Option ObjectState) :=
  if os.object.isUserSpecified then pure (true, none)
  else os.copyInConcrete cowKey memory os.object.address

end ObjectState

/-- One external call as an object sees it: what the solver answers if an argument
points to the object, native memory before the call, the external code, and the
error number if the object is the one that holds it. -/
structure ExternalCall where
  cowKey : BitVec 32
  getValue : Option (Nat → Option (BitVec 8))
  memory : NativeMemory
  function : NativeMemory → NativeMemory
  error : Option NativeMemory

def ExternalCall.prepare (call : ExternalCall) (os : ObjectState) : ObjectState :=
  match call.getValue with
  | some getValue => os.flushToConcreteStore getValue
  | none => os

def ExternalCall.after (call : ExternalCall) (os : ObjectState) : NativeMemory :=
  call.function ((call.prepare os).copyOutConcrete call.memory)

/-- The error number goes to the object state `os` that was bound before the call,
which is the present one, `copied`, only if the address space owned it. -/
def ObjectState.copyInError (os : ObjectState) (call : ExternalCall) (copied : ObjectState) :
    Except Fault ObjectState :=
  match call.error with
  | some error => do
    let bound := if call.cowKey = os.copyOnWriteOwner then copied else os
    let (_, written) ← bound.copyInConcrete call.cowKey error 0
    pure (written.getD copied)
  | none => pure copied

/-- What `callExternalFunction` does with one object, none if it terminates the
state. -/
def ObjectState.callExternalFunction (os : ObjectState) (call : ExternalCall) :
    Except Fault (Option ObjectState) := do
  let prepared := call.prepare os
  let (success, written) ← prepared.copyInConcretes call.cowKey (call.after os)
  if success then do
    let os ← prepared.copyInError call (written.getD prepared)
    pure (some os)
  else pure none

/-- What happens to an object. -/
inductive ObjectEvent where
  | access (access : Access)
  | callExternalFunction (call : ExternalCall)

def ObjectEvent.perform (o : Options) (context : Context) (fuel : Nat) (os : ObjectState)
    (id : Nat) : ObjectEvent → Except Fault (Option (ObjectState × Nat))
  | .access operation => do
    let (_, os, id) ← operation.perform o context fuel os id
    pure (some (os, id))
  | .callExternalFunction call => do
    let os ← os.callExternalFunction call
    pure (os.map fun os => (os, id))

/-- The external code changes no byte that is held concretely and is in the update
list already. -/
def ExternalCall.Keeps (call : ExternalCall) (os : ObjectState) : Prop :=
  os.readOnly = false → ∀ i < os.object.size,
    os.isByteConcrete i = true → os.isByteFlushed i = true →
      (os.object.isUserSpecified = false →
        call.after os (os.object.address + i) = os.concreteStore i) ∧
      ∀ error, call.error = some error → error i = os.concreteStore i

def ObjectEvent.Keeps (os : ObjectState) : ObjectEvent → Prop
  | .access _ => True
  | .callExternalFunction call => call.Keeps os

/-- Reads, writes and external calls, each of which is allowed in the state it
happens in. -/
inductive Uses (o : Options) (context : Context) (allowed : ObjectState → ObjectEvent → Prop) :
    ObjectState → Nat → List ObjectEvent → ObjectState → Nat → Prop where
  | nil {os : ObjectState} {id : Nat} : Uses o context allowed os id [] os id
  | snoc {os os' os'' : ObjectState} {id id' id'' fuel : Nat} {events : List ObjectEvent}
      {event : ObjectEvent} :
      Uses o context allowed os id events os' id' → allowed os' event →
      event.perform o context fuel os' id' = .ok (some (os'', id'')) →
      Uses o context allowed os id (events ++ [event]) os'' id''

variable {os' : ObjectState}

section Reload

/-- The concrete store is replaced, but if the external code is careful, not where
the update list holds a byte that is held concretely. -/
def Reloaded (careful : Prop) (os os' : ObjectState) : Prop :=
  ∃ cowKey store, os' = { os with copyOnWriteOwner := cowKey, concreteStore := store } ∧
    (careful → ∀ i < os.size, os.isByteConcrete i = true → os.isByteFlushed i = true →
      store i = os.concreteStore i)

variable {careful : Prop}

theorem Reloaded.refl (os : ObjectState) : Reloaded careful os os :=
  ⟨os.copyOnWriteOwner, os.concreteStore, rfl, fun _ _ _ _ _ => rfl⟩

theorem Reloaded.trans {os'' : ObjectState} (first : Reloaded careful os os')
    (second : Reloaded careful os' os'') : Reloaded careful os os'' := by
  obtain ⟨cowKey, store, rfl, kept⟩ := first
  obtain ⟨cowKey', store', rfl, kept'⟩ := second
  refine ⟨cowKey', store', rfl, ?_⟩
  intro isCareful i within concrete flushed
  exact (kept' isCareful i within concrete flushed).trans (kept isCareful i within concrete flushed)

theorem Reloaded.represents (reloaded : Reloaded careful os os') (isCareful : careful)
    (represents : Represents guards ρ os c) : ∃ c', Represents guards ρ os' c' := by
  obtain ⟨cowKey, store, rfl, kept⟩ := reloaded
  refine ⟨fun i => if os.isByteConcrete i then store i else c i, represents.narrow, represents.updates, ?_⟩
  intro i within
  have holds := represents.bytes i within
  by_cases concrete : os.isByteConcrete i = true
  · rw [if_pos concrete]
    constructor
    · intro _
      exact ⟨rfl, (holds.concrete concrete).2⟩
    · intro e known
      cases (holds.concrete concrete).2.symm.trans known
    · intro flushed
      rw [kept isCareful i within concrete flushed]
      exact (holds.flushed flushed).trans (holds.concrete concrete).1.symm
    · exact holds.cached
  · rw [if_neg concrete]
    exact ⟨fun isConcrete => absurd isConcrete concrete, holds.known, holds.flushed, holds.cached⟩

theorem Reloaded.sizes (reloaded : Reloaded careful os os') :
    os'.size = os.size ∧ os'.object = os.object ∧ os'.readOnly = os.readOnly := by
  obtain ⟨cowKey, store, rfl, -⟩ := reloaded
  exact ⟨rfl, rfl, rfl⟩

theorem Reloaded.kept (reloaded : Reloaded careful os os') (isCareful : careful) {bytes : Contents}
    (kept : ∀ i < os.size, os.isByteConcrete i = true → os.isByteFlushed i = true →
      bytes i = os.concreteStore i) :
    ∀ i < os'.size, os'.isByteConcrete i = true → os'.isByteFlushed i = true → bytes i = os'.concreteStore i := by
  obtain ⟨cowKey, store, rfl, same⟩ := reloaded
  intro i within concrete flushed
  exact (kept i within concrete flushed).trans (same isCareful i within concrete flushed).symm

theorem writeable_cases {cowKey : BitVec 32} (returned : os.writeable cowKey = .ok os') :
    os' = { os with copyOnWriteOwner := cowKey } ∧ os.readOnly = false := by
  by_cases unprotected : os.readOnly = false
  · rw [ObjectState.writeable, require, if_pos unprotected] at returned
    by_cases owns : cowKey = os.copyOnWriteOwner
    · subst owns
      simp only [pure_bind, if_true] at returned
      cases returned
      exact ⟨rfl, unprotected⟩
    · simp only [pure_bind, if_neg owns, copy, require, if_pos unprotected] at returned
      cases returned
      exact ⟨rfl, unprotected⟩
  · rw [ObjectState.writeable, require, if_neg unprotected] at returned
    cases returned

theorem copyInConcrete_reloads {cowKey : BitVec 32} {memory : NativeMemory} {sourceAddress : Nat}
    {success : Bool} {written : Option ObjectState} (sizes : os.object.size = os.size)
    (kept : careful → os.readOnly = false → ∀ i < os.size, os.isByteConcrete i = true →
      os.isByteFlushed i = true → memory (sourceAddress + i) = os.concreteStore i)
    (returned : os.copyInConcrete cowKey memory sourceAddress = .ok (success, written)) : ∀ os' ∈ written, Reloaded careful os os' := by
  rw [ObjectState.copyInConcrete] at returned
  split at returned
  · cases returned
    exact nofun
  · split at returned
    · cases returned
      exact nofun
    · obtain ⟨wos, isWriteable, same⟩ := bind_eq_ok_iff.mp returned
      obtain ⟨rfl, unprotected⟩ := writeable_cases isWriteable
      cases same
      intro os' member
      cases member
      refine ⟨cowKey, _, rfl, ?_⟩
      intro isCareful i within concrete flushed
      rw [if_pos (by rwa [sizes])]
      exact kept isCareful unprotected i within concrete flushed

theorem flushToConcreteStore_cases (os : ObjectState) (getValue : Nat → Option (BitVec 8)) :
    ∃ store, os.flushToConcreteStore getValue = { os with concreteStore := store } ∧
      ∀ i < os.size, store i = ((os.knownSymbolic? i).bind fun _ => getValue i).getD (os.concreteStore i) := by
  have loop : ∀ k, ∃ store, (List.range k).foldl (fun os i =>
      if (os.knownSymbolic? i).isSome then
        match getValue i with
        | some value => { os with concreteStore := Function.update os.concreteStore i value }
        | none => os
      else os) os = { os with concreteStore := store } ∧ ∀ i, store i =
        if i < k then ((os.knownSymbolic? i).bind fun _ => getValue i).getD (os.concreteStore i)
        else os.concreteStore i := by
    intro k
    induction k with
    | zero => exact ⟨os.concreteStore, rfl, fun i => (if_neg (Nat.not_lt_zero i)).symm⟩
    | succ k ih =>
      obtain ⟨store, same, stored⟩ := ih
      refine ⟨Function.update store k (((os.knownSymbolic? k).bind fun _ => getValue k).getD (os.concreteStore k)), ?_, ?_⟩
      · have here : store k = os.concreteStore k := by simp [stored k]
        rw [List.range_succ, List.foldl_append, List.foldl_cons, List.foldl_nil, same]
        change (if (os.knownSymbolic? k).isSome then _ else _) = _
        cases os.knownSymbolic? k with
        | none => simp [← here]
        | some e => cases getValue k <;> simp [← here]
      · intro i
        by_cases last : i = k
        · subst last
          simp
        · simp only [Function.update_of_ne last, stored i, show (i < k + 1) = (i < k) by
            simp only [eq_iff_iff]; omega]
  obtain ⟨store, same, stored⟩ := loop os.size
  exact ⟨store, same, fun i within => (stored i).trans (if_pos within)⟩

theorem prepare_reloads
    (exclusive : ∀ i < os.size, os.isByteConcrete i = true → os.knownSymbolic? i = none)
    (call : ExternalCall) : Reloaded careful os (call.prepare os) := by
  rw [ExternalCall.prepare]
  cases call.getValue with
  | none => exact Reloaded.refl os
  | some getValue =>
    obtain ⟨store, same, stored⟩ := flushToConcreteStore_cases os getValue
    refine ⟨os.copyOnWriteOwner, store, same, ?_⟩
    intro _ i within concrete _
    rw [stored i within, exclusive i within concrete]
    rfl

theorem callExternalFunction_reloads
    (exclusive : ∀ i < os.size, os.isByteConcrete i = true → os.knownSymbolic? i = none)
    (sizes : os.object.size = os.size) {call : ExternalCall} (returned : os.callExternalFunction call = .ok (some os')) :
    Reloaded (call.Keeps os) os os' := by
  have prepared : Reloaded (call.Keeps os) os (call.prepare os) := prepare_reloads exclusive call
  obtain ⟨size, object, readOnly⟩ := prepared.sizes
  obtain ⟨⟨success, written⟩, first, rest⟩ := bind_eq_ok_iff.mp returned
  have copied : Reloaded (call.Keeps os) os (written.getD (call.prepare os)) := by
    cases written with
    | none => exact prepared
    | some copied =>
      rw [ObjectState.copyInConcretes, object] at first
      split at first
      · cases first
      · rename_i managed
        rw [Bool.not_eq_true] at managed
        apply prepared.trans
        apply copyInConcrete_reloads (by rw [object, size, sizes]) _ first copied rfl
        intro keeps unprotected
        rw [readOnly] at unprotected
        apply prepared.kept keeps
        intro i within concrete flushed
        exact (keeps unprotected i (by rwa [sizes]) concrete flushed).1 managed
  cases success with
  | false => cases rest
  | true =>
    obtain ⟨final, copiedIn, same⟩ := bind_eq_ok_iff.mp rest
    cases same
    rw [copyInError] at copiedIn
    cases isError : call.error with
    | none =>
      rw [isError] at copiedIn
      cases copiedIn
      exact copied
    | some error =>
      simp only [isError] at copiedIn
      obtain ⟨⟨_, writtenError⟩, second, same⟩ := bind_eq_ok_iff.mp copiedIn
      cases same
      cases writtenError with
      | none => exact copied
      | some final =>
        have bound : Reloaded (call.Keeps os) os (if call.cowKey = (call.prepare os).copyOnWriteOwner then
            written.getD (call.prepare os) else call.prepare os) := by
          split
          · exact copied
          · exact prepared
        obtain ⟨size', object', readOnly'⟩ := bound.sizes
        apply bound.trans
        apply copyInConcrete_reloads (by rw [object', size', sizes]) _ second final rfl
        intro keeps unprotected
        rw [readOnly'] at unprotected
        apply bound.kept keeps
        intro i within concrete flushed
        rw [Nat.zero_add]
        exact (keeps unprotected i (by rwa [sizes]) concrete flushed).2 error isError

end Reload

variable {mo : MemoryObject} {events : List ObjectEvent}

section Agreement

/-- Every access in the run is sound for an object of `size` bytes. -/
def SoundAccesses (guards : Guards) (ρ : Assignment) (size : Nat) (events : List ObjectEvent) :
    Prop :=
  ∀ operation, .access operation ∈ events → operation.Sound guards ρ size

/-- What is known of an object between two events. -/
structure Coherent (guards : Guards) (ρ : Assignment) (mo : MemoryObject) (os : ObjectState) :
    Prop where
  represents : ∃ c, Represents guards ρ os c
  size : os.size = mo.size
  object : os.object = mo

theorem Coherent.perform (admits : Admits o guards ρ) (coherent : Coherent guards ρ mo os)
    {event : ObjectEvent} (keeps : event.Keeps os) (sound : SoundAccesses guards ρ mo.size [event])
    {fuel id' : Nat} (performed : event.perform o context fuel os id = .ok (some (os', id'))) : Coherent guards ρ mo os' := by
  obtain ⟨⟨c, represents⟩, size, object⟩ := coherent
  cases event with
  | access operation =>
    obtain ⟨⟨res, os', id'⟩, accessed, same⟩ := bind_eq_ok_iff.mp performed
    cases same
    have within := sound operation (by simp)
    rw [← size] at within
    obtain ⟨-, represents', frame⟩ := (operation.perform_represents admits represents within fuel).elim accessed
    exact ⟨⟨_, represents'⟩, frame.size.trans size, frame.object.trans object⟩
  | callExternalFunction call =>
    obtain ⟨result, called, same⟩ := bind_eq_ok_iff.mp performed
    cases result with
    | none => cases same
    | some os' =>
      cases same
      have reloaded := callExternalFunction_reloads (fun i within concrete => ((represents.bytes i within).concrete concrete).2)
        (by rw [object, size]) called
      obtain ⟨size', object', -⟩ := reloaded.sizes
      exact ⟨reloaded.represents keeps represents, size'.trans size, object'.trans object⟩

theorem Uses.coherent (admits : Admits o guards ρ) {os₀ : ObjectState} {id₀ : Nat}
    (uses : Uses o context ObjectEvent.Keeps os₀ id₀ events os id)
    (start : Coherent guards ρ mo os₀) (sound : SoundAccesses guards ρ mo.size events) : Coherent guards ρ mo os := by
  induction uses with
  | nil => exact start
  | snoc _ keeps performed ih =>
    have before := ih fun operation member => sound operation (by simp [member])
    apply before.perform admits keeps _ performed
    intro operation member
    exact sound operation (by simpa using .inr (List.mem_singleton.mp member))

theorem Origin.coherent {origin : Origin} (valid : origin.Valid mo) : Coherent guards ρ mo (origin.state mo) := by
  refine ⟨⟨_, Origin.represents valid⟩, origin.state_size mo, ?_⟩
  cases origin with
  | uninitialized array => rfl
  | zero array => rfl
  | random array => rfl
  | symbolic array => exact (create mo (some array)).makeSymbolic_frame.object

/-- Reading a byte at the offset, and reading it at the number that the offset
is, give the same. -/
def ReadsAgree (o : Options) (context : Context) (os : ObjectState) (id : Nat) (offset : Expr)
    (agree : Assignment → Prop) : Prop :=
  ∃ value os₁ id₁,
    Returns (fun fuel => os.readExpr o context fuel id offset 8) (some value, os₁, id₁) ∧
    ∀ ρ, agree ρ → ∃ byte os₂ id₂,
      Returns (fun fuel => os.read8 o fuel id (offset.eval ρ offset.width).toNat) (byte, os₂, id₂) ∧
      value.width = 8 ∧ byte.width = 8 ∧ value.eval ρ 8 = byte.eval ρ 8

def InBounds (guards : Guards) (ρ : Assignment) (size : Nat) (events : List ObjectEvent)
    (offset : Expr) : Prop :=
  SoundAccesses guards ρ size (events ++ [.access (.readExpr offset 8)])

theorem InBounds.read {size : Nat} {offset : Expr} (inBounds : InBounds guards ρ size events offset) :
    (Access.readExpr offset 8).Sound guards ρ size :=
  inBounds _ (by simp)

theorem InBounds.accesses {size : Nat} {offset : Expr}
    (inBounds : InBounds guards ρ size events offset) : SoundAccesses guards ρ size events :=
  fun operation member => inBounds operation (by simp [member])

theorem loads_byte {context : Context} {c : Contents} {offset : Nat} {v : BitVec 8}
    (loads : Loads context c offset v) : v = c offset := by
  have byte := loads 0 (by decide)
  rw [byteIndex] at byte
  simpa using byte

theorem read8_returns (id : Nat) {ρ₀ : Assignment} (coherent : Coherent (.safe o ρ₀) ρ₀ mo os)
    {offset : Nat} (within : offset < mo.size) : ∃ result, Returns (fun fuel => os.read8 o fuel id offset) result := by
  obtain ⟨⟨c, represents⟩, size, -⟩ := coherent
  obtain ⟨result, -, returns⟩ := (os.read8_ends id offset).returns fun fuel =>
    only_outOfFuel (read8_represents Admits.safe represents (by rwa [size]))
  exact ⟨result, returns⟩

theorem reads_agree (o : Options) (context : Context) (mo : MemoryObject) (origin : Origin)
    (id₀ : Nat) (events : List ObjectEvent) (os : ObjectState) (id : Nat) (offset : Expr)
    (valid : origin.Valid mo)
    (uses : Uses o context ObjectEvent.Keeps (origin.state mo) id₀ events os id)
    (feasible : ∃ ρ, InBounds (.safe o ρ) ρ mo.size events offset) :
    ReadsAgree o context os id offset fun ρ => InBounds (.bounded o ρ) ρ mo.size events offset := by
  obtain ⟨ρ₀, inBounds⟩ := feasible
  have coherent := uses.coherent Admits.safe (Origin.coherent valid) inBounds.accesses
  have reads (fuel) : Satisfies (· = Fault.outOfFuel) (fun result => ∃ value, result.1 = some value)
      ((Access.readExpr offset 8).perform o context fuel os id) := by
    obtain ⟨⟨c, represents⟩, size, -⟩ := coherent
    have within := inBounds.read
    rw [← size] at within
    apply Satisfies.mono (only_outOfFuel (Access.perform_represents Admits.safe represents within fuel))
    intro result facts
    obtain ⟨value, isValue, -⟩ := facts.1
    exact ⟨value, isValue⟩
  obtain ⟨⟨res, os₁, id₁⟩, ⟨value, rfl⟩, returns⟩ :=
    ((Access.readExpr offset 8).perform_ends os id).returns reads
  refine ⟨value, os₁, id₁, returns, ?_⟩
  intro ρ within
  obtain ⟨⟨c, represents⟩, size, -⟩ :=
    uses.coherent Admits.bounded (Origin.coherent valid) within.accesses
  have sound := within.read
  have inside : (offset.eval ρ offset.width).toNat < mo.size := by
    have covered := sound.2.2.2
    rw [numBytes, if_neg (by decide)] at covered
    omega
  rw [← size] at sound
  obtain ⟨⟨byte, os₂, id₂⟩, returnsByte⟩ := read8_returns id coherent inside
  obtain ⟨found, isFound, width, loads⟩ := (returns.satisfies fun fuel =>
    Access.perform_represents Admits.bounded represents sound fuel).1
  cases isFound
  have denotes := (returnsByte.satisfies fun fuel =>
    read8_represents Admits.bounded represents (by rwa [size])).1
  refine ⟨byte, os₂, id₂, returnsByte, width, denotes.width, ?_⟩
  rw [loads_byte loads, denotes.value]

section Example

def sampleCall : ExternalCall where
  cowKey := 0
  getValue := none
  memory := fun _ => 0
  function := fun memory => Function.update memory 4096 5
  error := none

def sampleOrigin : ObjectState := (Origin.zero none).state sampleObject

def sampleZeros : Symbolic.Array :=
  ⟨1, "const_arr" ++ toString 1, 4, 32, 8, [0, 0, 0, 0], .inr rfl⟩

def sampleFlushed : ObjectState :=
  { sampleOrigin with
    flushMask := some (Function.update (Function.update (Function.update
      (Function.update (fun _ => true) 0 false) 1 false) 2 false) 3 false)
    updates := ⟨some sampleZeros, .null⟩ }

def sampleRead : Access := .readExpr sampleIndex 8

def sampleWrite : Access := .write 0 (.constant (.alloc 7 8))

theorem sampleRead_performs : (ObjectEvent.access sampleRead).perform ⟨false, true⟩ ⟨true, 64⟩ 10
    sampleOrigin 0 = .ok (some (sampleFlushed, 1)) := rfl

theorem sampleAccesses_sound (events : List ObjectEvent)
    (calls : ∀ operation, .access operation ∈ events → operation = sampleRead ∨ operation = sampleWrite) :
    InBounds (.safe ⟨false, true⟩ fun r _ => 0#r.range) (fun r _ => 0#r.range) 4 events
      sampleIndex := by
  intro operation member
  have either : operation = sampleRead ∨ operation = sampleWrite := by
    obtain old | new := List.mem_append.mp member
    · exact calls operation old
    · exact .inl (ObjectEvent.access.inj (List.mem_singleton.mp new))
  rcases either with rfl | rfl
  · refine ⟨.inr (by decide), trivial, ?_, by decide⟩
    simp [sampleIndex, Symbolic.Array.isConstantArray, Symbolic.Array.isSymbolicArray, ConstantExpr.alloc]
  · exact ⟨.inr (by decide), trivial, by decide⟩

def sampleRewritten : ObjectState := sampleFlushed.write8Concrete 0 7

def sampleCalled : ObjectState :=
  { sampleRewritten with concreteStore := fun i =>
      if i < 4 then sampleCall.after sampleRewritten (4096 + i) else sampleRewritten.concreteStore i }

def sampleRewrites : List ObjectEvent :=
  [.access sampleRead, .access sampleWrite, .callExternalFunction sampleCall]

/-- The external code changes a byte that has been flushed and rewritten since. -/
theorem sampleCalled_uses :
    Uses ⟨false, true⟩ ⟨true, 64⟩ ObjectEvent.Keeps sampleOrigin 0 sampleRewrites sampleCalled 1 := by
  have rewritten : (ObjectEvent.access sampleWrite).perform ⟨false, true⟩ ⟨true, 64⟩ 10
      sampleFlushed 1 = .ok (some (sampleRewritten, 1)) := rfl
  have called : (ObjectEvent.callExternalFunction sampleCall).perform ⟨false, true⟩ ⟨true, 64⟩ 10
      sampleRewritten 1 = .ok (some (sampleCalled, 1)) := rfl
  refine .snoc (.snoc (.snoc .nil trivial sampleRead_performs) trivial rewritten) ?_ called
  intro _ i within concrete flushed
  have bound : i < 4 := within
  obtain rfl | rfl | rfl | rfl : i = 0 ∨ i = 1 ∨ i = 2 ∨ i = 3 := by omega
  · cases flushed
  · exact ⟨fun _ => rfl, nofun⟩
  · exact ⟨fun _ => rfl, nofun⟩
  · exact ⟨fun _ => rfl, nofun⟩

theorem reads_agree_sample :
    ReadsAgree ⟨false, true⟩ ⟨true, 64⟩ sampleCalled 1 sampleIndex fun ρ =>
      InBounds (.bounded ⟨false, true⟩ ρ) ρ sampleObject.size sampleRewrites sampleIndex := by
  apply reads_agree ⟨false, true⟩ ⟨true, 64⟩ sampleObject (.zero none) 0 _ sampleCalled 1 sampleIndex
    ⟨by decide, nofun⟩ sampleCalled_uses
  exact ⟨_, sampleAccesses_sound _ (by simp [sampleRewrites])⟩

def sampleStale : ObjectState :=
  { sampleFlushed with concreteStore := fun i =>
      if i < 4 then sampleCall.after sampleFlushed (4096 + i) else 0 }

def sampleStaleEvents : List ObjectEvent :=
  [.access sampleRead, .callExternalFunction sampleCall]

/-- The byte has been flushed when the external code changes it, so a read at an
unknown offset finds the old one. -/
theorem stale_read :
    Uses ⟨false, true⟩ ⟨true, 64⟩ (fun _ _ => True) sampleOrigin 0 sampleStaleEvents sampleStale 1 ∧
    ∃ value byte os₁ os₂,
      Returns (fun fuel => sampleStale.readExpr ⟨false, true⟩ ⟨true, 64⟩ fuel 1 sampleIndex 8)
        (some value, os₁, 1) ∧
      Returns (fun fuel => sampleStale.read8 ⟨false, true⟩ fuel 1 0) (byte, os₂, 1) ∧
      ∃ ρ : Assignment, InBounds (.safe ⟨false, true⟩ ρ) ρ 4 sampleStaleEvents sampleIndex ∧
        sampleIndex.eval ρ 32 = 0 ∧ value.eval ρ 8 = 0 ∧ byte.eval ρ 8 = 5 := by
  constructor
  · have called : (ObjectEvent.callExternalFunction sampleCall).perform ⟨false, true⟩ ⟨true, 64⟩ 10
        sampleFlushed 1 = .ok (some (sampleStale, 1)) := rfl
    exact .snoc (.snoc .nil trivial sampleRead_performs) trivial called
  · refine ⟨.read sampleZeros .null sampleIndex, .constant ⟨8, sampleStale.concreteStore 0⟩,
      sampleStale, sampleStale, ⟨10, ?_⟩, ⟨0, fun _ _ => rfl⟩, fun r _ => 0#r.range,
      sampleAccesses_sound _ ?_, by decide, by decide, by decide⟩
    · intro fuel enough
      obtain ⟨k, rfl⟩ := Nat.exists_eq_add_of_le' enough
      rfl
    · intro operation member
      exact .inl (by simpa [sampleStaleEvents] using member)

end Example

end Agreement

section Flush

variable {id₀ : Nat} {origin : Origin}

theorem Uses.exclusive {os₀ : ObjectState} (uses : Uses o context (fun _ _ => True) os₀ id₀ events os id)
    (start : os₀.Exclusive ∧ os₀.size = os₀.object.size) : os.Exclusive ∧ os.size = os.object.size ∧ os.object = os₀.object := by
  induction uses with
  | nil => exact ⟨start.1, start.2, rfl⟩
  | snoc _ _ performed ih =>
    rename_i state _ _ counter _ _ _ event _ _
    obtain ⟨exclusive, size, object⟩ := ih
    cases event with
    | access operation =>
      obtain ⟨⟨res, os'', id''⟩, accessed, same⟩ := bind_eq_ok_iff.mp performed
      cases same
      have frame : SameFrame state _ := (operation.perform_frame state counter).elim accessed
      refine ⟨(stable_exclusive.perform_keeps operation state counter).elim accessed exclusive, ?_, frame.object.trans object⟩
      rw [frame.size, frame.object, size]
    | callExternalFunction call =>
      obtain ⟨result, called, same⟩ := bind_eq_ok_iff.mp performed
      cases result with
      | none => cases same
      | some os'' =>
        cases same
        obtain ⟨cowKey, store, rfl, -⟩ := callExternalFunction_reloads (fun i _ => exclusive i) size.symm called
        exact ⟨exclusive, size, object⟩

theorem Origin.exclusive (origin : Origin) (mo : MemoryObject) : (origin.state mo).Exclusive := by
  cases origin with
  | symbolic array =>
    rw [Origin.state, createSymbolic, makeSymbolic]
    generalize List.range _ = positions
    generalize start : create mo (some array) = os
    have exclusive : os.Exclusive := start ▸ fun _ _ => rfl
    clear start
    induction positions generalizing os with
    | nil => exact exclusive
    | cons i rest ih =>
      exact ih _ (stable_exclusive.markByteFlushed _ i (stable_exclusive.setKnownSymbolic _ i
        (stable_exclusive.markByteSymbolic os i exclusive)))
  | uninitialized | zero | random => exact fun _ _ => rfl

def FeasibleByte (o : Options) (os : ObjectState) (id : Nat) (satisfies : Assignment → Prop)
    (i : Nat) (value : BitVec 8) : Prop :=
  ∃ byte os' id', Returns (fun fuel => os.read8 o fuel id i) (byte, os', id') ∧
    ∃ ρ, satisfies ρ ∧ byte.eval ρ 8 = value

/-- What the solver answers for the bytes are their values under one assignment that
satisfies the constraints. -/
def Answers (o : Options) (os : ObjectState) (id : Nat) (satisfies : Assignment → Prop)
    (getValue : Nat → Option (BitVec 8)) : Prop :=
  ∃ ρ, satisfies ρ ∧ ∀ i < os.size, ∀ byte os' id',
    Returns (fun fuel => os.read8 o fuel id i) (byte, os', id') → getValue i = some (byte.eval ρ 8)

/-- A byte that is neither concrete nor a known expression keeps what the concrete store
has had of it, and the others are right. -/
theorem flushToConcreteStore_feasible_iff (o : Options) (context : Context) (mo : MemoryObject)
    (origin : Origin) (id₀ : Nat) (events : List ObjectEvent) (os : ObjectState) (id : Nat)
    (satisfies : Assignment → Prop) (getValue : Nat → Option (BitVec 8))
    (uses : Uses o context (fun _ _ => True) (origin.state mo) id₀ events os id)
    (answers : Answers o os id satisfies getValue) :
    (∀ i < mo.size, FeasibleByte o os id satisfies i
      ((os.flushToConcreteStore getValue).concreteStore i)) ↔
      ∀ i < mo.size, os.isByteConcrete i = false → os.knownSymbolic? i = none →
        FeasibleByte o os id satisfies i (os.concreteStore i) := by
  have object : (origin.state mo).object = mo := by
    cases origin with
    | symbolic array => exact (create mo (some array)).makeSymbolic_frame.object
    | uninitialized | zero | random => rfl
  obtain ⟨exclusive, size, sameObject⟩ := uses.exclusive
    ⟨origin.exclusive mo, (origin.state_size mo).trans (congrArg MemoryObject.size object.symm)⟩
  rw [sameObject, object] at size
  obtain ⟨store, same, stored⟩ := flushToConcreteStore_cases os getValue
  obtain ⟨ρ, satisfied, answered⟩ := answers
  rw [same, ← size]
  constructor
  · intro feasible i within _ unknown
    have byte : FeasibleByte o os id satisfies i (store i) := feasible i within
    rw [stored i within, unknown] at byte
    exact byte
  · intro stale i within
    change FeasibleByte o os id satisfies i (store i)
    rw [stored i within]
    have read (fuel) : os.read8 o fuel id i = _ := read8.eq_1 ..
    cases concrete : os.isByteConcrete i with
    | true =>
      rw [exclusive i concrete]
      simp only [concrete, if_true] at read
      exact ⟨_, os, id, ⟨0, fun fuel _ => read fuel⟩, ρ, satisfied, BitVec.setWidth_eq _⟩
    | false =>
      cases known : os.knownSymbolic? i with
      | none => exact stale i within concrete known
      | some byte =>
        simp only [concrete, known, Bool.false_eq_true, if_false] at read
        have returns : Returns (fun fuel => os.read8 o fuel id i) (byte, os, id) :=
          ⟨0, fun fuel _ => read fuel⟩
        refine ⟨byte, os, id, returns, ρ, satisfied, ?_⟩
        rw [Option.bind_some, answered i within byte os id returns, Option.getD_some]

def sampleInput : Symbolic.Array := .symbolic 0 "input" 1

def inputRead : Expr := .read sampleInput .null (.constant (.alloc 0 32))

def sampleSymbolic : ObjectState := (Origin.symbolic sampleInput).state ⟨0, 4096, 1, false⟩

def sampleSatisfies (ρ : Assignment) : Prop := inputRead.eval ρ 8 = 5

theorem sampleSymbolic_read8 {byte : Expr} {os : ObjectState} {id : Nat} (returns :
    Returns (fun fuel => sampleSymbolic.read8 ⟨false, true⟩ fuel 0 0) (byte, os, id)) : byte = inputRead := by
  obtain ⟨bound, returned⟩ := returns
  have read := returned (bound + 1) (by omega)
  cases read
  rfl

theorem symbolic_byte_stale :
    Uses ⟨false, true⟩ ⟨true, 64⟩ (fun _ _ => True) sampleSymbolic 0 [] sampleSymbolic 0 ∧
    Answers ⟨false, true⟩ sampleSymbolic 0 sampleSatisfies (fun _ => some 5) ∧
    ¬ FeasibleByte ⟨false, true⟩ sampleSymbolic 0 sampleSatisfies 0
      ((sampleSymbolic.flushToConcreteStore fun _ => some 5).concreteStore 0) := by
  refine ⟨.nil, ⟨fun _ _ => 5, rfl, ?_⟩, ?_⟩
  · intro i within byte os id returns
    obtain rfl : i = 0 := Nat.lt_one_iff.mp within
    rw [sampleSymbolic_read8 returns]
    rfl
  · rintro ⟨byte, os, id, returns, ρ, satisfied, same⟩
    rw [sampleSymbolic_read8 returns, satisfied] at same
    exact absurd same (by decide)

def sampleKnown : ObjectState :=
  ((sampleOrigin.setKnownSymbolic 0 (some inputRead)).markByteSymbolic 0).markByteUnflushed 0

def sampleAnswer (i : Nat) : Option (BitVec 8) := some (if i = 0 then 5 else 0)

/-- The byte written is asked for, and the others are held concretely. -/
theorem flushToConcreteStore_feasible_iff_sample :
    sampleKnown.knownSymbolic? 0 = some inputRead ∧
    ∀ i < 4, FeasibleByte ⟨false, true⟩ sampleKnown 0 sampleSatisfies i
      ((sampleKnown.flushToConcreteStore sampleAnswer).concreteStore i) := by
  have written : (ObjectEvent.access (.write 0 inputRead)).perform ⟨false, true⟩ ⟨true, 64⟩ 10
      sampleOrigin 0 = .ok (some (sampleKnown, 0)) := rfl
  refine ⟨rfl, (flushToConcreteStore_feasible_iff ⟨false, true⟩ ⟨true, 64⟩ sampleObject (.zero none) 0 _
    sampleKnown 0 sampleSatisfies sampleAnswer (.snoc .nil trivial written) ?_).mpr ?_⟩
  · refine ⟨fun _ _ => 5, rfl, ?_⟩
    intro i within byte os id returns
    have bound : i < 4 := within
    obtain ⟨fuel, returned⟩ := returns
    have read := returned fuel (Nat.le_refl _)
    obtain rfl | rfl | rfl | rfl : i = 0 ∨ i = 1 ∨ i = 2 ∨ i = 3 := by omega
    · cases read
      rfl
    · cases read
      rfl
    · cases read
      rfl
    · cases read
      rfl
  · intro i within symbolic unknown
    have bound : i < 4 := within
    obtain rfl | rfl | rfl | rfl : i = 0 ∨ i = 1 ∨ i = 2 ∨ i = 3 := by omega
    · cases unknown
    · cases symbolic
    · cases symbolic
    · cases symbolic

end Flush

end NeuroMerge.Memory
