import NeuroMerge.Memory.WideAccess

/-!
# Symbolic memory obeys the array law

Any sequence of reads and writes of a new object: every read finds the bytes
that were written last at its offset, or the initial ones.
-/

namespace NeuroMerge.Memory

open Symbolic

variable {guards : Guards} {ρ : Assignment} {o : Options} {context : Context} {id : Nat}
  {os : ObjectState} {c : Contents} {offset width : Nat}

section Termination

/-- A computation without fuel that raises assertions only. -/
def Asserts {α : Type} (computation : Except Fault α) : Prop :=
  Satisfies (fun fault => ∃ failed, fault = .assertion failed) (fun _ => True) computation

theorem Asserts.ends {α : Type} {computation : Except Fault α} (asserts : Asserts computation) : Ends fun _ => computation := by
  refine ⟨0, computation, fun exhausted => ?_, fun _ _ => rfl⟩
  obtain ⟨failed, same⟩ := asserts.fault exhausted
  cases same

theorem Asserts.require {α : Type} {condition : Prop} [Decidable condition] {failed : Assertion}
    {next : Except Fault α} (asserts : Asserts next) : Asserts (Symbolic.require condition failed >>= fun _ => next) :=
  require_satisfies (fun _ => asserts) fun _ => ⟨failed, rfl⟩

theorem UpdateList.extend_asserts (updates : UpdateList) (index value : Expr) : Asserts (updates.extend index value) := by
  rw [extend]
  cases updates.root with
  | none => trivial
  | some root =>
    apply Asserts.require
    apply Asserts.require
    trivial

namespace ObjectState

theorem flushByte_asserts (os : ObjectState) (offset : Nat) : Asserts (os.flushByte offset) := by
  rw [flushByte]
  split
  · exact (os.updates.extend_asserts _ _).bind fun _ _ => trivial
  · split
    · exact (os.updates.extend_asserts _ _).bind fun _ _ => trivial
    · exact ⟨_, rfl⟩

theorem flushRangeForRead_asserts (os : ObjectState) (base size : Nat) : Asserts (os.flushRangeForRead base size) := by
  apply Satisfies.foldlM_const trivial
  intro offset _ state _
  split
  · trivial
  · exact (state.flushByte_asserts offset).bind fun _ _ => trivial

theorem flushRangeForWrite_asserts (os : ObjectState) (base size : Nat) : Asserts (os.flushRangeForWrite base size) := by
  apply Satisfies.foldlM_const trivial
  intro offset _ state _
  split
  · split
    · trivial
    · split <;> trivial
  · exact (state.flushByte_asserts offset).bind fun _ _ => trivial

theorem getUpdates_asserts (os : ObjectState) (id : Nat) : Asserts (os.getUpdates id) := by
  rw [getUpdates]
  cases os.updates.root with
  | some root => trivial
  | none =>
    have created : Asserts (createConstArray (id + 1) (pullConcreteWrites
        (List.replicate os.size (.alloc 0 8)) (UpdateNode.writes os.updates.head)).1) :=
      Asserts.require trivial
    apply created.bind
    intro array _
    have extended (writes : List (Expr × Expr)) : Asserts (writes.foldlM
        (fun updates write => UpdateList.extend updates write.1 write.2) ⟨some array, .null⟩) := by
      apply Satisfies.foldlM_const trivial
      intro write _ updates _
      exact updates.extend_asserts write.1 write.2
    apply Satisfies.bind (extended _)
    intro updates _
    trivial

theorem read8_ends (os : ObjectState) (id offset : Nat) : Ends fun fuel => os.read8 o fuel id offset := by
  simp only [read8]
  split
  · exact .pure _
  · split
    · exact .pure _
    · apply Ends.require
      apply (os.getUpdates_asserts id).ends.bind
      intro result _
      obtain ⟨updates, os', id'⟩ := result
      cases updates.root with
      | none => exact .error _ (by simp)
      | some root =>
        apply (ReadExpr.create_ends root updates.head _).bind
        intro value _
        exact .pure _

theorem read8Symbolic_ends (os : ObjectState) (id : Nat) (offset : Expr) : Ends fun fuel => os.read8Symbolic o fuel id offset := by
  apply Ends.require
  apply (os.flushRangeForRead_asserts _ _).ends.bind
  intro flushed _
  apply (flushed.getUpdates_asserts id).ends.bind
  intro result _
  obtain ⟨updates, os', id'⟩ := result
  apply (ZExtExpr.create_ends offset 32).bind
  intro index _
  cases updates.root with
  | none => exact .error _ nofun
  | some root =>
    apply (ReadExpr.create_ends root updates.head index).bind
    intro value _
    exact .pure _

theorem write8Symbolic_ends (os : ObjectState) (offset value : Expr) : Ends fun fuel => os.write8Symbolic fuel offset value := by
  apply Ends.require
  apply (os.flushRangeForWrite_asserts _ _).ends.bind
  intro flushed _
  apply (ZExtExpr.create_ends offset 32).bind
  intro index _
  apply (flushed.updates.extend_asserts index value).ends.bind
  intro updates _
  exact .pure _

theorem readBytes_ends (os : ObjectState) (id n : Nat)
    {readByte : Nat → ObjectState → Nat → Nat → Except Fault (Expr × ObjectState × Nat)}
    (each : ∀ os id i, Ends fun fuel => readByte fuel os id i) : Ends fun fuel => os.readBytes context fuel id (readByte fuel) n := by
  apply Halts.foldlM_const
  intro state i
  obtain ⟨res, os', id'⟩ := state
  apply (each os' id' (byteIndex context n i)).bind
  intro result _
  obtain ⟨byte, os'', id''⟩ := result
  cases res with
  | none => exact .pure _
  | some res =>
    apply (ConcatExpr.create_ends byte res).bind
    intro joined _
    exact .pure _

theorem read_ends (os : ObjectState) (id offset width : Nat) : Ends fun fuel => os.read o context fuel id offset width := by
  apply Halts.ite
  · intro _
    apply (os.read8_ends id offset).bind
    intro result _
    obtain ⟨byte, os', id'⟩ := result
    apply (ExtractExpr.create_ends byte 0 1).bind
    intro bit _
    exact .pure _
  · intro _
    apply Ends.require
    apply os.readBytes_ends id (width / 8)
    intro os' id' i
    exact os'.read8_ends id' (offset + i)

theorem readExpr_ends (os : ObjectState) (id : Nat) (offset : Expr) (width : Nat) :
    Ends fun fuel => os.readExpr o context fuel id offset width := by
  apply (ZExtExpr.create_ends offset 32).bind
  intro position _
  cases position.constant? with
  | some ce => exact os.read_ends id ce.value.toNat width
  | none =>
    apply Halts.ite
    · intro _
      apply (os.read8Symbolic_ends id position).bind
      intro result _
      obtain ⟨byte, os', id'⟩ := result
      apply (ExtractExpr.create_ends byte 0 1).bind
      intro bit _
      exact .pure _
    · intro _
      apply Ends.require
      apply os.readBytes_ends id (width / 8)
      intro os' id' i
      apply (AddExpr.create_ends position _).bind
      intro index _
      exact os'.read8Symbolic_ends id' index

theorem writeBytes_ends (os : ObjectState) (value : Expr) {writeByte : Nat → ObjectState → Nat → Expr → Except Fault ObjectState}
    (each : ∀ os i byte, Ends fun fuel => writeByte fuel os i byte) :
    Ends fun fuel => os.writeBytes context fuel (writeByte fuel) value := by
  apply Ends.require
  apply Halts.foldlM_const
  intro state i
  apply (ExtractExpr.create_ends value (8 * i) 8).bind
  intro byte _
  exact each state _ byte

theorem writeGeneral_ends (os : ObjectState) (offset : Nat) (value : Expr) :
    Ends fun fuel => os.writeGeneral context fuel offset value := by
  apply Halts.ite
  · intro _
    apply (ZExtExpr.create_ends value 8).bind
    intro byte _
    exact .pure _
  · intro _
    apply os.writeBytes_ends value
    intro os' i byte
    exact .pure _

theorem write_ends (os : ObjectState) (offset : Nat) (value : Expr) : Ends fun fuel => os.write context fuel offset value := by
  simp only [write]
  cases value.constant? with
  | none => exact os.writeGeneral_ends offset value
  | some ce =>
    apply Halts.ite
    · intro _
      apply Halts.ite
      · intro _
        exact .pure _
      · intro _
        apply Halts.ite
        · intro _
          exact .pure _
        · intro _
          exact .error _ (by simp)
    · intro _
      exact os.writeGeneral_ends offset value

theorem writeExpr_ends (os : ObjectState) (offset value : Expr) : Ends fun fuel => os.writeExpr o context fuel offset value := by
  apply (ZExtExpr.create_ends offset 32).bind
  intro position _
  cases position.constant? with
  | some ce => exact os.write_ends ce.value.toNat value
  | none =>
    apply Halts.ite
    · intro _
      apply (ZExtExpr.create_ends value 8).bind
      intro byte _
      exact os.write8Symbolic_ends position byte
    · intro _
      apply os.writeBytes_ends value
      intro os' i byte
      apply (AddExpr.create_ends position _).bind
      intro index _
      exact os'.write8Symbolic_ends index byte

end ObjectState

end Termination

section Sequences

/-- The public operations on the bytes of an object. -/
inductive Access where
  | read (offset width : Nat)
  | readExpr (offset : Expr) (width : Nat)
  | write (offset : Nat) (value : Expr)
  | writeExpr (offset value : Expr)
  | writeNumber (offset width : Nat) (value : BitVec width)

namespace Access

def perform (o : Options) (context : Context) (fuel : Nat) (os : ObjectState) (id : Nat) :
    Access → Except Fault (Option Expr × ObjectState × Nat)
  | read offset width => os.read o context fuel id offset width
  | readExpr offset width => os.readExpr o context fuel id offset width
  | write offset value => do
    let os ← os.write context fuel offset value
    pure (none, os, id)
  | writeExpr offset value => do
    let os ← os.writeExpr o context fuel offset value
    pure (none, os, id)
  | writeNumber offset width value =>
    pure (none, os.writeNumber context offset (width / 8) value.toNat, id)

/-- The access has a valid size, its operands are canonical expressions, and
under the assignment it stays within an object of `size` bytes. -/
def Sound (guards : Guards) (ρ : Assignment) (size : Nat) : Access → Prop
  | read offset width => ValidWidth width ∧ offset + numBytes width ≤ size
  | readExpr offset width =>
    ValidWidth width ∧ offset.Folded ∧ offset.WellFormed guards ∧
      (offset.eval ρ offset.width).toNat + numBytes width ≤ size
  | write offset value =>
    ValidWidth value.width ∧ value.WellFormed guards ∧ offset + numBytes value.width ≤ size
  | writeExpr offset value =>
    ValidWidth value.width ∧ value.WellFormed guards ∧ offset.Folded ∧ offset.WellFormed guards ∧
      (offset.eval ρ offset.width).toNat + numBytes value.width ≤ size
  | writeNumber offset width _ =>
    (width = 8 ∨ width = 16 ∨ width = 32 ∨ width = 64) ∧ offset + width / 8 ≤ size

def effect (context : Context) (ρ : Assignment) (c : Contents) : Access → Contents
  | read _ _ => c
  | readExpr _ _ => c
  | write offset value => c.store context offset (value.eval ρ value.width)
  | writeExpr offset value =>
    c.store context (offset.eval ρ offset.width).toNat (value.eval ρ value.width)
  | writeNumber offset _ value => c.store context offset value

def Finds (context : Context) (ρ : Assignment) (c : Contents) (offset width : Nat)
    (result : Option Expr) : Prop :=
  ∃ e, result = some e ∧ e.width = width ∧ Loads context c offset (e.eval ρ width)

def Obeys (context : Context) (ρ : Assignment) (c : Contents) (result : Option Expr) :
    Access → Prop
  | read offset width => Finds context ρ c offset width result
  | readExpr offset width =>
    Finds context ρ c (offset.eval ρ offset.width).toNat width result
  | write _ _ | writeExpr _ _ | writeNumber _ _ _ => result = none

end Access

def runAccesses (o : Options) (context : Context) (fuel : Nat) :
    List Access → ObjectState → Nat → Except Fault (List (Option Expr) × ObjectState × Nat)
  | [], os, id => pure ([], os, id)
  | access :: rest, os, id => do
    let (result, os, id) ← access.perform o context fuel os id
    let (results, os, id) ← runAccesses o context fuel rest os id
    pure (result :: results, os, id)

/-- The array law: what every access of a sequence returns is what the writes
before it have made of the contents. -/
def ArrayLaw (context : Context) (ρ : Assignment) :
    Contents → List Access → List (Option Expr) → Prop
  | _, [], results => results = []
  | _, _ :: _, [] => False
  | c, access :: rest, result :: results =>
    access.Obeys context ρ c result ∧ ArrayLaw context ρ (access.effect context ρ c) rest results

theorem Loaded.finds {res : Option Expr} (loaded : Loaded guards ρ context c offset width res) :
    Access.Finds context ρ c offset width res := by
  obtain ⟨e, v, returned, denotes, loads⟩ := loaded
  refine ⟨e, returned, denotes.width, ?_⟩
  rwa [denotes.value]

namespace Access

theorem perform_represents (admits : Admits o guards ρ) (represents : Represents guards ρ os c)
    {access : Access} (sound : access.Sound guards ρ os.size) (fuel : Nat) :
    Satisfies (Excused guards ρ)
      (fun result => access.Obeys context ρ c result.1 ∧
        Represents guards ρ result.2.1 (access.effect context ρ c) ∧ SameFrame os result.2.1) (access.perform o context fuel os id) := by
  cases access with
  | read offset width =>
    obtain ⟨valid, within⟩ := sound
    apply (read_represents admits represents valid within).mono
    intro result found
    exact ⟨found.1.finds, found.2⟩
  | readExpr offset width =>
    obtain ⟨valid, folded, wellFormed, within⟩ := sound
    apply (readExpr_represents admits represents valid folded wellFormed.denotes within).mono
    intro result found
    exact ⟨found.1.finds, found.2⟩
  | write offset value =>
    obtain ⟨valid, wellFormed, within⟩ := sound
    apply (write_represents valid represents wellFormed.denotes).bind
    intro os' leaves
    exact ⟨rfl, leaves⟩
  | writeExpr offset value =>
    obtain ⟨valid, wellFormed, folded, wellFormedOffset, within⟩ := sound
    apply (writeExpr_represents admits represents valid wellFormed.denotes folded wellFormedOffset.denotes within).bind
    intro os' leaves
    exact ⟨rfl, leaves⟩
  | writeNumber offset width value =>
    obtain ⟨sizes, within⟩ := sound
    exact ⟨rfl, writeNumber_represents represents value (by omega)⟩

theorem perform_ends (access : Access) (os : ObjectState) (id : Nat) : Ends fun fuel => access.perform o context fuel os id := by
  cases access with
  | read offset width => exact os.read_ends id offset width
  | readExpr offset width => exact os.readExpr_ends id offset width
  | write offset value =>
    apply (os.write_ends offset value).bind
    intro os' _
    exact .pure _
  | writeExpr offset value =>
    apply (os.writeExpr_ends offset value).bind
    intro os' _
    exact .pure _
  | writeNumber offset width value => exact .pure _

end Access

theorem runAccesses_represents (admits : Admits o guards ρ) (fuel : Nat) {accesses : List Access}
    (represents : Represents guards ρ os c) (sound : ∀ access ∈ accesses, access.Sound guards ρ os.size) :
    Satisfies (Excused guards ρ) (fun result => ArrayLaw context ρ c accesses result.1) (runAccesses o context fuel accesses os id) := by
  induction accesses generalizing os c id with
  | nil => rfl
  | cons access rest ih =>
    apply (Access.perform_represents admits represents (sound access (by simp)) fuel).bind
    intro result facts
    obtain ⟨obeys, represents', frame⟩ := facts
    apply (ih represents' fun later member => ?_).bind
    · intro results law
      exact ⟨obeys, law⟩
    · rw [frame.size]
      exact sound later (by simp [member])

theorem runAccesses_ends (accesses : List Access) (os : ObjectState) (id : Nat) :
    Ends fun fuel => runAccesses o context fuel accesses os id := by
  induction accesses generalizing os id with
  | nil => exact .pure _
  | cons access rest ih =>
    apply (access.perform_ends os id).bind
    intro result _
    obtain ⟨result, os', id'⟩ := result
    apply (ih os' id').bind
    intro results _
    exact .pure _

end Sequences

section Origins

inductive Origin where
  | uninitialized (array : Option Symbolic.Array)
  | zero (array : Option Symbolic.Array)
  | random (array : Option Symbolic.Array)
  | symbolic (array : Symbolic.Array)

namespace Origin

def state (mo : MemoryObject) : Origin → ObjectState
  | uninitialized array => .create mo array
  | zero array => (ObjectState.create mo array).initializeToZero
  | random array => (ObjectState.create mo array).initializeToRandom
  | symbolic array => .createSymbolic mo array

def contents (ρ : Assignment) : Origin → Contents
  | uninitialized _ | zero _ => fun _ => 0
  | random _ => fun _ => 0xAB
  | symbolic array => fun i => (array.initial ρ i).setWidth 8

def array? : Origin → Option Symbolic.Array
  | uninitialized array | zero array | random array => array
  | symbolic array => some array

/-- `unsigned size`, and an array as `CreateArray` makes it for that size. -/
structure Valid (origin : Origin) (mo : MemoryObject) : Prop where
  narrow : mo.size < 2 ^ 32
  array : ∀ {array}, origin.array? = some array →
    array.domain = 32 ∧ array.range = 8 ∧ array.size = mo.size

end Origin

theorem UpdateList.valid_null {root : Option Symbolic.Array} {size : Nat}
    (sizes : ∀ {array}, root = some array →
      array.domain = 32 ∧ array.range = 8 ∧ array.size = size) : UpdateList.Valid guards ⟨root, .null⟩ size := by
  cases root with
  | none => exact ⟨rfl, rfl, rfl, trivial⟩
  | some array =>
    obtain ⟨domain, range, length⟩ := sizes rfl
    exact ⟨domain, range, length, trivial⟩

namespace ObjectState

theorem markByteFlushed_onlyListed (os : ObjectState) (offset i : Nat)
    (only : i = offset → (os.view i).concrete = false ∧ (os.view i).known = none)
    (others : i ≠ offset → (os.view i).OnlyListed) : ((os.markByteFlushed offset).view i).OnlyListed := by
  have kept : ((os.markByteFlushed offset).view i).concrete = (os.view i).concrete ∧
      ((os.markByteFlushed offset).view i).known = (os.view i).known := by
    rw [markByteFlushed]
    split <;> exact ⟨rfl, rfl⟩
  have flushed : i = offset ∨ os.isByteFlushed i = true → (os.markByteFlushed offset).isByteFlushed i = true := by
    intro marked
    rw [markByteFlushed]
    cases mask : os.flushMask with
    | none => rfl
    | some mask =>
      simp only [isByteFlushed, Function.update_apply]
      simp only [isByteFlushed, mask] at marked
      by_cases same : i = offset
      · simp [same]
      · simpa [same] using marked
  by_cases same : i = offset
  · exact ⟨kept.1.trans (only same).1, flushed (.inl same), kept.2.trans (only same).2⟩
  · obtain ⟨concrete, isFlushed, known⟩ := others same
    exact ⟨kept.1.trans concrete, flushed (.inr isFlushed), kept.2.trans known⟩

theorem makeSymbolic_frame (os : ObjectState) : SameUpdates os os.makeSymbolic := by
  rw [makeSymbolic]
  generalize List.range os.size = positions
  induction positions generalizing os with
  | nil => exact ⟨SameFrame.refl os, rfl⟩
  | cons i rest ih =>
    apply SameUpdates.trans _ (ih _)
    exact (os.markByteSymbolic_frame i).trans ((setKnownSymbolic_frame _ i none).trans (markByteFlushed_frame _ i))

theorem makeSymbolic_onlyListed (os : ObjectState) {i : Nat} (within : i < os.size) : (os.makeSymbolic.view i).OnlyListed := by
  have loop : ∀ k, i < k → (((List.range k).foldl (fun os i =>
      ((os.markByteSymbolic i).setKnownSymbolic i none).markByteFlushed i) os).view i).OnlyListed := by
    intro k
    induction k with
    | zero => exact fun below => absurd below (Nat.not_lt_zero i)
    | succ k ih =>
      intro below
      rw [List.range_succ, List.foldl_append, List.foldl_cons, List.foldl_nil]
      apply markByteFlushed_onlyListed
      · rintro rfl
        simp [view_setKnownSymbolic, view_markByteSymbolic]
      · intro other
        simp only [view_setKnownSymbolic, view_markByteSymbolic, Function.update_of_ne other]
        exact ih (by omega)
  exact loop os.size within

end ObjectState

theorem Origin.represents {origin : Origin} {mo : MemoryObject} (valid : origin.Valid mo) :
    Represents guards ρ (origin.state mo) (origin.contents ρ) := by
  cases origin with
  | uninitialized array =>
    refine ⟨valid.narrow, UpdateList.valid_null valid.array, fun i _ => ?_⟩
    exact ⟨fun _ => ⟨rfl, rfl⟩, nofun, nofun, fun _ => .inl rfl⟩
  | zero array =>
    refine ⟨valid.narrow, UpdateList.valid_null valid.array, fun i _ => ?_⟩
    exact ⟨fun _ => ⟨rfl, rfl⟩, nofun, nofun, fun _ => .inl rfl⟩
  | random array =>
    refine ⟨valid.narrow, UpdateList.valid_null valid.array, fun i _ => ?_⟩
    exact ⟨fun _ => ⟨rfl, rfl⟩, nofun, nofun, fun _ => .inl rfl⟩
  | symbolic array =>
    have frame := (ObjectState.create mo (some array)).makeSymbolic_frame
    have size : (ObjectState.createSymbolic mo array).size = mo.size := frame.size
    have updates : (ObjectState.createSymbolic mo array).updates = ⟨some array, .null⟩ := frame.updates
    change Represents guards ρ (ObjectState.createSymbolic mo array) _
    have narrow := valid.narrow
    refine ⟨size ▸ narrow, ?_, ?_⟩
    · rw [updates, size]
      exact UpdateList.valid_null valid.array
    · intro i within
      rw [size] at within
      have byte : UpdateList.byte ρ ⟨some array, .null⟩ mo.size i = (array.initial ρ i).setWidth 8 := by
        obtain ⟨domain, -, -⟩ := valid.array rfl
        rw [UpdateList.byte, UpdateNode.eval, UpdateList.base, Option.getD_some, BitVec.toNat_ofNat, domain, Nat.mod_eq_of_lt (by omega)]
      rw [updates, size, byte]
      exact ((ObjectState.create mo (some array)).makeSymbolic_onlyListed within).holds _

theorem Origin.state_size (origin : Origin) (mo : MemoryObject) : (origin.state mo).size = mo.size := by
  cases origin with
  | uninitialized array => rfl
  | zero array => rfl
  | random array => rfl
  | symbolic array => exact (ObjectState.create mo (some array)).makeSymbolic_frame.size

def Feasible (o : Options) (size : Nat) (accesses : List Access) : Prop :=
  ∃ ρ, ∀ access ∈ accesses, access.Sound (.safe o ρ) ρ size

theorem accesses_obey_array_law (o : Options) (context : Context) (mo : MemoryObject)
    (origin : Origin) (id : Nat) (accesses : List Access) (valid : origin.Valid mo)
    (feasible : Feasible o mo.size accesses) :
    ∃ results os id', Returns (fun fuel => runAccesses o context fuel accesses (origin.state mo) id)
        (results, os, id') ∧
      ∀ ρ, (∀ access ∈ accesses, access.Sound (.bounded o ρ) ρ mo.size) →
        ArrayLaw context ρ (origin.contents ρ) accesses results := by
  obtain ⟨ρ₀, sound⟩ := feasible
  obtain ⟨⟨results, os, id'⟩, -, returns⟩ :=
    (runAccesses_ends accesses (origin.state mo) id).returns fun fuel =>
      only_outOfFuel (runAccesses_represents Admits.safe fuel (Origin.represents valid)
        (by rwa [origin.state_size]))
  refine ⟨results, os, id', returns, ?_⟩
  intro ρ within
  have obeys := returns.satisfies fun fuel =>
    runAccesses_represents Admits.bounded fuel (Origin.represents valid)
      (by rwa [origin.state_size])
  exact obeys

section Example

def sampleObject : MemoryObject := ⟨1, 4096, 4, false⟩

def sampleIndex : Expr :=
  .zext (.read (.symbolic 0 "x" 1) .null (.constant (.alloc 0 32))) 32

def sampleAccesses : List Access :=
  [.write 0 (.constant (.alloc 0x1234 16)), .writeExpr sampleIndex (.constant (.alloc 7 8)),
    .read 0 16, .readExpr sampleIndex 16]

theorem accesses_obey_array_law_sample :
    ∃ results os id', Returns (fun fuel => runAccesses ⟨false, true⟩ ⟨true, 64⟩ fuel sampleAccesses
        ((Origin.zero none).state sampleObject) 0) (results, os, id') ∧
      ∀ ρ, (∀ access ∈ sampleAccesses, access.Sound (.bounded ⟨false, true⟩ ρ) ρ 4) →
        ArrayLaw ⟨true, 64⟩ ρ ((Origin.zero none).contents ρ) sampleAccesses results := by
  apply accesses_obey_array_law ⟨false, true⟩ ⟨true, 64⟩ sampleObject (.zero none) 0 sampleAccesses
  · exact ⟨by decide, nofun⟩
  · refine ⟨fun r _ => 0#r.range, ?_⟩
    intro access member
    simp only [sampleAccesses, List.mem_cons, List.not_mem_nil, or_false] at member
    have wellFormed (guards) : sampleIndex.WellFormed guards := by
      simp [sampleIndex, Symbolic.Array.isConstantArray, Symbolic.Array.isSymbolicArray,
        ConstantExpr.alloc]
    obtain rfl | rfl | rfl | rfl := member
    · exact ⟨.inr (by decide), trivial, by decide⟩
    · exact ⟨.inr (by decide), trivial, trivial, wellFormed _, by decide⟩
    · exact ⟨.inr (by decide), by decide⟩
    · exact ⟨.inr (by decide), trivial, wellFormed _, by decide⟩

end Example

end Origins

end NeuroMerge.Memory
