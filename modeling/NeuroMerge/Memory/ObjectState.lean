import NeuroMerge.Symbolic.Create

/-!
# Object states

The contents of a memory object. A byte is held in the concrete store, as a
known symbolic value or in the update list, which the two masks tell apart. An
array or a bit mask is a function on positions; only positions within the object
are ever looked at.
-/

namespace NeuroMerge.Memory

open Symbolic (Options Expr ConstantExpr UpdateNode Fault Assertion require)

/-- `Context`: what the target machine determines. -/
structure Context where
  isLittleEndian : Bool
  pointerWidth : Nat
  deriving DecidableEq, Repr

structure MemoryObject where
  id : Nat
  address : Nat
  size : Nat
  isUserSpecified : Bool
  deriving DecidableEq, Repr

/-- A list of writes to an array. An object with concrete initial contents has
no array until it needs one. -/
structure UpdateList where
  root : Option Symbolic.Array
  head : UpdateNode

structure ObjectState where
  copyOnWriteOwner : BitVec 32
  object : MemoryObject
  concreteStore : Nat → BitVec 8
  concreteMask : Option (Nat → Bool)
  flushMask : Option (Nat → Bool)
  knownSymbolics : Option (Nat → Option Expr)
  updates : UpdateList
  size : Nat
  readOnly : Bool

def UpdateList.extend (updates : UpdateList) (index value : Expr) :
    Except Fault UpdateList := do
  match updates.root with
  | some root => do
    require (root.domain = index.width) .typeMismatch
    require (root.range = value.width) .typeMismatch
    pure { updates with head := .node index value updates.head }
  | none => pure { updates with head := .node index value updates.head }

/-- The writes of an update list, the oldest first. -/
def UpdateNode.writes : UpdateNode → List (Expr × Expr)
  | .null => []
  | .node index value next => UpdateNode.writes next ++ [(index, value)]

def pullConcreteWrites :
    List ConstantExpr → List (Expr × Expr) → List ConstantExpr × List (Expr × Expr)
  | contents, (.constant index, .constant value) :: rest =>
    pullConcreteWrites (contents.set index.value.toNat value) rest
  | contents, writes => (contents, writes)

/-- `CreateArray` for a constant array; `id` is the counter behind its name. -/
def createConstArray (id : Nat) (contents : List ConstantExpr) :
    Except Fault Symbolic.Array := do
  require (∀ value ∈ contents, value.width = 8) .typeMismatch
  pure ⟨id, "const_arr" ++ toString id, contents.length, 32, 8,
    contents.map fun value => value.value.setWidth 8, .inr (by simp)⟩

namespace ObjectState

variable (os : ObjectState)

/-- `ObjectState(mo)` with the array that stands for the contents if constant
arrays are not used. -/
def create (mo : MemoryObject) (array : Option Symbolic.Array) : ObjectState where
  copyOnWriteOwner := 0
  object := mo
  concreteStore := fun _ => 0
  concreteMask := none
  flushMask := none
  knownSymbolics := none
  updates := ⟨array, .null⟩
  size := mo.size
  readOnly := false

def copy : Except Fault ObjectState := do
  require (os.readOnly = false) .readOnlyCopied
  pure { os with copyOnWriteOwner := 0 }

def isByteConcrete (offset : Nat) : Bool :=
  match os.concreteMask with
  | none => true
  | some mask => mask offset

def isByteFlushed (offset : Nat) : Bool :=
  match os.flushMask with
  | none => false
  | some mask => !mask offset

/-- `knownSymbolics[offset]`, null if there are none. -/
def knownSymbolic? (offset : Nat) : Option Expr :=
  match os.knownSymbolics with
  | none => none
  | some values => values offset

def markByteConcrete (offset : Nat) : ObjectState :=
  match os.concreteMask with
  | none => os
  | some mask => { os with concreteMask := some (Function.update mask offset true) }

def markByteSymbolic (offset : Nat) : ObjectState :=
  let mask := os.concreteMask.getD fun _ => true
  { os with concreteMask := some (Function.update mask offset false) }

def markByteUnflushed (offset : Nat) : ObjectState :=
  match os.flushMask with
  | none => os
  | some mask => { os with flushMask := some (Function.update mask offset true) }

/-- The first byte that is marked so marks all others as well. -/
def markByteFlushed (offset : Nat) : ObjectState :=
  match os.flushMask with
  | none => { os with flushMask := some fun _ => false }
  | some mask => { os with flushMask := some (Function.update mask offset false) }

def setKnownSymbolic (offset : Nat) (value : Option Expr) : ObjectState :=
  match os.knownSymbolics, value with
  | some values, value =>
    { os with knownSymbolics := some (Function.update values offset value) }
  | none, some value =>
    { os with knownSymbolics := some (Function.update (fun _ => none) offset (some value)) }
  | none, none => os

def makeSymbolic : ObjectState :=
  (List.range os.size).foldl (fun os i =>
    ((os.markByteSymbolic i).setKnownSymbolic i none).markByteFlushed i) os

def createSymbolic (mo : MemoryObject) (array : Symbolic.Array) : ObjectState :=
  (create mo (some array)).makeSymbolic

def makeConcrete : ObjectState :=
  { os with concreteMask := none, flushMask := none, knownSymbolics := none }

def initializeToZero : ObjectState := { os.makeConcrete with concreteStore := fun _ => 0 }

def initializeToRandom : ObjectState :=
  { os.makeConcrete with concreteStore := fun _ => 0xAB }

/-- The update list, the object as its use leaves it, and the counter behind the
names of constant arrays. -/
def getUpdates (id : Nat) : Except Fault (UpdateList × ObjectState × Nat) :=
  match os.updates.root with
  | some _ => pure (os.updates, os, id)
  | none => do
    let (contents, writes) := pullConcreteWrites
      (List.replicate os.size (.alloc 0 8)) (UpdateNode.writes os.updates.head)
    let array ← createConstArray (id + 1) contents
    let updates ← writes.foldlM (fun updates write => updates.extend write.1 write.2)
      ⟨some array, .null⟩
    pure (updates, { os with updates := updates }, id + 1)

def fastRangeCheckOffset (_offset : Expr) : Nat × Nat := (0, os.size)

/-- Where a byte is written that the update list does not hold yet. -/
def flushByte (offset : Nat) : Except Fault ObjectState := do
  if os.isByteConcrete offset then
    let updates ← os.updates.extend (.constant (.alloc offset 32))
      (.constant ⟨8, os.concreteStore offset⟩)
    pure { os with updates := updates }
  else
    match os.knownSymbolic? offset with
    | some value => do
      let updates ← os.updates.extend (.constant (.alloc offset 32)) value
      pure { os with updates := updates }
    | none => throw (.assertion .unflushedByteWithoutValue)

/-- `if (!flushMask) flushMask = new BitArray(size, true)` -/
def withFlushMask : ObjectState :=
  { os with flushMask := some (os.flushMask.getD fun _ => true) }

def flushRangeForRead (rangeBase rangeSize : Nat) : Except Fault ObjectState :=
  (List.range' rangeBase rangeSize).foldlM (fun os offset =>
    if os.isByteFlushed offset then pure os
    else do
      let os ← os.flushByte offset
      pure (os.markByteFlushed offset)) os.withFlushMask

def flushRangeForWrite (rangeBase rangeSize : Nat) : Except Fault ObjectState :=
  (List.range' rangeBase rangeSize).foldlM (fun os offset =>
    if os.isByteFlushed offset then
      if os.isByteConcrete offset then pure (os.markByteSymbolic offset)
      else
        match os.knownSymbolic? offset with
        | some _ => pure (os.setKnownSymbolic offset none)
        | none => pure os
    else do
      let flushed ← os.flushByte offset
      let cleared :=
        if os.isByteConcrete offset then flushed.markByteSymbolic offset
        else flushed.setKnownSymbolic offset none
      pure (cleared.markByteFlushed offset)) os.withFlushMask

section Bytes

variable (o : Options) (fuel id : Nat)

def read8 (offset : Nat) : Except Fault (Expr × ObjectState × Nat) :=
  if os.isByteConcrete offset then
    pure (.constant ⟨8, os.concreteStore offset⟩, os, id)
  else
    match os.knownSymbolic? offset with
    | some value => pure (value, os, id)
    | none => do
      require (os.isByteFlushed offset) .unflushedByteWithoutValue
      let (updates, os, id) ← os.getUpdates id
      match updates.root with
      | some root => do
        let value ← Symbolic.ReadExpr.create o fuel root updates.head (.constant (.alloc offset 32))
        pure (value, os, id)
      | none => throw (.assertion .missingObject)

def read8Symbolic (offset : Expr) : Except Fault (Expr × ObjectState × Nat) := do
  require (offset.constant? = none) .constantOffset
  let (base, size) := os.fastRangeCheckOffset offset
  let os ← os.flushRangeForRead base size
  let (updates, os, id) ← os.getUpdates id
  let index ← Symbolic.ZExtExpr.create fuel offset 32
  match updates.root with
  | some root => do
    let value ← Symbolic.ReadExpr.create o fuel root updates.head index
    pure (value, os, id)
  | none => throw (.assertion .missingObject)

def write8Concrete (offset : Nat) (value : BitVec 8) : ObjectState :=
  let os := { os with concreteStore := Function.update os.concreteStore offset value }
  ((os.setKnownSymbolic offset none).markByteConcrete offset).markByteUnflushed offset

def write8 (offset : Nat) (value : Expr) : ObjectState :=
  match value.constant? with
  | some ce => os.write8Concrete offset (ce.value.setWidth 8)
  | none => ((os.setKnownSymbolic offset (some value)).markByteSymbolic offset).markByteUnflushed
      offset

def write8Symbolic (offset value : Expr) : Except Fault ObjectState := do
  require (offset.constant? = none) .constantOffset
  let (base, size) := os.fastRangeCheckOffset offset
  let os ← os.flushRangeForWrite base size
  let index ← Symbolic.ZExtExpr.create fuel offset 32
  let updates ← os.updates.extend index value
  pure { os with updates := updates }

end Bytes

/-- The position of the `i`th byte of a value, counted from its least significant
one. -/
def byteIndex (context : Context) (numBytes i : Nat) : Nat :=
  if context.isLittleEndian then i else numBytes - i - 1

section Words

variable (o : Options) (context : Context) (fuel id : Nat)

/-- The loop over the bytes of a read, which concatenates them; the result is
null as long as there was none. -/
def readBytes (readByte : ObjectState → Nat → Nat → Except Fault (Expr × ObjectState × Nat))
    (numBytes : Nat) : Except Fault (Option Expr × ObjectState × Nat) :=
  (List.range numBytes).foldlM (fun (res, os, id) i => do
    let (byte, os, id) ← readByte os id (byteIndex context numBytes i)
    match res with
    | none => pure (some byte, os, id)
    | some res => do
      let res ← Symbolic.ConcatExpr.create fuel byte res
      pure (some res, os, id)) (none, os, id)

def read (offset width : Nat) : Except Fault (Option Expr × ObjectState × Nat) :=
  if width = 1 then do
    let (byte, os, id) ← os.read8 o fuel id offset
    let bit ← Symbolic.ExtractExpr.create fuel byte 0 1
    pure (some bit, os, id)
  else do
    require (width = width / 8 * 8) .invalidSize
    os.readBytes context fuel id (fun os id idx => os.read8 o fuel id (offset + idx)) (width / 8)

def readExpr (offset : Expr) (width : Nat) : Except Fault (Option Expr × ObjectState × Nat) := do
  let offset ← Symbolic.ZExtExpr.create fuel offset 32
  match offset.constant? with
  | some ce => os.read o context fuel id ce.value.toNat width
  | none =>
    if width = 1 then do
      let (byte, os, id) ← os.read8Symbolic o fuel id offset
      let bit ← Symbolic.ExtractExpr.create fuel byte 0 1
      pure (some bit, os, id)
    else do
      require (width = width / 8 * 8) .invalidSize
      os.readBytes context fuel id (fun os id idx => do
        let position ← Symbolic.AddExpr.create o fuel offset (.constant (.alloc idx 32))
        os.read8Symbolic o fuel id position) (width / 8)

/-- `write8`, `write16`, `write32` and `write64` of a number. -/
def writeNumber (offset numBytes value : Nat) : ObjectState :=
  (List.range numBytes).foldl (fun os i =>
    os.write8Concrete (offset + byteIndex context numBytes i) (BitVec.ofNat 8 (value >>> (8 * i))))
    os

/-- `write(unsigned, ref<Expr>)` for a value that is written byte by byte. -/
def writeBytes (writeByte : ObjectState → Nat → Expr → Except Fault ObjectState)
    (value : Expr) : Except Fault ObjectState := do
  require (value.width = value.width / 8 * 8) .invalidSize
  (List.range (value.width / 8)).foldlM (fun os i => do
    let byte ← Symbolic.ExtractExpr.create fuel value (8 * i) 8
    writeByte os (byteIndex context (value.width / 8) i) byte) os

/-- `klee::bits64::isPowerOfTwo` -/
def isPowerOfTwo (x : Nat) : Bool := x ≠ 0 ∧ x &&& (x - 1) = 0

/-- The general case of `write(unsigned, ref<Expr>)`. -/
def writeGeneral (offset : Nat) (value : Expr) : Except Fault ObjectState :=
  if value.width = 1 then do
    let byte ← Symbolic.ZExtExpr.create fuel value 8
    pure (os.write8 offset byte)
  else os.writeBytes context fuel (fun os idx byte => pure (os.write8 (offset + idx) byte)) value

def write (offset : Nat) (value : Expr) : Except Fault ObjectState :=
  match value.constant? with
  | some ce =>
    if ce.width ≤ 64 ∧ isPowerOfTwo ce.width then
      if ce.width = 1 ∨ ce.width = 8 then
        pure (os.write8Concrete offset (BitVec.ofNat 8 ce.value.toNat))
      else if ce.width = 16 ∨ ce.width = 32 ∨ ce.width = 64 then
        pure (os.writeNumber context offset (ce.width / 8) ce.value.toNat)
      else throw (.assertion .invalidSize)
    else os.writeGeneral context fuel offset value
  | none => os.writeGeneral context fuel offset value

def writeExpr (offset value : Expr) : Except Fault ObjectState := do
  let offset ← Symbolic.ZExtExpr.create fuel offset 32
  match offset.constant? with
  | some ce => os.write context fuel ce.value.toNat value
  | none =>
    if value.width = 1 then do
      let byte ← Symbolic.ZExtExpr.create fuel value 8
      os.write8Symbolic fuel offset byte
    else
      os.writeBytes context fuel (fun os idx byte => do
        let position ← Symbolic.AddExpr.create o fuel offset (.constant (.alloc idx 32))
        os.write8Symbolic fuel position byte) value

end Words

end ObjectState

end NeuroMerge.Memory
