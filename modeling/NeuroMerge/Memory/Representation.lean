import NeuroMerge.Memory.ObjectState
import NeuroMerge.Symbolic.VisitorProperties

/-!
# What an object state represents

Under an assignment an object state stands for the bytes of the object, however
each of them is held.
-/

namespace NeuroMerge.Memory

open Symbolic

variable {guards : Guards} {ρ : Assignment} {os : ObjectState} {offset i : Nat}

abbrev Contents := Nat → BitVec 8

section View

structure ByteView where
  concrete : Bool
  flushed : Bool
  known : Option Expr
  stored : BitVec 8

def ObjectState.view (os : ObjectState) (i : Nat) : ByteView :=
  ⟨os.isByteConcrete i, os.isByteFlushed i, os.knownSymbolic? i, os.concreteStore i⟩

structure SameFrame (os os' : ObjectState) : Prop where
  size : os'.size = os.size
  object : os'.object = os.object
  readOnly : os'.readOnly = os.readOnly
  owner : os'.copyOnWriteOwner = os.copyOnWriteOwner

theorem SameFrame.refl (os : ObjectState) : SameFrame os os := ⟨rfl, rfl, rfl, rfl⟩

theorem SameFrame.trans {os os' os'' : ObjectState} (first : SameFrame os os') (second : SameFrame os' os'') : SameFrame os os'' :=
  ⟨second.size.trans first.size, second.object.trans first.object, second.readOnly.trans first.readOnly, second.owner.trans first.owner⟩

structure SameUpdates (os os' : ObjectState) : Prop extends SameFrame os os' where
  updates : os'.updates = os.updates

theorem SameUpdates.trans {os os' os'' : ObjectState} (first : SameUpdates os os')
    (second : SameUpdates os' os'') : SameUpdates os os'' :=
  ⟨first.toSameFrame.trans second.toSameFrame, second.updates.trans first.updates⟩

namespace ObjectState

theorem view_markByteConcrete (os : ObjectState) (offset : Nat) :
    (os.markByteConcrete offset).view = Function.update os.view offset { os.view offset with concrete := true } := by
  funext i
  by_cases same : i = offset
  · subst same
    cases mask : os.concreteMask <;>
      simp [view, markByteConcrete, isByteConcrete, isByteFlushed, knownSymbolic?, mask]
  · cases mask : os.concreteMask <;>
      simp [view, markByteConcrete, isByteConcrete, isByteFlushed, knownSymbolic?, mask, same]

theorem view_markByteSymbolic (os : ObjectState) (offset : Nat) :
    (os.markByteSymbolic offset).view = Function.update os.view offset { os.view offset with concrete := false } := by
  funext i
  by_cases same : i = offset
  · subst same
    simp [view, markByteSymbolic, isByteConcrete, isByteFlushed, knownSymbolic?]
  · cases mask : os.concreteMask <;>
      simp [view, markByteSymbolic, isByteConcrete, isByteFlushed, knownSymbolic?, mask, same]

theorem view_markByteUnflushed (os : ObjectState) (offset : Nat) :
    (os.markByteUnflushed offset).view = Function.update os.view offset { os.view offset with flushed := false } := by
  funext i
  by_cases same : i = offset
  · subst same
    cases mask : os.flushMask <;>
      simp [view, markByteUnflushed, isByteConcrete, isByteFlushed, knownSymbolic?, mask]
  · cases mask : os.flushMask <;>
      simp [view, markByteUnflushed, isByteConcrete, isByteFlushed, knownSymbolic?, mask, same]

theorem view_markByteFlushed (masked : os.flushMask ≠ none) (offset : Nat) :
    (os.markByteFlushed offset).view = Function.update os.view offset { os.view offset with flushed := true } := by
  funext i
  obtain ⟨mask, isMask⟩ := Option.ne_none_iff_exists'.mp masked
  by_cases same : i = offset
  · subst same
    simp [view, markByteFlushed, isByteConcrete, isByteFlushed, knownSymbolic?, isMask]
  · simp [view, markByteFlushed, isByteConcrete, isByteFlushed, knownSymbolic?, isMask, same]

theorem view_setKnownSymbolic (os : ObjectState) (offset : Nat) (value : Option Expr) :
    (os.setKnownSymbolic offset value).view = Function.update os.view offset { os.view offset with known := value } := by
  funext i
  by_cases same : i = offset
  · subst same
    cases values : os.knownSymbolics <;> cases value <;>
      simp [view, setKnownSymbolic, isByteConcrete, isByteFlushed, knownSymbolic?, values]
  · cases values : os.knownSymbolics <;> cases value <;>
      simp [view, setKnownSymbolic, isByteConcrete, isByteFlushed, knownSymbolic?, values, same]

theorem view_withFlushMask (os : ObjectState) : os.withFlushMask.view = os.view := by
  funext i
  cases mask : os.flushMask <;>
    simp [view, withFlushMask, isByteConcrete, isByteFlushed, knownSymbolic?, mask]

theorem markByteConcrete_frame (os : ObjectState) (offset : Nat) : SameUpdates os (os.markByteConcrete offset) := by
  rw [markByteConcrete]
  split <;> exact ⟨⟨rfl, rfl, rfl, rfl⟩, rfl⟩

theorem markByteSymbolic_frame (os : ObjectState) (offset : Nat) : SameUpdates os (os.markByteSymbolic offset) :=
  ⟨⟨rfl, rfl, rfl, rfl⟩, rfl⟩

theorem markByteUnflushed_frame (os : ObjectState) (offset : Nat) : SameUpdates os (os.markByteUnflushed offset) := by
  rw [markByteUnflushed]
  split <;> exact ⟨⟨rfl, rfl, rfl, rfl⟩, rfl⟩

theorem markByteFlushed_frame (os : ObjectState) (offset : Nat) : SameUpdates os (os.markByteFlushed offset) := by
  rw [markByteFlushed]
  split <;> exact ⟨⟨rfl, rfl, rfl, rfl⟩, rfl⟩

theorem setKnownSymbolic_frame (os : ObjectState) (offset : Nat) (value : Option Expr) :
    SameUpdates os (os.setKnownSymbolic offset value) := by
  rw [setKnownSymbolic.eq_def]
  split <;> exact ⟨⟨rfl, rfl, rfl, rfl⟩, rfl⟩

end ObjectState

end View

section Updates

/-- The contents of an object that has no array yet, before any write. -/
def zeroArray (size : Nat) : Symbolic.Array :=
  ⟨0, "", size, 32, 8, List.replicate size 0, .inr (by simp)⟩

namespace UpdateList

variable {updates : UpdateList} {size : Nat}

def base (updates : UpdateList) (size : Nat) : Symbolic.Array :=
  updates.root.getD (zeroArray size)

/-- The byte that the update list holds at a position. -/
def byte (ρ : Assignment) (updates : UpdateList) (size i : Nat) : BitVec 8 :=
  (updates.head.eval ρ (updates.base size) (BitVec.ofNat (updates.base size).domain i)).setWidth 8

structure Valid (guards : Guards) (updates : UpdateList) (size : Nat) : Prop where
  domain : (updates.base size).domain = 32
  range : (updates.base size).range = 8
  length : (updates.base size).size = size
  wellFormed : updates.head.WellFormed guards (updates.base size)

theorem head_eval_node {root : Symbolic.Array} {head : UpdateNode} {index value : Expr}
    (domain : root.domain = 32) (range : root.range = 8) (i : Nat) :
    ((UpdateNode.node index value head).eval ρ root (BitVec.ofNat root.domain i)).setWidth 8 =
      if index.eval ρ 32 = BitVec.ofNat 32 i then value.eval ρ 8 else (head.eval ρ root (BitVec.ofNat root.domain i)).setWidth 8 := by
  obtain ⟨rootId, name, rootSize, domain', range', values, validSize⟩ := root
  subst domain range
  rw [UpdateNode.eval]
  split
  · exact BitVec.setWidth_eq _
  · rfl

theorem extend_valid (valid : updates.Valid guards size) {index value : Expr} {position : BitVec 32}
    {content : BitVec 8} (denotesIndex : Denotes guards ρ index position) (denotesValue : Denotes guards ρ value content) :
    ∃ extended, updates.extend index value = .ok extended ∧ extended.Valid guards size ∧
      extended.root = updates.root ∧ ∀ i, extended.byte ρ size i =
        if position = BitVec.ofNat 32 i then content else updates.byte ρ size i := by
  refine ⟨{ updates with head := .node index value updates.head }, ?_, ?_, rfl, ?_⟩
  · have domain := valid.domain
    have range := valid.range
    rw [extend]
    cases root : updates.root with
    | none => rfl
    | some root =>
      simp only [base, root, Option.getD_some] at domain range
      simp [require, domain, range, denotesIndex.width, denotesValue.width]
      rfl
  · refine ⟨valid.domain, valid.range, valid.length, ?_⟩
    exact ⟨denotesIndex.wellFormed, denotesIndex.width.trans valid.domain.symm,
      denotesValue.wellFormed, denotesValue.width.trans valid.range.symm, valid.wellFormed⟩
  · intro i
    rw [byte, byte, ← denotesIndex.value, ← denotesValue.value]
    exact head_eval_node valid.domain valid.range i

end UpdateList

end Updates

section Represents

/-- The byte is held so that every way of reading it finds `value`, given what
the update list holds. -/
structure ByteView.Holds (guards : Guards) (ρ : Assignment) (view : ByteView)
    (listed value : BitVec 8) : Prop where
  concrete : view.concrete = true → view.stored = value ∧ view.known = none
  known : ∀ {e : Expr}, view.known = some e → Denotes guards ρ e value
  flushed : view.flushed = true → listed = value
  cached : view.flushed = false → view.concrete = true ∨ view.known ≠ none

structure Represents (guards : Guards) (ρ : Assignment) (os : ObjectState) (c : Contents) :
    Prop where
  narrow : os.size < 2 ^ 32
  updates : os.updates.Valid guards os.size
  bytes : ∀ i, i < os.size → (os.view i).Holds guards ρ (os.updates.byte ρ os.size i) (c i)

namespace Represents

variable {c : Contents}

section

variable {os' : ObjectState} {view : ByteView} (represents : Represents guards ρ os c)
  (same : SameUpdates os os') (views : os'.view = Function.update os.view offset view)
include represents same views

theorem update {value : BitVec 8} (holds : offset < os.size → view.Holds guards ρ (os.updates.byte ρ os.size offset) value) :
    Represents guards ρ os' (Function.update c offset value) := by
  refine ⟨same.size ▸ represents.narrow, ?_, ?_⟩
  · rw [same.updates, same.size]
    exact represents.updates
  · intro i within
    rw [same.size] at within
    rw [same.updates, same.size, views]
    by_cases written : i = offset
    · subst written
      simpa using holds within
    · simpa [written] using represents.bytes i within

theorem reheld
    (holds : offset < os.size → view.Holds guards ρ (os.updates.byte ρ os.size offset) (c offset)) : Represents guards ρ os' c := by
  have updated := represents.update same views holds
  rwa [Function.update_eq_self] at updated

end

end Represents

namespace ObjectState

theorem write8Concrete_view (os : ObjectState) (offset : Nat) (value : BitVec 8) :
    (os.write8Concrete offset value).view = Function.update os.view offset ⟨true, false, none, value⟩ := by
  rw [write8Concrete, view_markByteUnflushed, view_markByteConcrete, view_setKnownSymbolic]
  funext i
  by_cases same : i = offset
  · subst same
    simp [view]
  · simp [view, same, isByteConcrete, isByteFlushed, knownSymbolic?]

theorem write8Concrete_frame (os : ObjectState) (offset : Nat) (value : BitVec 8) : SameUpdates os (os.write8Concrete offset value) := by
  have stored : SameUpdates os { os with concreteStore := Function.update os.concreteStore offset value } :=
    ⟨⟨rfl, rfl, rfl, rfl⟩, rfl⟩
  exact stored.trans ((setKnownSymbolic_frame _ offset none).trans
    ((markByteConcrete_frame _ offset).trans (markByteUnflushed_frame _ offset)))

theorem write8Concrete_represents {c : Contents} (represents : Represents guards ρ os c) (offset : Nat) (value : BitVec 8) :
    Represents guards ρ (os.write8Concrete offset value) (Function.update c offset value) :=
  represents.update (os.write8Concrete_frame offset value) (os.write8Concrete_view offset value)
    fun _ => ⟨fun _ => ⟨rfl, rfl⟩, nofun, nofun, fun _ => .inl rfl⟩

theorem write8_frame (os : ObjectState) (offset : Nat) (value : Expr) : SameUpdates os (os.write8 offset value) := by
  rw [write8]
  cases value.constant? with
  | some ce => exact os.write8Concrete_frame offset _
  | none =>
    exact (os.setKnownSymbolic_frame offset (some value)).trans
      ((markByteSymbolic_frame _ offset).trans (markByteUnflushed_frame _ offset))

theorem write8_view (os : ObjectState) (offset : Nat) {value : Expr} (symbolic : value.constant? = none) :
    (os.write8 offset value).view = Function.update os.view offset ⟨false, false, some value, os.concreteStore offset⟩ := by
  simp only [write8, symbolic]
  rw [view_markByteUnflushed, view_markByteSymbolic, view_setKnownSymbolic]
  simp [ObjectState.view]

theorem write8_represents {c : Contents} (represents : Represents guards ρ os c)
    (offset : Nat) {value : Expr} {content : BitVec 8} (denotes : Denotes guards ρ value content) :
    Represents guards ρ (os.write8 offset value) (Function.update c offset content) := by
  cases isConstant : value.constant? with
  | some ce =>
    cases denotes.constant? isConstant
    simpa [write8, isConstant] using write8Concrete_represents represents offset content
  | none =>
    apply represents.update (os.write8_frame offset value) (os.write8_view offset isConstant)
    intro _
    exact ⟨nofun, fun same => Option.some.inj same ▸ denotes, nofun, fun _ => .inr nofun⟩

end ObjectState

end Represents

end NeuroMerge.Memory
