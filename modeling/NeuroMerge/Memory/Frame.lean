import NeuroMerge.Memory.ArrayLaw

/-!
# Accesses change bytes only

Accesses are made of a few steps, so a relation that these obey holds between an object
and what any access makes of it. The size, the owner and the protection of the object
stay as they are, and no byte gets a known expression that is held concretely.
-/

namespace NeuroMerge.Memory

open Symbolic ObjectState

variable {o : Options} {context : Context} {fuel id : Nat} {os : ObjectState} {R : ObjectState → ObjectState → Prop}

/-- The steps that accesses are made of obey the relation. -/
structure Stable (R : ObjectState → ObjectState → Prop) : Prop where
  refl : ∀ os, R os os
  trans : ∀ {os os' os''}, R os os' → R os' os'' → R os os''
  updates : ∀ os updates, R os { os with updates := updates }
  withFlushMask : ∀ os : ObjectState, R os os.withFlushMask
  markByteFlushed : ∀ (os : ObjectState) offset, R os (os.markByteFlushed offset)
  markByteSymbolic : ∀ (os : ObjectState) offset, R os (os.markByteSymbolic offset)
  setKnownSymbolic : ∀ (os : ObjectState) offset, R os (os.setKnownSymbolic offset none)
  write8Concrete : ∀ (os : ObjectState) offset value, R os (os.write8Concrete offset value)
  write8 : ∀ (os : ObjectState) offset value, R os (os.write8 offset value)

/-- Whatever a computation leaves of the object obeys the relation. -/
abbrev Keeps (R : ObjectState → ObjectState → Prop) (os : ObjectState) {α : Type}
    (state : α → ObjectState) (computation : Except Fault α) : Prop :=
  Satisfies (fun _ => True) (fun result => R os (state result)) computation

variable {α : Type}

theorem Keeps.after {β : Type} {state : β → ObjectState} {first : Except Fault α}
    {next : α → Except Fault β} (after : ∀ value, Keeps R os state (next value)) : Keeps R os state (first >>= next) :=
  .bind .self fun value _ => after value

variable {state : α → ObjectState}

theorem Keeps.require {condition : Prop} [Decidable condition] {failed : Assertion}
    {next : Except Fault α} (after : Keeps R os state next) : Keeps R os state (Symbolic.require condition failed >>= fun _ => next) :=
  .after fun _ => after

theorem Keeps.foldlM {γ : Type} {items : List γ} {body : α → γ → Except Fault α} {initial : α}
    (start : R os (state initial)) (each : ∀ item current, R os (state current) →
      Keeps R os state (body current item)) : Keeps R os state (items.foldlM body initial) :=
  .foldlM_const start fun item _ current frame => each item current frame

theorem Keeps.thrown {fault : Fault} : Keeps R os state (throw fault) := trivial

namespace Stable

variable (stable : Stable R)
include stable

theorem after {os' : ObjectState} {computation : Except Fault α} (frame : R os os')
    (keeps : Keeps R os' state computation) : Keeps R os state computation :=
  keeps.mono fun _ frame' => stable.trans frame frame'

theorem flushByte_keeps (os : ObjectState) (offset : Nat) : Keeps R os (fun os => os) (os.flushByte offset) := by
  rw [flushByte]
  split
  · apply Keeps.after
    intro updates
    exact stable.updates os updates
  · split
    · apply Keeps.after
      intro updates
      exact stable.updates os updates
    · exact .thrown

theorem flushRangeForRead_keeps (os : ObjectState) (base size : Nat) : Keeps R os (fun os => os) (os.flushRangeForRead base size) := by
  refine .foldlM ?_ ?_
  · exact stable.withFlushMask os
  · intro offset state frame
    split
    · exact frame
    · apply (stable.flushByte_keeps state offset).bind
      intro flushed frame'
      exact stable.trans (stable.trans frame frame') (stable.markByteFlushed flushed offset)

theorem flushRangeForWrite_keeps (os : ObjectState) (base size : Nat) : Keeps R os (fun os => os) (os.flushRangeForWrite base size) := by
  refine .foldlM ?_ ?_
  · exact stable.withFlushMask os
  · intro offset state frame
    split
    · split
      · exact stable.trans frame (stable.markByteSymbolic state offset)
      · split
        · exact stable.trans frame (stable.setKnownSymbolic state offset)
        · exact frame
    · apply (stable.flushByte_keeps state offset).bind
      intro flushed frame'
      split
      · exact stable.trans (stable.trans frame frame') (stable.trans
          (stable.markByteSymbolic flushed offset) (stable.markByteFlushed _ offset))
      · exact stable.trans (stable.trans frame frame') (stable.trans
          (stable.setKnownSymbolic flushed offset) (stable.markByteFlushed _ offset))

theorem getUpdates_keeps (os : ObjectState) (id : Nat) : Keeps R os (fun result => result.2.1) (os.getUpdates id) := by
  rw [getUpdates]
  cases os.updates.root with
  | some root => exact stable.refl os
  | none =>
    apply Keeps.after
    intro array
    apply Keeps.after
    intro updates
    exact stable.updates os updates

theorem read8_keeps (os : ObjectState) (id offset : Nat) : Keeps R os (fun result => result.2.1) (os.read8 o fuel id offset) := by
  rw [read8]
  split
  · exact stable.refl os
  · split
    · exact stable.refl os
    · apply Keeps.require
      apply (stable.getUpdates_keeps os id).bind
      intro result frame
      dsimp only
      split
      · apply Keeps.after
        intro value
        exact frame
      · exact Keeps.thrown

theorem read8Symbolic_keeps (os : ObjectState) (id : Nat) (offset : Expr) :
    Keeps R os (fun result => result.2.1) (os.read8Symbolic o fuel id offset) := by
  apply Keeps.require
  apply (stable.flushRangeForRead_keeps os _ _).bind
  intro flushed frame
  apply (stable.getUpdates_keeps flushed id).bind
  intro result frame'
  apply Keeps.after
  intro index
  split
  · apply Keeps.after
    intro value
    exact stable.trans frame frame'
  · exact .thrown

theorem write8Symbolic_keeps (os : ObjectState) (offset value : Expr) :
    Keeps R os (fun os => os) (os.write8Symbolic fuel offset value) := by
  apply Keeps.require
  apply (stable.flushRangeForWrite_keeps os _ _).bind
  intro flushed frame
  apply Keeps.after
  intro index
  apply Keeps.after
  intro updates
  exact stable.trans frame (stable.updates flushed updates)

theorem readBytes_keeps (os : ObjectState) (id n : Nat) {readByte : ObjectState → Nat → Nat → Except Fault (Expr × ObjectState × Nat)}
    (each : ∀ os id i, Keeps R os (fun result => result.2.1) (readByte os id i)) :
    Keeps R os (fun result => result.2.1) (os.readBytes context fuel id readByte n) := by
  apply Keeps.foldlM (stable.refl os)
  intro i state frame
  obtain ⟨res, os', id'⟩ := state
  apply (each os' id' (byteIndex context n i)).bind
  intro result frame'
  cases res with
  | none => exact stable.trans frame frame'
  | some res =>
    apply Keeps.after
    intro joined
    exact stable.trans frame frame'

theorem read_keeps (os : ObjectState) (id offset width : Nat) :
    Keeps R os (fun result => result.2.1) (os.read o context fuel id offset width) := by
  rw [ObjectState.read]
  split
  · apply (stable.read8_keeps os id offset).bind
    intro result frame
    apply Keeps.after
    intro bit
    exact frame
  · apply Keeps.require
    apply stable.readBytes_keeps os id
    intro os' id' i
    exact stable.read8_keeps os' id' (offset + i)

theorem readExpr_keeps (os : ObjectState) (id : Nat) (offset : Expr) (width : Nat) :
    Keeps R os (fun result => result.2.1) (os.readExpr o context fuel id offset width) := by
  apply Keeps.after
  intro position
  split
  · exact stable.read_keeps os id _ width
  · split
    · apply (stable.read8Symbolic_keeps os id position).bind
      intro result frame
      apply Keeps.after
      intro bit
      exact frame
    · apply Keeps.require
      apply stable.readBytes_keeps os id
      intro os' id' i
      apply Keeps.after
      intro index
      exact stable.read8Symbolic_keeps os' id' index

theorem writeNumber_keeps (os : ObjectState) (offset numBytes value : Nat) : R os (os.writeNumber context offset numBytes value) := by
  rw [ObjectState.writeNumber]
  generalize List.range numBytes = positions
  induction positions generalizing os with
  | nil => exact stable.refl os
  | cons i rest ih =>
    exact stable.trans (stable.write8Concrete os _ _) (ih _)

theorem writeBytes_keeps (os : ObjectState) (value : Expr) {writeByte : ObjectState → Nat → Expr → Except Fault ObjectState}
    (each : ∀ os i byte, Keeps R os (fun os => os) (writeByte os i byte)) :
    Keeps R os (fun os => os) (os.writeBytes context fuel writeByte value) := by
  apply Keeps.require
  apply Keeps.foldlM (stable.refl os)
  intro i state frame
  apply Keeps.after
  intro byte
  exact stable.after frame (each state _ byte)

theorem writeGeneral_keeps (os : ObjectState) (offset : Nat) (value : Expr) :
    Keeps R os (fun os => os) (os.writeGeneral context fuel offset value) := by
  rw [writeGeneral]
  split
  · apply Keeps.after
    intro byte
    exact stable.write8 os offset byte
  · apply stable.writeBytes_keeps os value
    intro os' i byte
    exact stable.write8 os' (offset + i) byte

theorem write_keeps (os : ObjectState) (offset : Nat) (value : Expr) :
    Keeps R os (fun os => os) (os.write context fuel offset value) := by
  rw [ObjectState.write]
  split
  · split
    · split
      · exact stable.write8Concrete os offset _
      · split
        · exact stable.writeNumber_keeps os offset _ _
        · exact .thrown
    · exact stable.writeGeneral_keeps os offset value
  · exact stable.writeGeneral_keeps os offset value

theorem writeExpr_keeps (os : ObjectState) (offset value : Expr) :
    Keeps R os (fun os => os) (os.writeExpr o context fuel offset value) := by
  apply Keeps.after
  intro position
  split
  · exact stable.write_keeps os _ value
  · split
    · apply Keeps.after
      intro byte
      exact stable.write8Symbolic_keeps os position byte
    · apply stable.writeBytes_keeps os value
      intro os' i byte
      apply Keeps.after
      intro index
      exact stable.write8Symbolic_keeps os' index byte

theorem perform_keeps (access : Access) (os : ObjectState) (id : Nat) :
    Keeps R os (fun result => result.2.1) (access.perform o context fuel os id) := by
  cases access with
  | read offset width => exact stable.read_keeps os id offset width
  | readExpr offset width => exact stable.readExpr_keeps os id offset width
  | write offset value =>
    apply (stable.write_keeps os offset value).bind
    intro os' frame
    exact frame
  | writeExpr offset value =>
    apply (stable.writeExpr_keeps os offset value).bind
    intro os' frame
    exact frame
  | writeNumber offset width value => exact stable.writeNumber_keeps os offset _ _

end Stable

theorem stable_sameFrame : Stable SameFrame where
  refl := SameFrame.refl
  trans := SameFrame.trans
  updates _ _ := ⟨rfl, rfl, rfl, rfl⟩
  withFlushMask _ := ⟨rfl, rfl, rfl, rfl⟩
  markByteFlushed os offset := (os.markByteFlushed_frame offset).toSameFrame
  markByteSymbolic os offset := (os.markByteSymbolic_frame offset).toSameFrame
  setKnownSymbolic os offset := (os.setKnownSymbolic_frame offset none).toSameFrame
  write8Concrete os offset value := (os.write8Concrete_frame offset value).toSameFrame
  write8 os offset value := (os.write8_frame offset value).toSameFrame

/-- An access leaves what is not a byte alone, also the owner. -/
abbrev KeepsFrame (os : ObjectState) {α : Type} (state : α → ObjectState)
    (computation : Except Fault α) : Prop :=
  Satisfies (fun _ => True) (fun result => SameFrame os (state result)) computation

theorem Access.perform_frame (access : Access) (os : ObjectState) (id : Nat) :
    KeepsFrame os (fun result => result.2.1) (access.perform o context fuel os id) :=
  stable_sameFrame.perform_keeps access os id

def ObjectState.Exclusive (os : ObjectState) : Prop :=
  ∀ i, os.isByteConcrete i = true → os.knownSymbolic? i = none

theorem ObjectState.Exclusive.update {os' : ObjectState} {view : ByteView} {offset : Nat}
    (exclusive : os.Exclusive) (views : os'.view = Function.update os.view offset view)
    (holds : view.concrete = true → view.known = none) : os'.Exclusive := by
  intro i concrete
  have here := congrFun views i
  by_cases same : i = offset
  · subst same
    rw [Function.update_self] at here
    subst here
    exact holds concrete
  · rw [Function.update_of_ne same] at here
    have known := congrArg ByteView.known here
    have held := congrArg ByteView.concrete here
    exact known.trans (exclusive i (held.symm.trans concrete))

theorem stable_exclusive : Stable fun os os' => os.Exclusive → os'.Exclusive where
  refl _ := id
  trans first second := second ∘ first
  updates _ _ := id
  withFlushMask _ := id
  markByteFlushed os offset := by
    rw [ObjectState.markByteFlushed]
    split
    · exact id
    · exact id
  markByteSymbolic os offset exclusive := exclusive.update (os.view_markByteSymbolic offset) (by rintro ⟨⟩)
  setKnownSymbolic os offset exclusive := exclusive.update (os.view_setKnownSymbolic offset none) fun _ => rfl
  write8Concrete os offset value exclusive := exclusive.update (os.write8Concrete_view offset value) fun _ => rfl
  write8 os offset value exclusive := by
    cases isConstant : value.constant? with
    | some ce =>
      rw [ObjectState.write8, isConstant]
      exact exclusive.update (os.write8Concrete_view offset _) fun _ => rfl
    | none => exact exclusive.update (os.write8_view offset isConstant) (by rintro ⟨⟩)

end NeuroMerge.Memory
