import NeuroMerge.Memory.Representation

/-!
# Flushing and the lazy constant array

Flushing writes bytes to the update list, and the array under the update list
comes into being with the first read that needs it. Both change how bytes are
held and never what they are, so every access to a byte finds it.
-/

namespace NeuroMerge.Memory

open List Symbolic ObjectState

variable {guards : Guards} {ρ : Assignment} {o : Options} {fuel id : Nat} {os : ObjectState} {offset i : Nat}

variable {updates : UpdateList} {view : ByteView}

section Flush

variable {c : Contents} {tolerated : Fault → Prop}

theorem ofNat_eq_iff (left : offset < 2 ^ 32) (right : i < 2 ^ 32) : BitVec.ofNat 32 offset = BitVec.ofNat 32 i ↔ i = offset := by
  rw [← BitVec.toNat_inj, BitVec.toNat_ofNat, BitVec.toNat_ofNat, Nat.mod_eq_of_lt left, Nat.mod_eq_of_lt right, eq_comm]

namespace Represents

theorem flushByte (represents : Represents guards ρ os c) (within : offset < os.size)
    (unflushed : os.isByteFlushed offset = false) : ∃ updates, os.flushByte offset = .ok { os with updates := updates } ∧
      updates.Valid guards os.size ∧
      ∀ i, i < os.size → updates.byte ρ os.size i =
        if i = offset then c offset else os.updates.byte ρ os.size i := by
  have narrow := represents.narrow
  have holds := represents.bytes offset within
  have index : Denotes guards ρ (.constant (.alloc offset 32)) (BitVec.ofNat 32 offset) := .alloc offset
  rw [ObjectState.flushByte]
  cases concrete : os.isByteConcrete offset with
  | true =>
    have stored : Denotes guards ρ (.constant ⟨8, os.concreteStore offset⟩) (c offset) := by
      rw [← (holds.concrete concrete).1]
      exact .constant _
    obtain ⟨updates, extended, valid, -, bytes⟩ := UpdateList.extend_valid represents.updates index stored
    refine ⟨updates, by rw [if_pos rfl, extended]; rfl, valid, ?_⟩
    intro i inside
    have position : BitVec.ofNat 32 offset = BitVec.ofNat 32 i ↔ i = offset := ofNat_eq_iff (by omega) (by omega)
    simp only [bytes, position]
  | false =>
    obtain ⟨value, known⟩ := Option.ne_none_iff_exists'.mp ((holds.cached unflushed).resolve_left (by simp [ObjectState.view, concrete]))
    obtain ⟨updates, extended, valid, -, bytes⟩ := UpdateList.extend_valid represents.updates index (holds.known known)
    have known' : os.knownSymbolic? offset = some value := known
    refine ⟨updates, by simp only [known', Bool.false_eq_true, if_false, extended]; rfl, valid, ?_⟩
    intro i inside
    have position : BitVec.ofNat 32 offset = BitVec.ofNat 32 i ↔ i = offset := ofNat_eq_iff (by omega) (by omega)
    simp only [bytes, position]

theorem relist {os' : ObjectState} (represents : Represents guards ρ os c)
    (valid : updates.Valid guards os.size) (bytes : ∀ i, i < os.size → updates.byte ρ os.size i =
      if i = offset then c offset else os.updates.byte ρ os.size i) (same : SameUpdates { os with updates := updates } os')
    (views : os'.view = Function.update os.view offset view)
    (holds : offset < os.size → view.Holds guards ρ (c offset) (c offset)) :
    Represents guards ρ os' c := by
  have size : os'.size = os.size := same.size
  have sameUpdates : os'.updates = updates := same.updates
  refine ⟨size ▸ represents.narrow, by rwa [size, sameUpdates], ?_⟩
  intro i within
  rw [size] at within
  rw [size, sameUpdates, views, bytes i within]
  by_cases listed : i = offset
  · subst listed
    simpa using holds within
  · simpa [listed] using represents.bytes i within

end Represents

/-- The invariant of both flush loops; `done` is what they establish for a byte. -/
structure Flushing (guards : Guards) (ρ : Assignment) (c : Contents) (os : ObjectState)
    (done : ByteView → Prop) (seen : List Nat) (state : ObjectState) : Prop where
  represents : Represents guards ρ state c
  frame : SameFrame os state
  masked : state.flushMask ≠ none
  done : ∀ i ∈ seen, done (state.view i)

theorem Flushing.step {done : ByteView → Prop} {seen : List Nat} {state state' : ObjectState}
    (flushing : Flushing guards ρ c os done seen state) (represents : Represents guards ρ state' c)
    (frame : SameFrame state state') (masked : state'.flushMask ≠ none)
    (views : state'.view = Function.update state.view offset view) (finished : done view) :
    Flushing guards ρ c os done (seen ++ [offset]) state' := by
  refine ⟨represents, flushing.frame.trans frame, masked, ?_⟩
  intro i member
  rw [views]
  by_cases same : i = offset
  · subst same
    simpa using finished
  · rw [Function.update_of_ne same]
    exact flushing.done i (by simpa [same] using member)

theorem Represents.withFlushMask (represents : Represents guards ρ os c) : Represents guards ρ os.withFlushMask c := by
  refine ⟨represents.narrow, represents.updates, ?_⟩
  rw [os.view_withFlushMask]
  exact represents.bytes

theorem markByteFlushed_masked (os : ObjectState) (offset : Nat) : (os.markByteFlushed offset).flushMask ≠ none := by
  rw [markByteFlushed]
  split <;> rintro ⟨⟩

theorem markByteSymbolic_masked (masked : os.flushMask ≠ none) (offset : Nat) : (os.markByteSymbolic offset).flushMask ≠ none := masked

theorem setKnownSymbolic_masked (masked : os.flushMask ≠ none) (offset : Nat)
    (value : Option Expr) : (os.setKnownSymbolic offset value).flushMask ≠ none := by
  rw [setKnownSymbolic.eq_def]
  split <;> exact masked

theorem Flushing.start (represents : Represents guards ρ os c) (done : ByteView → Prop) :
    Flushing guards ρ c os done [] os.withFlushMask :=
  ⟨represents.withFlushMask, ⟨rfl, rfl, rfl, rfl⟩, nofun, nofun⟩

theorem flushRangeForRead_represents (represents : Represents guards ρ os c) :
    Satisfies tolerated
      (fun os' => Represents guards ρ os' c ∧ SameFrame os os' ∧
        ∀ i, i < os.size → os'.isByteFlushed i = true) (os.flushRangeForRead 0 os.size) := by
  have loop : Satisfies tolerated (Flushing guards ρ c os (fun view => view.flushed = true) (List.range' 0 os.size))
      (os.flushRangeForRead 0 os.size) := by
    apply Satisfies.foldlM (Flushing guards ρ c os fun view => view.flushed = true)
    · exact Flushing.start represents _
    · intro seen offset remaining state split flushing
      have within : offset < state.size := by
        have member : offset ∈ List.range' 0 os.size := by simp [split]
        rw [flushing.frame.size]
        simpa using member
      by_cases flushed : state.isByteFlushed offset = true
      · rw [if_pos flushed]
        refine ⟨flushing.represents, flushing.frame, flushing.masked, ?_⟩
        intro i member
        obtain old | new := List.mem_append.mp member
        · exact flushing.done i old
        · rw [List.mem_singleton.mp new]
          exact flushed
      · rw [if_neg flushed]
        rw [Bool.not_eq_true] at flushed
        obtain ⟨updates, extended, valid, bytes⟩ := flushing.represents.flushByte within flushed
        rw [extended]
        have frame := markByteFlushed_frame { state with updates := updates } offset
        have masked : ({ state with updates := updates } : ObjectState).flushMask ≠ none :=
          flushing.masked
        have views := view_markByteFlushed masked offset
        have holds := flushing.represents.bytes offset within
        apply flushing.step _ ⟨frame.size, frame.object, frame.readOnly, frame.owner⟩ (markByteFlushed_masked _ offset) views rfl
        apply flushing.represents.relist valid bytes frame views
        intro _
        exact ⟨holds.concrete, holds.known, fun _ => rfl, nofun⟩
  apply loop.mono
  intro os' flushing
  refine ⟨flushing.represents, flushing.frame, ?_⟩
  intro i within
  exact flushing.done i (by simpa using within)

def ByteView.OnlyListed (view : ByteView) : Prop :=
  view.concrete = false ∧ view.flushed = true ∧ view.known = none

theorem ByteView.OnlyListed.holds (only : view.OnlyListed) (value : BitVec 8) : view.Holds guards ρ value value where
  concrete isConcrete := absurd (only.1.symm.trans isConcrete) Bool.false_ne_true
  known isKnown := absurd (only.2.2.symm.trans isKnown) nofun
  flushed _ := rfl
  cached unflushed := absurd (only.2.1.symm.trans unflushed) nofun

theorem clearByte_view (masked : os.flushMask ≠ none) (uncached : os.isByteConcrete offset = true → os.knownSymbolic? offset = none) :
    SameUpdates os ((if os.isByteConcrete offset then os.markByteSymbolic offset
        else os.setKnownSymbolic offset none).markByteFlushed offset) ∧
      ((if os.isByteConcrete offset then os.markByteSymbolic offset
        else os.setKnownSymbolic offset none).markByteFlushed offset).flushMask ≠ none ∧
      ((if os.isByteConcrete offset then os.markByteSymbolic offset
        else os.setKnownSymbolic offset none).markByteFlushed offset).view =
        Function.update os.view offset ⟨false, true, none, os.concreteStore offset⟩ := by
  refine ⟨?_, markByteFlushed_masked _ offset, ?_⟩
  · split
    · exact (os.markByteSymbolic_frame offset).trans (markByteFlushed_frame _ offset)
    · exact (os.setKnownSymbolic_frame offset none).trans (markByteFlushed_frame _ offset)
  · split
    · rename_i concrete
      rw [view_markByteFlushed (markByteSymbolic_masked masked offset), view_markByteSymbolic]
      simp [ObjectState.view, uncached concrete]
    · rename_i concrete
      rw [view_markByteFlushed (setKnownSymbolic_masked masked offset none), view_setKnownSymbolic]
      simp [ObjectState.view, concrete]

theorem flushRangeForWrite_represents (represents : Represents guards ρ os c) :
    Satisfies tolerated
      (fun os' => Represents guards ρ os' c ∧ SameFrame os os' ∧
        ∀ i, i < os.size → (os'.view i).OnlyListed) (os.flushRangeForWrite 0 os.size) := by
  have loop : Satisfies tolerated (Flushing guards ρ c os ByteView.OnlyListed (List.range' 0 os.size))
      (os.flushRangeForWrite 0 os.size) := by
    apply Satisfies.foldlM (Flushing guards ρ c os ByteView.OnlyListed)
    · exact Flushing.start represents _
    · intro seen offset remaining state split flushing
      have within : offset < state.size := by
        have member : offset ∈ List.range' 0 os.size := by simp [split]
        rw [flushing.frame.size]
        simpa using member
      have holds := flushing.represents.bytes offset within
      by_cases flushed : state.isByteFlushed offset = true
      · rw [if_pos flushed]
        have listed := holds.flushed flushed
        cases concrete : state.isByteConcrete offset with
        | true =>
          have only : ByteView.OnlyListed { state.view offset with concrete := false } := ⟨rfl, flushed, (holds.concrete concrete).2⟩
          have same := state.markByteSymbolic_frame offset
          have views := state.view_markByteSymbolic offset
          have kept := flushing.represents.reheld same views fun _ =>
            listed ▸ only.holds _
          exact flushing.step kept same.toSameFrame flushing.masked views only
        | false =>
          cases known : state.knownSymbolic? offset with
          | some value =>
            have only : ByteView.OnlyListed { state.view offset with known := none } := ⟨concrete, flushed, rfl⟩
            have same := state.setKnownSymbolic_frame offset none
            have views := state.view_setKnownSymbolic offset none
            have kept := flushing.represents.reheld same views fun _ =>
              listed ▸ only.holds _
            exact flushing.step kept same.toSameFrame (setKnownSymbolic_masked flushing.masked offset none) views only
          | none =>
            have only : ByteView.OnlyListed (state.view offset) := ⟨concrete, flushed, known⟩
            exact flushing.step flushing.represents (SameFrame.refl state) flushing.masked
              (Function.update_eq_self offset state.view).symm only
      · rw [if_neg flushed]
        rw [Bool.not_eq_true] at flushed
        obtain ⟨updates, extended, valid, bytes⟩ := flushing.represents.flushByte within flushed
        rw [extended]
        have only : ByteView.OnlyListed ⟨false, true, none, state.concreteStore offset⟩ := ⟨rfl, rfl, rfl⟩
        obtain ⟨same, masked, views⟩ := @clearByte_view { state with updates := updates } offset
          flushing.masked fun concrete => (holds.concrete concrete).2
        have kept := flushing.represents.relist valid bytes same views fun _ => only.holds _
        exact flushing.step kept ⟨same.size, same.object, same.readOnly, same.owner⟩ masked views only
  apply loop.mono
  intro os' flushing
  refine ⟨flushing.represents, flushing.frame, ?_⟩
  intro i within
  exact flushing.done i (by simpa using within)

end Flush

variable {root : Symbolic.Array}

section ConstantArray

variable {size : Nat}

def applyWrites (ρ : Assignment) (c : Contents) (writes : List (Expr × Expr)) : Contents :=
  writes.foldl (fun c write i =>
    if write.1.eval ρ 32 = BitVec.ofNat 32 i then write.2.eval ρ 8 else c i) c

theorem applyWrites_append (c : Contents) (left right : List (Expr × Expr)) :
    applyWrites ρ c (left ++ right) = applyWrites ρ (applyWrites ρ c left) right :=
  foldl_append

theorem applyWrites_cons (c : Contents) (write : Expr × Expr) (rest : List (Expr × Expr)) :
    applyWrites ρ c (write :: rest) = applyWrites ρ (fun i =>
      if write.1.eval ρ 32 = BitVec.ofNat 32 i then write.2.eval ρ 8 else c i) rest := rfl

theorem applyWrites_congr {c c' : Contents} (same : c i = c' i) (writes : List (Expr × Expr)) :
    applyWrites ρ c writes i = applyWrites ρ c' writes i := by
  induction writes generalizing c c' with
  | nil => exact same
  | cons write rest ih =>
    apply ih
    simp only [same]

def WriteValid (guards : Guards) (write : Expr × Expr) : Prop :=
  (write.1.WellFormed guards ∧ write.1.width = 32) ∧ write.2.WellFormed guards ∧ write.2.width = 8

theorem writes_valid (domain : root.domain = 32) (range : root.range = 8) :
    ∀ head : UpdateNode, head.WellFormed guards root →
      ∀ write ∈ UpdateNode.writes head, WriteValid guards write
  | .null, _, write, member => by simp [UpdateNode.writes] at member
  | .node index value next, wellFormed, write, member => by
    obtain ⟨indexWellFormed, indexWidth, valueWellFormed, valueWidth, rest⟩ := wellFormed
    simp only [UpdateNode.writes, mem_append, mem_singleton] at member
    obtain old | rfl := member
    · exact writes_valid domain range next rest write old
    · exact ⟨⟨indexWellFormed, indexWidth.trans domain⟩, valueWellFormed, valueWidth.trans range⟩

theorem head_eval_writes (domain : root.domain = 32) (range : root.range = 8) (i : Nat) :
    ∀ head : UpdateNode,
      (head.eval ρ root (BitVec.ofNat root.domain i)).setWidth 8 =
        applyWrites ρ (fun i => ((UpdateNode.null).eval ρ root
          (BitVec.ofNat root.domain i)).setWidth 8) (UpdateNode.writes head) i
  | .null => rfl
  | .node index value next => by
    rw [UpdateList.head_eval_node domain range, UpdateNode.writes, applyWrites_append,
      applyWrites_cons, head_eval_writes domain range i next]
    rfl

def constantBytes (contents : List ConstantExpr) : Contents := fun i =>
  ((contents[i]?).map fun value => value.value.setWidth 8).getD 0

theorem pullConcreteWrites_length (contents : List ConstantExpr) (writes : List (Expr × Expr)) :
    (pullConcreteWrites contents writes).1.length = contents.length := by
  fun_induction pullConcreteWrites contents writes with
  | case1 contents index value rest ih => rw [ih, length_set]
  | case2 contents writes _ => rfl

theorem pullConcreteWrites_bytes (ρ : Assignment) (contents : List ConstantExpr)
    (writes : List (Expr × Expr)) (narrow : contents.length < 2 ^ 32) (widths : ∀ value ∈ contents, value.width = 8)
    (valid : ∀ write ∈ writes, WriteValid guards write) :
    (∀ value ∈ (pullConcreteWrites contents writes).1, value.width = 8) ∧
    (∀ write ∈ (pullConcreteWrites contents writes).2, WriteValid guards write) ∧
    ∀ i, i < contents.length →
      applyWrites ρ (constantBytes (pullConcreteWrites contents writes).1)
        (pullConcreteWrites contents writes).2 i = applyWrites ρ (constantBytes contents) writes i := by
  fun_induction pullConcreteWrites contents writes with
  | case1 contents index value rest ih =>
    have first := valid (.constant index, .constant value) (by simp)
    obtain ⟨⟨-, indexWidth⟩, -, valueWidth⟩ := first
    obtain ⟨pulled, remaining, same⟩ := ih (by rwa [length_set]) (fun value member => by
        obtain old | rfl := mem_or_eq_of_mem_set member
        · exact widths value old
        · exact valueWidth)
      fun write member => valid write (by simp [member])
    refine ⟨pulled, remaining, ?_⟩
    intro i within
    rw [same i (by rwa [length_set]), applyWrites_cons]
    apply applyWrites_congr
    obtain ⟨width, position⟩ := index
    obtain rfl : width = 32 := indexWidth
    simp only [constantBytes, Expr.eval, BitVec.setWidth_eq, getElem?_set]
    by_cases written : position.toNat = i
    · subst written
      simp [within]
    · have other : position ≠ BitVec.ofNat 32 i := by
        intro hit
        apply written
        rw [hit, BitVec.toNat_ofNat]
        exact Nat.mod_eq_of_lt (by omega)
      simp [written, other]
  | case2 contents writes _ => exact ⟨widths, valid, fun _ _ => rfl⟩

theorem extendAll_valid (valid : updates.Valid guards size) {writes : List (Expr × Expr)}
    (writesValid : ∀ write ∈ writes, WriteValid guards write) :
    ∃ extended, writes.foldlM (fun (updates : UpdateList) write => updates.extend write.1 write.2)
        updates = .ok extended ∧
      extended.Valid guards size ∧ extended.root = updates.root ∧
      ∀ i, extended.byte ρ size i = applyWrites ρ (updates.byte ρ size) writes i := by
  induction writes generalizing updates with
  | nil => exact ⟨updates, rfl, valid, rfl, fun _ => rfl⟩
  | cons write rest ih =>
    obtain ⟨⟨indexWellFormed, indexWidth⟩, valueWellFormed, valueWidth⟩ := writesValid write (by simp)
    obtain ⟨extended, extension, validExtended, root, bytes⟩ :=
      UpdateList.extend_valid (ρ := ρ) valid ⟨indexWellFormed, indexWidth, rfl⟩ ⟨valueWellFormed, valueWidth, rfl⟩
    obtain ⟨final, folds, validFinal, rootFinal, bytesFinal⟩ := ih validExtended fun write member => writesValid write (by simp [member])
    refine ⟨final, ?_, validFinal, rootFinal.trans root, ?_⟩
    · rw [foldlM_cons, extension]
      exact folds
    · intro i
      rw [bytesFinal, applyWrites_cons]
      apply applyWrites_congr
      rw [bytes i]

theorem constArray_byte {contents : List ConstantExpr} {array : Symbolic.Array}
    (created : createConstArray id contents = .ok array) (narrow : contents.length < 2 ^ 32) :
    UpdateList.Valid guards ⟨some array, .null⟩ contents.length ∧
      ∀ i, i < contents.length → UpdateList.byte ρ ⟨some array, .null⟩ contents.length i = constantBytes contents i := by
  rw [createConstArray, require] at created
  split at created
  · cases created
    refine ⟨⟨rfl, rfl, rfl, trivial⟩, ?_⟩
    intro i within
    have position : (BitVec.ofNat 32 i).toNat = i := by
      exact Nat.mod_eq_of_lt (by omega)
    simp only [UpdateList.byte, UpdateList.base, Option.getD_some, UpdateNode.eval,
      Array.initial, position, constantBytes, BitVec.setWidth_eq]
    change (contents.map fun value => value.value.setWidth 8)[i]?.getD _ = _
    rw [getElem?_map, getElem?_eq_getElem within]
    rfl
  · cases created

theorem zeroArray_byte (narrow : size < 2 ^ 32) (within : i < size) :
    ((UpdateNode.null).eval ρ (zeroArray size)
        (BitVec.ofNat (zeroArray size).domain i)).setWidth 8 = constantBytes (List.replicate size (.alloc 0 8)) i := by
  have position : (BitVec.ofNat (zeroArray size).domain i).toNat = i := by
    exact Nat.mod_eq_of_lt (by simpa [zeroArray] using by omega)
  have stored : (zeroArray size).constantValues[i]? = some 0 := getElem?_replicate_of_lt within
  rw [UpdateNode.eval, Array.initial, position, stored]
  simp [constantBytes, within, ConstantExpr.alloc]

theorem getUpdates_valid {tolerated : Fault → Prop} (narrow : os.size < 2 ^ 32) (updates : os.updates.Valid guards os.size) :
    Satisfies tolerated (fun result => result.2.1 = { os with updates := result.1 } ∧
        result.1.Valid guards os.size ∧ result.1.root ≠ none ∧
        ∀ i, i < os.size → result.1.byte ρ os.size i = os.updates.byte ρ os.size i)
      (os.getUpdates id) := by
  rw [getUpdates]
  cases root : os.updates.root with
  | some array => exact ⟨rfl, updates, by simp [root], fun _ _ => rfl⟩
  | none =>
    have base : os.updates.base os.size = zeroArray os.size := by
      simp [UpdateList.base, root]
    have writesValid := writes_valid updates.domain updates.range os.updates.head updates.wellFormed
    have pulled := pullConcreteWrites_bytes ρ (List.replicate os.size (.alloc 0 8))
      (UpdateNode.writes os.updates.head) (by simpa using narrow)
      (fun value member => by rw [eq_of_mem_replicate member]; rfl) writesValid
    have length := pullConcreteWrites_length (List.replicate os.size (.alloc 0 8)) (UpdateNode.writes os.updates.head)
    dsimp only
    generalize pullConcreteWrites (List.replicate os.size (.alloc 0 8)) (UpdateNode.writes os.updates.head) = result at pulled length
    obtain ⟨contents, writes⟩ := result
    obtain ⟨widths, remaining, same⟩ := pulled
    rw [length_replicate] at length same
    cases created : createConstArray (id + 1) contents with
    | error fault =>
      rw [createConstArray, require, if_pos widths] at created
      cases created
    | ok array =>
      obtain ⟨arrayValid, arrayBytes⟩ := constArray_byte (ρ := ρ) created (by rw [length]; exact narrow)
      rw [length] at arrayValid arrayBytes
      obtain ⟨extended, extension, valid, extendedRoot, bytes⟩ := extendAll_valid (ρ := ρ) arrayValid remaining
      have folded : (do
          let updates ← writes.foldlM (fun (updates : UpdateList) write => updates.extend write.1 write.2) ⟨some array, .null⟩
          pure (updates, { os with updates := updates }, id + 1) :
            Except Fault (UpdateList × ObjectState × Nat)) =
          .ok (extended, { os with updates := extended }, id + 1) := by
        rw [extension]
        rfl
      change Satisfies tolerated _ (do
          let updates ← writes.foldlM (fun (updates : UpdateList) write => updates.extend write.1 write.2) ⟨some array, .null⟩
          pure (updates, { os with updates := updates }, id + 1))
      rw [folded]
      refine ⟨rfl, valid, by simp [extendedRoot], ?_⟩
      intro i within
      rw [bytes, applyWrites_congr (arrayBytes i within), same i within, UpdateList.byte, head_eval_writes updates.domain updates.range]
      apply applyWrites_congr
      rw [base]
      exact (zeroArray_byte narrow within).symm

theorem getUpdates_represents {c : Contents} {tolerated : Fault → Prop} (represents : Represents guards ρ os c) :
    Satisfies tolerated
      (fun result => Represents guards ρ result.2.1 c ∧ SameFrame os result.2.1 ∧
        result.2.1.updates = result.1 ∧ result.2.1.view = os.view ∧ result.1.root ≠ none) (os.getUpdates id) := by
  apply (getUpdates_valid (ρ := ρ) represents.narrow represents.updates).mono
  intro result facts
  obtain ⟨updates, os', id'⟩ := result
  dsimp only at facts ⊢
  obtain ⟨rfl, valid, hasRoot, kept⟩ := facts
  refine ⟨⟨represents.narrow, valid, ?_⟩, ⟨rfl, rfl, rfl, rfl⟩, rfl, rfl, hasRoot⟩
  intro i within
  have holds := represents.bytes i within
  rw [← kept i within] at holds
  exact holds

end ConstantArray

variable {position : BitVec 32}

section Access

variable {c : Contents} {size : Nat}

/-- The guards let constant arrays be read wherever that is within bounds. -/
structure Admits (o : Options) (guards : Guards) (ρ : Assignment) : Prop where
  allowed : o.Allows guards ρ
  readable : ∀ {root : Symbolic.Array} {index : Expr},
    (index.eval ρ root.domain).toNat < root.size → root.size ≤ 2 ^ root.domain →
    guards.readable root index

theorem Admits.bounded : Admits o (Guards.bounded o ρ) ρ :=
  ⟨Guards.allows_bounded, fun within fits _ => ⟨within, fits⟩⟩

theorem Admits.safe : Admits o (Guards.safe o ρ) ρ :=
  ⟨Guards.allows_safe, fun within fits _ => ⟨within, fits⟩⟩

theorem readExpr_builds (admits : Admits o guards ρ) (valid : updates.Valid guards size)
    (narrow : size < 2 ^ 32) (isRoot : updates.root = some root) {index : Expr}
    (denotes : Denotes guards ρ index position) (within : position.toNat < size) :
    Builds guards ρ (updates.byte ρ size position.toNat) (ReadExpr.create o fuel root updates.head index) := by
  have base : updates.base size = root := by simp [UpdateList.base, isRoot]
  obtain ⟨domain, range, length, wellFormed⟩ := valid
  rw [UpdateList.byte]
  rw [base] at domain range length wellFormed ⊢
  obtain ⟨rootId, name, rootSize, domain', range', values, validSize⟩ := root
  subst domain range length
  have readable : guards.readable ⟨rootId, name, rootSize, 32, 8, values, validSize⟩ index := by
    apply admits.readable
    · dsimp only
      rw [denotes.value]
      exact within
    · exact Nat.le_of_lt narrow
  have builds : Builds guards ρ _ (ReadExpr.create o fuel _ updates.head index) :=
    ReadExpr.create_builds admits.allowed wellFormed denotes (show 32 ≤ 64 by decide) fun _ => readable
  refine builds.of_eq ?_
  rw [BitVec.setWidth_eq, BitVec.ofNat_toNat, BitVec.setWidth_eq]

namespace ObjectState

theorem read8_represents (admits : Admits o guards ρ) (represents : Represents guards ρ os c) (within : offset < os.size) :
    Satisfies (Excused guards ρ)
      (fun result => Denotes guards ρ result.1 (c offset) ∧
        Represents guards ρ result.2.1 c ∧ SameFrame os result.2.1) (os.read8 o fuel id offset) := by
  have holds := represents.bytes offset within
  have narrow := represents.narrow
  rw [read8]
  cases concrete : os.isByteConcrete offset with
  | true =>
    have stored : os.concreteStore offset = c offset := (holds.concrete concrete).1
    refine ⟨?_, represents, SameFrame.refl os⟩
    rw [← stored]
    exact .constant _
  | false =>
    cases known : os.knownSymbolic? offset with
    | some value => exact ⟨holds.known known, represents, SameFrame.refl os⟩
    | none =>
      have flushed : os.isByteFlushed offset = true := by
        by_contra unflushed
        rw [Bool.not_eq_true] at unflushed
        cases holds.cached unflushed with
        | inl isConcrete => exact absurd (concrete.symm.trans isConcrete) Bool.false_ne_true
        | inr isKnown => exact isKnown known
      apply require_satisfies _ fun fails => absurd flushed fails
      intro _
      apply Satisfies.bind (getUpdates_represents represents)
      intro result facts
      obtain ⟨updates, os', id'⟩ := result
      obtain ⟨represents', frame, isUpdates, views, hasRoot⟩ := facts
      dsimp only at represents' frame isUpdates views hasRoot
      subst isUpdates
      have within' : offset < os'.size := by rwa [frame.size]
      have holds' := represents'.bytes offset within'
      rw [views] at holds'
      cases root : os'.updates.root with
      | none => exact absurd root hasRoot
      | some root =>
        have position : (BitVec.ofNat 32 offset).toNat = offset := by
          exact Nat.mod_eq_of_lt (by omega)
        simp only [root]
        apply Satisfies.bind (readExpr_builds admits represents'.updates represents'.narrow root (.alloc offset) (by rwa [position]))
        intro value denotes
        rw [position, holds'.flushed flushed] at denotes
        exact ⟨denotes, represents', frame⟩

theorem read8Symbolic_represents (admits : Admits o guards ρ)
    (represents : Represents guards ρ os c) {offset : Expr} (symbolic : offset.constant? = none)
    (denotes : Denotes guards ρ offset position) (within : position.toNat < os.size) :
    Satisfies (Excused guards ρ)
      (fun result => Denotes guards ρ result.1 (c position.toNat) ∧
        Represents guards ρ result.2.1 c ∧ SameFrame os result.2.1) (os.read8Symbolic o fuel id offset) := by
  apply require_satisfies _ fun fails => absurd symbolic fails
  intro _
  apply Satisfies.bind (flushRangeForRead_represents represents)
  intro flushedState facts
  obtain ⟨representsFlushed, frameFlushed, flushed⟩ := facts
  apply Satisfies.bind (getUpdates_represents representsFlushed)
  intro result facts
  obtain ⟨updates, os', id'⟩ := result
  obtain ⟨represents', frame, isUpdates, views, hasRoot⟩ := facts
  dsimp only at represents' frame isUpdates views hasRoot
  subst isUpdates
  apply Satisfies.bind (ZExtExpr.create_builds (w := 32) denotes (by decide))
  intro index denotesIndex
  rw [BitVec.setWidth_eq] at denotesIndex
  have size : os'.size = os.size := frame.size.trans frameFlushed.size
  have within' : position.toNat < os'.size := by rwa [size]
  have holds' := represents'.bytes position.toNat within'
  cases root : os'.updates.root with
  | none => exact absurd root hasRoot
  | some root =>
    apply Satisfies.bind (readExpr_builds admits represents'.updates represents'.narrow root denotesIndex within')
    intro value denotesValue
    have isFlushed : (os'.view position.toNat).flushed = true := by
      rw [views]
      exact flushed position.toNat within
    rw [holds'.flushed isFlushed] at denotesValue
    exact ⟨denotesValue, represents', frameFlushed.trans frame⟩

theorem write8Symbolic_represents (represents : Represents guards ρ os c) {offset value : Expr}
    {content : BitVec 8} (symbolic : offset.constant? = none)
    (denotes : Denotes guards ρ offset position) (denotesValue : Denotes guards ρ value content) :
    Satisfies (Excused guards ρ)
      (fun os' => Represents guards ρ os' (Function.update c position.toNat content) ∧
        SameFrame os os') (os.write8Symbolic fuel offset value) := by
  apply require_satisfies _ fun fails => absurd symbolic fails
  intro _
  apply Satisfies.bind (flushRangeForWrite_represents represents)
  intro state facts
  obtain ⟨representsState, frame, only⟩ := facts
  apply Satisfies.bind (ZExtExpr.create_builds (w := 32) denotes (by decide))
  intro index denotesIndex
  rw [BitVec.setWidth_eq] at denotesIndex
  obtain ⟨updates, extended, valid, -, bytes⟩ := UpdateList.extend_valid representsState.updates denotesIndex denotesValue
  rw [extended]
  refine ⟨⟨representsState.narrow, valid, ?_⟩, frame.size, frame.object, frame.readOnly, frame.owner⟩
  intro i within
  have narrow := representsState.narrow
  have within' : i < state.size := within
  have onlyListed := only i (by rwa [← frame.size])
  have listed := (representsState.bytes i within').flushed onlyListed.2.1
  have written : updates.byte ρ state.size i = Function.update c position.toNat content i := by
    have hit : position = BitVec.ofNat 32 i ↔ i = position.toNat := by
      rw [← BitVec.toNat_inj, BitVec.toNat_ofNat, Nat.mod_eq_of_lt (by omega), eq_comm]
    rw [bytes, listed, Function.update_apply]
    simp only [hit]
  rw [written]
  exact onlyListed.holds _

end ObjectState

end Access

end NeuroMerge.Memory
