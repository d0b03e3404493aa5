import Mathlib.Data.BitVec
import Mathlib.Tactic.LinearCombination
import Mathlib.Tactic.Ring
import NeuroMerge.Foundations.Fuel
import NeuroMerge.Module.DataLayout

/-!
# Offsets

The distance that a `getelementptr` goes, as LLVM defines it, and what `computeOffsets` makes
of it. Distances are integers, of which only the remainder by the pointer width matters.
-/

namespace NeuroMerge.Module

open Symbolic (BinaryKind ConstantExpr Fault require)

variable {α : Type} {width : Nat → Nat}

/-!
## What is meant
-/

abbrev IndexValue : Type := Σ n, BitVec n

def Operand.value (registers : (number : Nat) → BitVec (width number)) : Operand → IndexValue
  | constantInt value | constant value => ⟨value.width, value.value⟩
  | register number => ⟨width number, registers number⟩

def Operand.toInt (registers : (number : Nat) → BitVec (width number)) (operand : Operand) : Int :=
  (operand.value registers).2.toInt

namespace Ty

/-- `GetElementPtrInst::getIndexedType`: the type that the indices lead to, if there is one. -/
def indexedType : Ty α → List Operand → Option (Ty α)
  | type, [] => some type
  | type, operand :: rest =>
    match type.typeAtIndex operand with
    | none => none
    | some next => next.indexedType rest

section Distance

variable (perElement : Ty α → Int) (ofField : List (Ty α) → Nat → Int) (index : Operand → Int)

def stepDistance : Ty α → Operand → Int
  | primitive _, _ => 0
  | pointer element, operand | array _ element, operand | vector _ element, operand =>
    index operand * perElement element
  | struct elements, operand =>
    match operand.constantInt? with
    | none => 0
    | some ci => ofField elements (fieldNumber ci)

def distance : Ty α → List Operand → Int
  | _, [] => 0
  | type, operand :: rest =>
    stepDistance perElement ofField index type operand +
      match type.typeAtIndex operand with
      | none => 0
      | some next => next.distance rest

end Distance

end Ty

namespace DataLayout

variable (layout : DataLayout α) (index : Operand → Int)

def fieldOffset (elements : List (Ty α)) (field : Nat) : Int :=
  layout.getElementOffset elements field

/-- `DataLayout::getIndexedOffsetInType`, which is the meaning of the indices. -/
def getIndexedOffset (type : Ty α) (indices : List Operand) : Int :=
  type.distance (fun element => layout.getTypeAllocSize element) layout.fieldOffset index indices

def storedOffset (type : Ty α) (indices : List Operand) : Int :=
  type.distance (fun element => layout.getTypeStoreSize element) layout.fieldOffset index indices

def padding (type : Ty α) : Nat := layout.getTypeAllocSize type - layout.getTypeStoreSize type

def skippedPadding (type : Ty α) (indices : List Operand) : Int :=
  type.distance (fun element => layout.padding element) (fun _ _ => 0) index indices

end DataLayout

section Linear

variable {perElement perElement' : Ty α → Int} {ofField ofField' : List (Ty α) → Nat → Int} {index : Operand → Int}

theorem Ty.stepDistance_add (type : Ty α) (operand : Operand) :
    type.stepDistance (fun element => perElement element + perElement' element)
        (fun elements field => ofField elements field + ofField' elements field) index operand =
      type.stepDistance perElement ofField index operand + type.stepDistance perElement' ofField' index operand := by
  cases type with
  | primitive => rfl
  | pointer element | array _ element | vector _ element => exact Int.mul_add _ _ _
  | struct elements =>
    simp only [stepDistance]
    cases operand.constantInt? with
    | none => rfl
    | some ci => rfl

theorem Ty.distance_add (type : Ty α) (indices : List Operand) :
    type.distance (fun element => perElement element + perElement' element)
        (fun elements field => ofField elements field + ofField' elements field) index indices =
      type.distance perElement ofField index indices + type.distance perElement' ofField' index indices := by
  induction indices generalizing type with
  | nil => rfl
  | cons operand rest ih =>
    simp only [distance, stepDistance_add]
    cases type.typeAtIndex operand with
    | none =>
      ring
    | some next =>
      dsimp only
      rw [ih next]
      ring

end Linear

variable {layout : DataLayout α} {index : Operand → Int}

theorem DataLayout.getIndexedOffset_eq (type : Ty α) (indices : List Operand) :
    layout.getIndexedOffset index type indices = layout.storedOffset index type indices + layout.skippedPadding index type indices := by
  rw [storedOffset, skippedPadding, ← Ty.distance_add, getIndexedOffset]
  congr 1
  funext element
  rw [padding, Int.natCast_sub (layout.store_le_alloc element)]
  exact (add_sub_cancel _ _).symm

theorem ofInt_eq_ofInt_iff {w : Nat} {x y : Int} : BitVec.ofInt w x = BitVec.ofInt w y ↔ (2 ^ w : Int) ∣ y - x := by
  rw [← BitVec.toInt_inj, BitVec.toInt_ofInt, BitVec.toInt_ofInt, eq_comm,
    Int.bmod_eq_bmod_iff_bmod_sub_eq_zero, ← Int.dvd_iff_bmod_eq_zero, Int.natCast_pow]
  rfl

/-- Elements next to each other are where they should be if the padding comes to nothing. -/
theorem DataLayout.storedOffset_eq_iff {w : Nat} {type : Ty α} {indices : List Operand} :
    BitVec.ofInt w (layout.storedOffset index type indices) =
        BitVec.ofInt w (layout.getIndexedOffset index type indices) ↔ (2 ^ w : Int) ∣ layout.skippedPadding index type indices := by
  rw [ofInt_eq_ofInt_iff, getIndexedOffset_eq, add_sub_cancel_left]

/-!
## What is computed
-/

def operandAt (registers : (number : Nat) → BitVec (width number)) (operands : List Operand)
    (position : Nat) : Int :=
  match operands[position]? with
  | none => 0
  | some operand => operand.toInt registers

def adjustment (valueAt : Nat → Int) (indices : List (Nat × Nat)) : Int :=
  (indices.map fun entry => valueAt entry.1 * entry.2).sum

theorem adjustment_append {valueAt : Nat → Int} (first second : List (Nat × Nat)) :
    adjustment valueAt (first ++ second) = adjustment valueAt first + adjustment valueAt second := by
  rw [adjustment, List.map_append, List.sum_append]
  rfl

/-- The constant part has grown from `v` to `v'`, and the rest of the distance waits for the
values of registers. -/
structure Advances (width : Nat → Nat) {w : Nat} (operands : List Operand)
    (distance : ((number : Nat) → BitVec (width number)) → Int) (v v' : BitVec w)
    (added : List (Nat × Nat)) : Prop where
  waits : ∀ entry ∈ added, ∃ number, operands[entry.1]? = some (.register number)
  total : ∀ registers, v' + BitVec.ofInt w (adjustment (operandAt registers operands) added) =
    v + BitVec.ofInt w (distance registers)

namespace Advances

variable {w : Nat} {operands : List Operand} {v v' v'' : BitVec w} {added added' : List (Nat × Nat)}
  {distance distance' : ((number : Nat) → BitVec (width number)) → Int}

theorem refl : Advances width operands (fun _ => 0) v v [] := ⟨nofun, fun _ => rfl⟩

theorem trans (first : Advances width operands distance v v' added) (second : Advances width operands distance' v' v'' added') :
    Advances width operands (fun registers => distance registers + distance' registers) v v'' (added ++ added') where
  waits entry member := by
    rw [List.mem_append] at member
    cases member with
    | inl earlier => exact first.waits entry earlier
    | inr later => exact second.waits entry later
  total registers := by
    have before := first.total registers
    have after := second.total registers
    rw [adjustment_append, BitVec.ofInt_add, BitVec.ofInt_add]
    linear_combination before + after

end Advances

theorem binary_eq {w : Nat} {kind : BinaryKind} (total : kind.isDivision = false) (a b : BitVec w) :
    (⟨w, a⟩ : ConstantExpr).binary kind ⟨w, b⟩ = .ok ⟨w, kind.apply a b⟩ := by
  rw [ConstantExpr.binary, if_neg (by simp [total]), BitVec.setWidth_eq]
  rfl

/-- What `computeOffsets` stores is a distance over elements that lie next to each other. -/
structure KGEPInstruction.Encodes (width : Nat → Nat) (layout : DataLayout α) (w : Nat)
    (gep : GetElementPtrInst α) (kgepi : KGEPInstruction) : Prop where
  offset : kgepi.offset < 2 ^ w
  waits : ∀ entry ∈ kgepi.indices, ∃ number, gep.operands[entry.1]? = some (.register number)
  total : ∀ registers : (number : Nat) → BitVec (width number),
    BitVec.ofInt w (adjustment (operandAt registers gep.operands) kgepi.indices) +
        BitVec.ofNat w kgepi.offset =
      BitVec.ofInt w (layout.storedOffset (Operand.toInt registers) gep.pointerType gep.indices)

section Spec

variable {w index : Nat} {operand : Operand} {operands : List Operand} {type next : Ty α}
  {v : BitVec w} {indices : List (Nat × Nat)}

theorem sequentialOffset_spec (elementSize : Nat) (found : operands[index]? = some operand) :
    ∃ v' added, sequentialOffset w elementSize operand index ⟨⟨w, v⟩, indices⟩ =
        .ok ⟨⟨w, v'⟩, indices ++ added⟩ ∧
      Advances width operands (fun registers => operand.toInt registers * elementSize) v v' added := by
  have scaled (c : ConstantExpr) : c.value.signExtend w * BitVec.ofNat w elementSize = BitVec.ofInt w (c.value.toInt * elementSize) := by
    rw [BitVec.ofInt_mul, BitVec.ofInt_natCast]
    rfl
  have known (c : ConstantExpr) (constant : operand.constant? = some c)
      (toInt : ∀ registers : (number : Nat) → BitVec (width number), operand.toInt registers = c.value.toInt) :
      ∃ v' added, sequentialOffset w elementSize operand index ⟨⟨w, v⟩, indices⟩ =
          .ok ⟨⟨w, v'⟩, indices ++ added⟩ ∧
        Advances width operands (fun registers => operand.toInt registers * elementSize) v v' added := by
    refine ⟨v + c.value.signExtend w * BitVec.ofNat w elementSize, [], ?_, nofun, ?_⟩
    · have scales : (c.sext w).binary .mul (.alloc elementSize w) =
          .ok ⟨w, c.value.signExtend w * BitVec.ofNat w elementSize⟩ := binary_eq rfl _ _
      have adds : (⟨w, v⟩ : ConstantExpr).binary .add ⟨w, c.value.signExtend w * BitVec.ofNat w elementSize⟩ =
            .ok ⟨w, v + c.value.signExtend w * BitVec.ofNat w elementSize⟩ := binary_eq rfl _ _
      simp only [sequentialOffset, constant, scales, adds, ok_bind, List.append_nil]
      rfl
    · intro registers
      rw [toInt, scaled]
      exact add_zero _
  cases operand with
  | constantInt c => exact known c rfl fun _ => rfl
  | constant c => exact known c rfl fun _ => rfl
  | register number =>
    refine ⟨v, [(index, elementSize)], rfl, ?_, fun registers => ?_⟩
    · intro entry member
      rw [List.mem_singleton] at member
      exact ⟨number, member ▸ found⟩
    · rw [adjustment, List.map_singleton, List.sum_singleton]
      simp only [operandAt, found]

theorem stepOffset_spec (found : operands[index]? = some operand) (leads : type.typeAtIndex operand = some next) :
    ∃ v' added, stepOffset layout w type operand index ⟨⟨w, v⟩, indices⟩ =
        .ok ⟨⟨w, v'⟩, indices ++ added⟩ ∧
      Advances width operands (fun registers => type.stepDistance
        (fun element => layout.getTypeStoreSize element) layout.fieldOffset (Operand.toInt registers) operand) v v' added := by
  cases type with
  | primitive => cases leads
  | pointer element | array _ element | vector _ element => exact sequentialOffset_spec _ found
  | struct elements =>
    cases constant : operand.constantInt? with
    | none =>
      rw [Ty.typeAtIndex, constant] at leads
      cases leads
    | some ci =>
      let offset := layout.getElementOffset elements (fieldNumber ci)
      have adds : (⟨w, v⟩ : ConstantExpr).binary .add (.alloc offset w) = .ok ⟨w, v + BitVec.ofNat w offset⟩ := binary_eq rfl _ _
      refine ⟨v + BitVec.ofNat w offset, [], ?_, nofun, fun registers => ?_⟩
      · simp only [stepOffset, constant, List.append_nil]
        rw [adds, ok_bind]
        rfl
      · simp only [Ty.stepDistance, constant, DataLayout.fieldOffset]
        exact add_zero _

theorem computeOffsetsFrom_spec (rest : List Operand) (isRest : operands.drop index = rest) (typed : (type.indexedType rest).isSome) :
    ∃ v' added, computeOffsetsFrom layout w type index ⟨⟨w, v⟩, indices⟩ rest =
        .ok ⟨⟨w, v'⟩, indices ++ added⟩ ∧
      Advances width operands (fun registers => layout.storedOffset (Operand.toInt registers) type rest) v v' added := by
  induction rest generalizing type index v indices with
  | nil => exact ⟨v, [], by rw [computeOffsetsFrom, List.append_nil]; rfl, .refl⟩
  | cons operand rest ih =>
    have found : operands[index]? = some operand := by
      rw [← List.head?_drop, isRest, List.head?_cons]
    have isRest' : operands.drop (index + 1) = rest := by
      rw [← List.tail_drop, isRest, List.tail_cons]
    cases leads : type.typeAtIndex operand with
    | none =>
      rw [Ty.indexedType, leads] at typed
      cases typed
    | some next =>
      rw [Ty.indexedType, leads] at typed
      obtain ⟨v₁, first, stepped, advances⟩ := stepOffset_spec found leads
      obtain ⟨v₂, later, computed, advances'⟩ := ih isRest' typed
      refine ⟨v₂, first ++ later, ?_, ?_⟩
      · rw [computeOffsetsFrom, stepped, ok_bind, leads, ← List.append_assoc]
        exact computed
      · have both := advances.trans advances'
        simpa only [DataLayout.storedOffset, Ty.distance, leads] using both

theorem computeOffsets_spec {gep : GetElementPtrInst α} (width : Nat → Nat) (narrow : w ≤ 64)
    (typed : (gep.pointerType.indexedType gep.indices).isSome) :
    ∃ kgepi, computeOffsets layout w gep = .ok kgepi ∧ kgepi.Encodes width layout w gep := by
  have loop : ∃ v added, computeOffsetsFrom layout w gep.pointerType 1 ⟨⟨w, 0#w⟩, []⟩ gep.indices =
        .ok ⟨⟨w, v⟩, added⟩ ∧
      Advances width gep.operands (fun registers =>
        layout.storedOffset (Operand.toInt registers) gep.pointerType gep.indices) 0#w v added :=
    computeOffsetsFrom_spec gep.indices rfl typed
  obtain ⟨v, added, computed, advances⟩ := loop
  refine ⟨⟨added, v.toNat⟩, ?_, v.isLt, advances.waits, fun registers => ?_⟩
  · rw [computeOffsets, ConstantExpr.alloc, computed, ok_bind, require, if_pos narrow]
    rfl
  · have total := advances.total registers
    rw [BitVec.zero_add] at total
    rw [BitVec.ofNat_toNat, BitVec.setWidth_eq, add_comm]
    exact total

end Spec

end NeuroMerge.Module
