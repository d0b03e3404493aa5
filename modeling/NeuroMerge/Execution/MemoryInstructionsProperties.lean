import NeuroMerge.Execution.AllocHandlers
import NeuroMerge.Execution.MemoryInstructions
import NeuroMerge.Module.IndexedOffset

/-!
# Addresses

Which address a `getelementptr` computes, and how much room an `alloca` makes, against what
LLVM says of both.
-/

namespace NeuroMerge.Execution

open BitVec Symbolic Executor
open Symbolic.ConstraintManager (Hold)
open Memory (MemoryObject ObjectState Context Ref Heap Host MemoryOptions MemoryManager)
open NeuroMerge.Module (DataLayout GetElementPtrInst KGEPInstruction Operand Ty adjustment operandAt
  computeOffsets computeOffsets_spec adjustment_append ofInt_eq_ofInt_iff)

variable {α : Type} {ρ : Assignment} {o : Options} {constraints : List Expr} {e : Expr}
  {state : ExecutionState} {fuel w n : Nat}

/-!
## Operands
-/

def Reads (o : Options) (state : ExecutionState) (operand : Operand)
    (value : Assignment → BitVec n) : Prop :=
  ∃ e, Executor.evalOperand state operand = .ok e ∧ Means o state.constraints e value

/-- Why no address is computed: for want of fuel, or as a size does not fit into a pointer. -/
def Refuses (oversized : Prop) (fault : Fault) : Prop :=
  fault = .outOfFuel ∨ oversized ∧ fault = .assertion .indexTooLarge

variable {oversized : Prop}

theorem createCheckedPointer_spec {v : Nat} (fits : oversized ∨ v < 2 ^ w) :
    Satisfies (Refuses oversized) (fun e => Means o constraints e fun _ => BitVec.ofNat w v) (createCheckedPointer w v) := by
  apply require_satisfies
  · exact fun _ ρ _ => .alloc v
  · exact fun tooLarge => .inr ⟨fits.resolve_right tooLarge, rfl⟩

theorem eval_spec {operands : List Operand} {operand : Operand} {position : Nat}
    {value : Assignment → BitVec n} {tolerated : Fault → Prop}
    (found : operands[position]? = some operand) (reads : Reads o state operand value) :
    Satisfies tolerated (fun e => Means o state.constraints e value) (eval operands position state) := by
  obtain ⟨e, evaluated, means⟩ := reads
  rw [eval, found]
  dsimp only
  rw [evaluated]
  exact means

/-!
## Addresses
-/

section GetElementPtr

variable {base : Expr} {operands : List Operand} {entry : Nat × Nat} {pointer : Assignment → BitVec w}

theorem addIndex_spec {operand : Operand} {value : Assignment → BitVec n} (sane : Sane o state.constraints) (positive : 0 < w)
    (found : operands[entry.1]? = some operand) (reads : Reads o state operand value)
    (fits : oversized ∨ entry.2 < 2 ^ w) (means : Means o state.constraints base pointer) :
    Satisfies (Refuses oversized)
      (fun e => Means o state.constraints e fun ρ =>
        pointer ρ + (value ρ).signExtend w * BitVec.ofNat w entry.2) (addIndex o fuel w operands state base entry) := by
  apply Satisfies.bind (eval_spec found reads)
  intro index isIndex
  have extended : Satisfies (· = .outOfFuel) (fun e => Means o state.constraints e fun ρ => (value ρ).signExtend w)
      (SExtExpr.create fuel index w) :=
    Means.of_builds sane fun ρ hold => SExtExpr.create_builds (isIndex ρ hold) positive
  apply Satisfies.bind_left extended
  intro index isExtended
  apply Satisfies.bind (createCheckedPointer_spec fits)
  intro elementSize isSize
  have scaled : Satisfies (· = .outOfFuel) (fun e => Means o state.constraints e fun ρ =>
        (value ρ).signExtend w * BitVec.ofNat w entry.2)
      (MulExpr.create index elementSize) :=
    Means.of_builds sane fun ρ hold => MulExpr.create_builds (isExtended ρ hold) (isSize ρ hold)
  apply Satisfies.bind_left scaled
  intro distance isDistance
  have added : Satisfies (· = .outOfFuel) (fun e => Means o state.constraints e fun ρ =>
        pointer ρ + (value ρ).signExtend w * BitVec.ofNat w entry.2)
      (AddExpr.create o fuel base distance) :=
    Means.of_builds sane fun ρ hold =>
      AddExpr.create_builds Guards.allows_safe (means ρ hold) (isDistance ρ hold)
  exact added.weaken fun _ => Or.inl

theorem addIndices_spec {width : Nat → Nat} {registers : Assignment → (number : Nat) → BitVec (width number)}
    {indices : List (Nat × Nat)} (sane : Sane o state.constraints) (positive : 0 < w)
    (waits : ∀ entry ∈ indices, ∃ number, operands[entry.1]? = some (.register number))
    (reads : ∀ number, .register number ∈ operands →
      Reads o state (.register number) fun ρ => registers ρ number) (fits : oversized ∨ ∀ entry ∈ indices, entry.2 < 2 ^ w)
    (means : Means o state.constraints base pointer) :
    Satisfies (Refuses oversized)
      (fun e => Means o state.constraints e fun ρ =>
        pointer ρ + BitVec.ofInt w (adjustment (operandAt (registers ρ) operands) indices))
      (indices.foldlM (addIndex o fuel w operands state) base) := by
  apply Satisfies.foldlM fun seen e => Means o state.constraints e fun ρ =>
    pointer ρ + BitVec.ofInt w (adjustment (operandAt (registers ρ) operands) seen)
  · exact fun ρ hold => (means ρ hold).of_eq (BitVec.add_zero _).symm
  intro seen entry remaining base split isBase
  have member : entry ∈ indices := by simp [split]
  obtain ⟨number, found⟩ := waits entry member
  apply (addIndex_spec sane positive found (reads number (List.mem_of_getElem? found))
    (fits.imp_right fun each => each entry member) isBase).mono
  intro e means ρ hold
  apply (means ρ hold).of_eq
  dsimp only
  rw [adjustment_append, ofInt_add, ← BitVec.add_assoc]
  congr 1
  rw [adjustment, List.map_singleton, List.sum_singleton, ofInt_mul, ofInt_natCast]
  simp only [operandAt, found]
  rfl

theorem addOffset_spec {offset : Nat} (sane : Sane o state.constraints)
    (fits : offset < 2 ^ w) (means : Means o state.constraints base pointer) :
    Satisfies (Refuses oversized) (fun e => Means o state.constraints e fun ρ => pointer ρ + BitVec.ofNat w offset)
      (addOffset o fuel w offset base) := by
  rw [addOffset]
  split
  · rename_i isZero
    subst isZero
    exact fun ρ hold => (means ρ hold).of_eq (BitVec.add_zero _).symm
  · apply Satisfies.bind (createCheckedPointer_spec (.inr fits))
    intro distance isDistance
    have added : Satisfies (· = .outOfFuel) (fun e => Means o state.constraints e fun ρ => pointer ρ + BitVec.ofNat w offset)
        (AddExpr.create o fuel base distance) :=
      Means.of_builds sane fun ρ hold =>
        AddExpr.create_builds Guards.allows_safe (means ρ hold) (isDistance ρ hold)
    exact added.weaken fun _ => Or.inl

section Execute

variable {gep : GetElementPtrInst α} {layout : DataLayout α} {kgepi : KGEPInstruction} {target : Nat} {width : Nat → Nat}
  {registers : Assignment → (number : Nat) → BitVec (width number)}

theorem executeGetElementPtr_spec (sane : Sane o state.constraints) (positive : 0 < w) (encodes : kgepi.Encodes width layout w gep)
    (reads : ∀ number, .register number ∈ gep.operands →
      Reads o state (.register number) fun ρ => registers ρ number) (isPointer : Reads o state gep.pointerOperand pointer)
    (fits : oversized ∨ ∀ entry ∈ kgepi.indices, entry.2 < 2 ^ w) :
    Satisfies (Refuses oversized)
      (fun last => ∃ address, last = state.bindLocal target address ∧
        Means o state.constraints address fun ρ => pointer ρ + BitVec.ofInt w (layout.storedOffset
          (Operand.toInt (registers ρ)) gep.pointerType gep.indices)) (executeGetElementPtr o fuel w gep kgepi target state) := by
  have first : gep.operands[0]? = some gep.pointerOperand := rfl
  apply Satisfies.bind (eval_spec first isPointer)
  intro base isBase
  apply Satisfies.bind (addIndices_spec sane positive encodes.waits reads fits isBase)
  intro base isBase
  apply Satisfies.bind (addOffset_spec sane encodes.offset isBase)
  intro address isAddress
  refine ⟨address, rfl, fun ρ hold => (isAddress ρ hold).of_eq ?_⟩
  dsimp only
  rw [← encodes.total (registers ρ), BitVec.add_assoc]

theorem eval_ends (operands : List Operand) (position : Nat) : Ends fun _ => eval operands position state := by
  rw [eval]
  cases operands[position]? with
  | none => exact .error _ nofun
  | some operand =>
    cases operand with
    | constantInt c | constant c => exact .pure _
    | register number =>
      simp only [evalOperand]
      cases state.stack.getLast?.bind fun frame => frame.locals number with
      | none => exact .error _ nofun
      | some e => exact .pure _

theorem createCheckedPointer_ends (w v : Nat) : Ends fun _ => createCheckedPointer w v :=
  .require (.pure _)

theorem executeGetElementPtr_halts : Ends fun fuel => executeGetElementPtr o fuel w gep kgepi target state := by
  have adds (base : Expr) (entry : Nat × Nat) : Ends fun fuel => addIndex o fuel w gep.operands state base entry := by
    apply (eval_ends gep.operands entry.1).bind
    intro index _
    apply (SExtExpr.create_ends index w).bind
    intro index _
    apply (createCheckedPointer_ends w entry.2).bind
    intro elementSize _
    apply (MulExpr.create_ends index elementSize).bind
    exact fun distance _ => AddExpr.create_ends base distance
  apply (eval_ends gep.operands 0).bind
  intro base _
  apply (Halts.foldlM_const adds).bind
  intro base _
  apply Halts.bind _ fun _ _ => .pure _
  apply Halts.ite fun _ => .pure _
  intro _
  apply (createCheckedPointer_ends w kgepi.offset).bind
  exact fun distance _ => AddExpr.create_ends base distance

/-- A `getelementptr` leads to the address that LLVM defines exactly where the padding that is
left out comes to nothing. -/
theorem getElementPtr_follows_iff (sane : Sane o state.constraints) (positive : 0 < w)
    (narrow : w ≤ 64) (typed : (gep.pointerType.indexedType gep.indices).isSome)
    (reads : ∀ number, .register number ∈ gep.operands →
      Reads o state (.register number) fun ρ => registers ρ number) (isPointer : Reads o state gep.pointerOperand pointer) :
    ∃ kgepi, computeOffsets layout w gep = .ok kgepi ∧
      (∀ fuel last, executeGetElementPtr o fuel w gep kgepi target state = .ok last →
        ∃ address, last = state.bindLocal target address ∧
          ∀ ρ, Hold ρ state.constraints →
            (Denotes (.safe o ρ) ρ address (pointer ρ + BitVec.ofInt w (layout.getIndexedOffset
                (Operand.toInt (registers ρ)) gep.pointerType gep.indices)) ↔
              (2 ^ w : Int) ∣ layout.skippedPadding (Operand.toInt (registers ρ))
                gep.pointerType gep.indices)) ∧
      ((∀ entry ∈ kgepi.indices, entry.2 < 2 ^ w) → ∃ last, Returns (fun fuel =>
        executeGetElementPtr o fuel w gep kgepi target state) last) := by
  obtain ⟨kgepi, computed, encodes⟩ := computeOffsets_spec width narrow typed
  refine ⟨kgepi, computed, ?_, ?_⟩
  · intro fuel last returned
    have spec : Satisfies (Refuses True) _ (executeGetElementPtr o fuel w gep kgepi target state) :=
      executeGetElementPtr_spec sane positive encodes reads isPointer (.inl trivial)
    obtain ⟨address, isLast, means⟩ := spec.elim returned
    refine ⟨address, isLast, fun ρ hold => ?_⟩
    rw [← layout.storedOffset_eq_iff]
    constructor
    · intro follows
      exact add_left_cancel ((means ρ hold).value.symm.trans follows.value)
    · intro same
      rw [← same]
      exact means ρ hold
  · intro fits
    obtain ⟨last, -, returns⟩ := executeGetElementPtr_halts.returns fun fuel =>
      (executeGetElementPtr_spec sane positive encodes reads isPointer (.inr fits)).weaken
        fun fault refuses => refuses.resolve_right And.left
    exact ⟨last, returns⟩

end Execute

end GetElementPtr

/-!
## Room
-/

def HasRoom (layout : DataLayout α) (offset : (Operand → Int) → Ty α → List Operand → Int)
    (type : Ty α) (count size : Nat) : Prop :=
  ∀ (value : Operand → Int) (operand : Operand), 0 ≤ value operand → value operand < count →
    offset value (.pointer type) [operand] + layout.getTypeStoreSize type ≤ size

theorem lastElement_le_iff {bytes stride count modulus : Nat} (covers : bytes ≤ stride) (positive : 0 < modulus) :
    (∀ i < count, i * stride + bytes ≤ bytes * count % modulus) ↔ (count ≤ 1 ∨ stride = bytes) ∧ bytes * count < modulus := by
  constructor
  · intro room
    cases count with
    | zero => exact ⟨.inl (Nat.zero_le 1), positive⟩
    | succ k =>
      have last := room k (Nat.lt_succ_self k)
      have atMost := Nat.mod_le (bytes * (k + 1)) modulus
      have below := Nat.mod_lt (bytes * (k + 1)) positive
      have apart : bytes * (k + 1) = k * bytes + bytes := by ring
      have closer : k * bytes ≤ k * stride := Nat.mul_le_mul_left k covers
      refine ⟨?_, by omega⟩
      have same : k * stride = k * bytes := by omega
      cases k with
      | zero => exact .inl le_rfl
      | succ k => exact .inr (Nat.eq_of_mul_eq_mul_left k.succ_pos same)
  · intro both i within
    obtain ⟨dense, small⟩ := both
    rw [Nat.mod_eq_of_lt small]
    cases dense with
    | inl single =>
      obtain rfl : i = 0 := by omega
      obtain rfl : count = 1 := by omega
      simp
    | inr dense =>
      rw [dense]
      calc i * bytes + bytes = bytes * (i + 1) := by ring
        _ ≤ bytes * count := Nat.mul_le_mul_left bytes within

theorem hasRoom_iff {layout : DataLayout α} {offset : (Operand → Int) → Ty α → List Operand → Int} {type : Ty α}
    {stride count modulus : Nat} (covers : layout.getTypeStoreSize type ≤ stride)
    (single : ∀ value operand, offset value (.pointer type) [operand] = value operand * stride) (positive : 0 < modulus) :
    HasRoom layout offset type count (layout.getTypeStoreSize type * count % modulus) ↔
      (count ≤ 1 ∨ stride = layout.getTypeStoreSize type) ∧ layout.getTypeStoreSize type * count < modulus := by
  rw [← lastElement_le_iff covers positive]
  constructor
  · intro room i within
    have here := room (fun _ => i) (.register 0) (Int.natCast_nonneg i) (Int.ofNat_lt.mpr within)
    rw [single] at here
    exact_mod_cast here
  · intro room value operand notNegative within
    obtain ⟨i, isIndex⟩ := Int.eq_ofNat_of_zero_le notNegative
    rw [single]
    rw [isIndex] at within ⊢
    exact_mod_cast room i (Int.ofNat_lt.mp within)

theorem allocaSize_mod (bytes : Nat) (count : BitVec n) :
    (BitVec.ofNat w (bytes % 2 ^ 32) * count.setWidth w).toNat % 2 ^ 32 = bytes * count.toNat % 2 ^ min 32 w := by
  rw [toNat_mul, toNat_ofNat, toNat_setWidth, ← Nat.mul_mod]
  cases le_total 32 w with
  | inl wide =>
    rw [Nat.mod_mod_of_dvd _ (Nat.pow_dvd_pow 2 wide), min_eq_left wide, Nat.mod_mul_mod]
  | inr narrow =>
    have below : bytes % 2 ^ 32 * count.toNat % 2 ^ w < 2 ^ 32 :=
      (Nat.mod_lt _ (Nat.two_pow_pos w)).trans_le (Nat.pow_le_pow_right (by decide) narrow)
    rw [Nat.mod_eq_of_lt below, min_eq_right narrow, Nat.mul_mod, Nat.mod_mod_of_dvd _ (Nat.pow_dvd_pow 2 narrow), ← Nat.mul_mod]

section Alloca

variable {ai : AllocaInst α} {layout : DataLayout α} {context : Context} {count : Assignment → BitVec n}

theorem count_of_single (single : ai.isArrayAllocation = false)
    (isCount : Reads o state ai.arraySize count) (hold : Hold ρ state.constraints) : (count ρ).toNat = 1 := by
  obtain ⟨e, evaluated, means⟩ := isCount
  rw [AllocaInst.isArrayAllocation] at single
  cases operand : ai.arraySize with
  | constantInt c =>
    rw [operand] at single evaluated
    cases evaluated
    cases (means ρ hold).constant? rfl
    exact of_decide_eq_true ((Bool.not_eq_false' _).mp single)
  | constant c =>
    rw [operand] at single
    cases single
  | register number =>
    rw [operand] at single
    cases single

theorem allocaSize_spec (sane : Sane o state.constraints) (positive : 0 < context.pointerWidth)
    (fits : oversized ∨
      layout.getTypeStoreSize ai.allocatedType % 2 ^ 32 < 2 ^ context.pointerWidth) (isCount : Reads o state ai.arraySize count) :
    Satisfies (Refuses oversized)
      (fun e => Means o state.constraints e fun ρ =>
        BitVec.ofNat context.pointerWidth (layout.getTypeStoreSize ai.allocatedType % 2 ^ 32) *
          (count ρ).setWidth context.pointerWidth) (allocaSize fuel context layout ai state) := by
  apply Satisfies.bind (createCheckedPointer_spec fits)
  intro size isSize
  split
  · have found : [ai.arraySize][0]? = some ai.arraySize := rfl
    apply Satisfies.bind (eval_spec found isCount)
    intro e means
    have extended : Satisfies (· = .outOfFuel) (fun e => Means o state.constraints e fun ρ => (count ρ).setWidth context.pointerWidth)
        (ZExtExpr.create fuel e context.pointerWidth) :=
      Means.of_builds sane fun ρ hold => ZExtExpr.create_builds (means ρ hold) positive
    apply Satisfies.bind_left extended
    intro e means
    have multiplied : Satisfies (· = .outOfFuel) (fun e => Means o state.constraints e fun ρ =>
          BitVec.ofNat context.pointerWidth (layout.getTypeStoreSize ai.allocatedType % 2 ^ 32) * (count ρ).setWidth context.pointerWidth)
        (MulExpr.create size e) :=
      Means.of_builds sane fun ρ hold => MulExpr.create_builds (isSize ρ hold) (means ρ hold)
    exact multiplied.weaken fun _ => Or.inl
  · rename_i single
    intro ρ hold
    have isOne : (count ρ).setWidth context.pointerWidth = 1#_ := by
      apply eq_of_toNat_eq
      rw [toNat_setWidth, count_of_single (Bool.not_eq_true _ ▸ single) isCount hold, toNat_ofNat]
    apply (isSize ρ hold).of_eq
    dsimp only
    rw [isOne]
    exact (BitVec.mul_one _).symm

theorem allocaSize_ends : Ends fun fuel => allocaSize fuel context layout ai state := by
  apply (createCheckedPointer_ends _ _).bind
  intro size _
  apply Halts.ite _ fun _ => .pure _
  intro _
  apply (eval_ends [ai.arraySize] 0).bind
  intro count _
  apply (ZExtExpr.create_ends count context.pointerWidth).bind
  exact fun count _ => MulExpr.create_ends size count

theorem executeAlloca_spec {options : ForkOptions} {solver : Solver}
    {optimizeExpr : Expr → Bool → Expr} {host : Host} {memory : MemoryOptions}
    {allocSite : KInstIterator → AllocSite} {target : Nat} {executor : Executor}
    {manager : MemoryManager} (sound : solver.Sound) (optimizes : ∀ valueOnly, Optimizes o fun e => optimizeExpr e valueOnly)
    (lawful : host.Lawful) (sane : Sane o state.constraints) (modest : getAllocationAlignment (allocSite state.prevPC) ≤ 2 ^ 62)
    (positive : 0 < context.pointerWidth) (narrow : context.pointerWidth ≤ 64)
    (separate : state.addressSpace.Separate context.pointerWidth) (ready : manager.Ready memory)
    (backed : Backed o state.constraints executor.heap manager state)
    (fits : oversized ∨
      layout.getTypeStoreSize ai.allocatedType % 2 ^ 32 < 2 ^ context.pointerWidth) (isCount : Reads o state ai.arraySize count) :
    Satisfies (fun fault => Replays options fault ∨ Refuses oversized fault)
      (fun result => ∀ last ∈ result.2.2,
        Denied context.pointerWidth ⟨target, false, none⟩ state last ∨
        ∃ mo ref os, Granted o state.constraints context.pointerWidth ⟨target, false, none⟩ state
            executor.heap result.1.heap last mo ref os ∧
          ∀ ρ, Hold ρ last.constraints →
            mo.size = layout.getTypeStoreSize ai.allocatedType * (count ρ).toNat %
              2 ^ min 32 context.pointerWidth)
      (executeAlloca o fuel options solver optimizeExpr context host memory allocSite layout ai target executor manager state) := by
  have prepared : Prepared o state.constraints context.pointerWidth memory ⟨target, false, none⟩
      executor.heap manager state :=
    ⟨ready, backed, separate, nofun⟩
  apply Satisfies.bind ((allocaSize_spec sane positive fits isCount).weaken fun _ => Or.inr)
  intro size means
  have made : Satisfies (Replays options)
      (AllocOutcomes o state.constraints context.pointerWidth memory ⟨target, false, none⟩ allocSite state _ 0 executor.heap manager)
      (executeAlloc o options solver optimizeExpr context host memory fuel allocSite target false none executor manager state size 0) :=
    executeAlloc_spec sound optimizes sane.possible lawful prepared modest narrow (Nat.two_pow_pos 64) sane means
  apply (made.weaken fun _ => Or.inl).mono
  intro result outcomes last member
  have outcome := (outcomes.2.2 last member).outcome
  cases outcome with
  | inl denied => exact .inl denied
  | inr granted =>
    obtain ⟨mo, ref, os, isGranted, size, -⟩ := granted
    exact .inr ⟨mo, ref, os, isGranted, fun ρ hold => (size ρ hold).trans (allocaSize_mod _ _)⟩

theorem executeAlloca_halts {options : ForkOptions} {solver : Solver}
    {optimizeExpr : Expr → Bool → Expr} {host : Host} {memory : MemoryOptions}
    {allocSite : KInstIterator → AllocSite} {target : Nat} {executor : Executor} {manager : MemoryManager} :
    Ends fun fuel => executeAlloca o fuel options solver optimizeExpr context host memory
      allocSite layout ai target executor manager state := by
  apply allocaSize_ends.bind
  exact fun size _ => executeAlloc_halts

end Alloca

/-!
## The layout that LLVM defines
-/

/-- An address is right exactly where the padding that is left out comes to nothing. The object
for an `alloca` has room for its elements, padding included, exactly if there is no padding
between them and 32 bits can count the bytes; for the elements where they are put the latter is
enough. -/
theorem addresses_follow_layout_iff {solver : Solver} {host : Host} {executor : Executor}
    {manager : MemoryManager} (options : ForkOptions) (optimizeExpr : Expr → Bool → Expr)
    (context : Context) (memory : MemoryOptions) (allocSite : KInstIterator → AllocSite)
    (target : Nat) (layout : DataLayout α) (sound : solver.Sound)
    (optimizes : ∀ valueOnly, Optimizes o fun e => optimizeExpr e valueOnly)
    (lawful : host.Lawful) (sane : Sane o state.constraints)
    (modest : getAllocationAlignment (allocSite state.prevPC) ≤ 2 ^ 62)
    (positive : 0 < context.pointerWidth) (narrow : context.pointerWidth ≤ 64)
    (separate : state.addressSpace.Separate context.pointerWidth) (ready : manager.Ready memory)
    (backed : Backed o state.constraints executor.heap manager state) :
    (∀ (gep : GetElementPtrInst α) {width : Nat → Nat}
      (registers : Assignment → (number : Nat) → BitVec (width number))
      (pointer : Assignment → BitVec context.pointerWidth),
      (gep.pointerType.indexedType gep.indices).isSome →
      (∀ number, .register number ∈ gep.operands →
        Reads o state (.register number) fun ρ => registers ρ number) →
      Reads o state gep.pointerOperand pointer →
      ∃ kgepi, computeOffsets layout context.pointerWidth gep = .ok kgepi ∧
        (∀ fuel last, Executor.executeGetElementPtr o fuel context.pointerWidth gep kgepi target
            state = .ok last → ∃ address, last = state.bindLocal target address ∧
          ∀ ρ, Hold ρ state.constraints →
            (Denotes (.safe o ρ) ρ address (pointer ρ + BitVec.ofInt context.pointerWidth
                (layout.getIndexedOffset (Operand.toInt (registers ρ)) gep.pointerType
                  gep.indices)) ↔
              (2 ^ context.pointerWidth : Int) ∣ layout.skippedPadding
                (Operand.toInt (registers ρ)) gep.pointerType gep.indices)) ∧
        ((∀ entry ∈ kgepi.indices, entry.2 < 2 ^ context.pointerWidth) → ∃ last, Returns
          (fun fuel => Executor.executeGetElementPtr o fuel context.pointerWidth gep kgepi target
            state) last)) ∧
    (∀ (ai : AllocaInst α) {n : Nat} (count : Assignment → BitVec n),
      Reads o state ai.arraySize count →
      (∀ fuel result, Executor.executeAlloca o fuel options solver optimizeExpr context host memory
          allocSite layout ai target executor manager state = .ok result → ∀ last ∈ result.2.2,
        Denied context.pointerWidth ⟨target, false, none⟩ state last ∨
        ∃ mo ref os, Granted o state.constraints context.pointerWidth ⟨target, false, none⟩ state
            executor.heap result.1.heap last mo ref os ∧
          ∀ ρ, Hold ρ last.constraints →
            (HasRoom layout layout.getIndexedOffset ai.allocatedType (count ρ).toNat mo.size ↔
              ((count ρ).toNat ≤ 1 ∨ layout.getTypeAllocSize ai.allocatedType =
                layout.getTypeStoreSize ai.allocatedType) ∧
              layout.getTypeStoreSize ai.allocatedType * (count ρ).toNat <
                2 ^ min 32 context.pointerWidth) ∧
            (HasRoom layout layout.storedOffset ai.allocatedType (count ρ).toNat mo.size ↔
              layout.getTypeStoreSize ai.allocatedType * (count ρ).toNat <
                2 ^ min 32 context.pointerWidth)) ∧
      (options.replayKTest = false →
        layout.getTypeStoreSize ai.allocatedType % 2 ^ 32 < 2 ^ context.pointerWidth →
        ∃ result, Returns (fun fuel => Executor.executeAlloca o fuel options solver optimizeExpr
          context host memory allocSite layout ai target executor manager state) result)) := by
  refine ⟨fun gep width registers pointer typed reads isPointer =>
    getElementPtr_follows_iff sane positive narrow typed reads isPointer, ?_⟩
  intro ai n count isCount
  constructor
  · intro fuel result returned last member
    have spec : Satisfies (fun fault => Replays options fault ∨ Refuses True fault) _
        (executeAlloca o fuel options solver optimizeExpr context host memory allocSite
          layout ai target executor manager state) :=
      executeAlloca_spec sound optimizes lawful sane modest positive narrow separate ready backed
        (.inl trivial) isCount
    apply (spec.elim returned last member).imp_right
    intro made
    obtain ⟨mo, ref, os, granted, size⟩ := made
    refine ⟨mo, ref, os, granted, fun ρ hold => ?_⟩
    rw [size ρ hold]
    constructor
    · exact hasRoom_iff (layout.store_le_alloc _) (fun _ _ => Int.add_zero _) (Nat.two_pow_pos _)
    · rw [hasRoom_iff le_rfl (fun _ _ => Int.add_zero _) (Nat.two_pow_pos _)]
      exact and_iff_right (.inr rfl)
  · intro notReplaying fits
    have halts : Ends fun fuel => executeAlloca o fuel options solver optimizeExpr context
        host memory allocSite layout ai target executor manager state := executeAlloca_halts
    have only {fault : Fault} (raised : Replays options fault ∨ Refuses False fault) :
        fault = .outOfFuel := by
      cases raised with
      | inl replays => exact replays.resolve_right (by simp [notReplaying])
      | inr refuses => exact refuses.resolve_right And.left
    obtain ⟨result, -, returns⟩ := halts.returns fun fuel =>
      (executeAlloca_spec sound optimizes lawful sane modest positive narrow separate ready backed
        (.inr fits) isCount).weaken fun _ => only
    exact ⟨result, returns⟩

section Example

open Executor (idealSolver idealSolver_sound sampleOptions)

def sampleLayout : DataLayout Nat where
  getTypeStoreSize
    | .primitive bits => (bits + 7) / 8
    | _ => 8
  getTypeAllocSize
    | .primitive bits => (bits + 31) / 32 * 4
    | _ => 8
  getElementOffset _ field := 8 * field
  store_le_alloc type := by
    cases type with
    | primitive bits =>
      dsimp only
      omega
    | pointer | array | vector | struct => exact le_rfl

def addressSampleState : ExecutionState :=
  { allocSampleState with
    stack := [⟨0, ⟨0, 2⟩, fun number =>
      if number = 0 then some (.constant ⟨64, 4096⟩) else some samplePointer⟩] }

def sampleGep (index : Operand) : GetElementPtrInst Nat :=
  ⟨.pointer (.array 2 (.primitive 24)), .register 0, [.constantInt ⟨64, 0⟩, index]⟩

def sampleAlloca : AllocaInst Nat := ⟨.primitive 24, .constantInt ⟨32, 2⟩⟩

def sampleRegisters (ρ : Assignment) (number : Nat) : BitVec 64 :=
  if number = 0 then 4096 else samplePointer.eval ρ 64

theorem addressSample_reads (number : Nat) :
    Reads ⟨false, true⟩ addressSampleState (.register number) fun ρ => sampleRegisters ρ number := by
  cases number with
  | zero => exact ⟨_, rfl, fun _ _ => .constant ⟨64, 4096⟩⟩
  | succ number => exact ⟨_, rfl, samplePointer_means⟩

theorem addresses_follow_layout_iff_sample : ∃ kgepi last address result,
    computeOffsets sampleLayout 64 (sampleGep (.register 1)) = .ok kgepi ∧
    Returns (fun fuel => Executor.executeGetElementPtr ⟨false, true⟩ fuel 64
      (sampleGep (.register 1)) kgepi 0 addressSampleState) last ∧
    last = addressSampleState.bindLocal 0 address ∧
    (∀ ρ, Denotes (.safe ⟨false, true⟩ ρ) ρ address (4096 + BitVec.ofInt 64
        (sampleLayout.getIndexedOffset (Operand.toInt (sampleRegisters ρ))
          (sampleGep (.register 1)).pointerType (sampleGep (.register 1)).indices)) ↔
      (2 ^ 64 : Int) ∣ sampleLayout.skippedPadding (Operand.toInt (sampleRegisters ρ))
        (sampleGep (.register 1)).pointerType (sampleGep (.register 1)).indices) ∧
    Returns (fun fuel => Executor.executeAlloca ⟨false, true⟩ fuel sampleOptions idealSolver
      (fun e _ => e) ⟨true, 64⟩ sampleHost ⟨false, false, 10⟩ (fun _ => .declared 4 none)
      sampleLayout sampleAlloca 0 allocSampleExecutor sampleManager addressSampleState) result := by
  have sane : Sane ⟨false, true⟩ addressSampleState.constraints := Sane.nil
  have ready : sampleManager.Ready ⟨false, false, 10⟩ := nofun
  have backed : Backed ⟨false, true⟩ addressSampleState.constraints allocSampleExecutor.heap
      sampleManager addressSampleState := allocSample_backed.congr rfl
  obtain ⟨follows, room⟩ := addresses_follow_layout_iff sampleOptions (fun e _ => e) ⟨true, 64⟩
    ⟨false, false, 10⟩ (fun _ => .declared 4 none) 0 sampleLayout idealSolver_sound
    (fun _ _ _ _ _ => id) sampleHost_lawful sane (by decide) (by decide) (by decide)
    sampleSpace_separate ready backed
  obtain ⟨kgepi, computed, right, returns⟩ := follows (sampleGep (.register 1)) sampleRegisters
    (fun _ => 4096) rfl (fun number _ => addressSample_reads number) (addressSample_reads 0)
  obtain ⟨result, made⟩ := (room sampleAlloca (fun _ => 2#32)
    ⟨_, rfl, fun _ _ => .constant ⟨32, 2⟩⟩).2 rfl (by decide)
  have fits : ∀ entry ∈ kgepi.indices, entry.2 < 2 ^ 64 := by
    cases computed
    decide
  obtain ⟨last, returned⟩ := returns fits
  obtain ⟨fuel, isLast⟩ := returned.some_fuel
  obtain ⟨address, bound, iff⟩ := right fuel last isLast
  exact ⟨kgepi, last, address, result, computed, returned, bound, fun ρ => iff ρ nofun, made⟩

/-- The second of the elements is three bytes after the first one, and the object for two of them
has six bytes. -/
theorem addresses_miss_layout :
    (∃ kgepi, computeOffsets sampleLayout 64 (sampleGep (.constantInt ⟨64, 1⟩)) = .ok kgepi ∧
      Executor.executeGetElementPtr ⟨false, true⟩ 2 64 (sampleGep (.constantInt ⟨64, 1⟩)) kgepi 0
        addressSampleState = .ok (addressSampleState.bindLocal 0 (.constant ⟨64, 4099⟩))) ∧
    (∀ ρ, (4096 : BitVec 64) + BitVec.ofInt 64 (sampleLayout.getIndexedOffset
      (Operand.toInt (sampleRegisters ρ)) (sampleGep (.constantInt ⟨64, 1⟩)).pointerType
      (sampleGep (.constantInt ⟨64, 1⟩)).indices) = 4100) ∧
    (∃ executor manager last, Executor.executeAlloca ⟨false, true⟩ 2 sampleOptions idealSolver
        (fun e _ => e) ⟨true, 64⟩ sampleHost ⟨false, false, 10⟩ (fun _ => .declared 4 none)
        sampleLayout sampleAlloca 0 allocSampleExecutor sampleManager addressSampleState =
          .ok (executor, manager, [last]) ∧
      (⟨3, 131200, 6, false⟩, 2) ∈ last.addressSpace.objects) ∧
    ¬ HasRoom sampleLayout sampleLayout.getIndexedOffset (.primitive 24) 2 6 := by
  refine ⟨⟨⟨[], 3⟩, rfl, rfl⟩, fun _ => rfl, ⟨_, _, _, rfl, by decide⟩, fun room => ?_⟩
  exact absurd (room (fun _ => 1) (.register 0) (by decide) (by decide)) (by decide)

end Example

end NeuroMerge.Execution
