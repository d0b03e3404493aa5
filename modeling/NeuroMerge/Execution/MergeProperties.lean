import Mathlib.Data.List.Dedup
import NeuroMerge.Execution.Merge
import NeuroMerge.Memory.ByteValue
import NeuroMerge.Symbolic.PathCondition

/-!
# Merging is sound

The merged state stands for both states: under every assignment that one of them
allows it has the values of that state, and it allows no others.
-/

namespace NeuroMerge.Execution

open List Symbolic
open Symbolic.ConstraintManager (Constraint Hold Decides Lasting)
open Memory (AddressSpace Admits Context Contents Heap MemoryObject ObjectState Ref SameFrame deref deref_eq_ok)

variable {guards : Guards} {ρ : Assignment} {o : Options} {context : Context} {fuel id : Nat}
  {le : Expr → Expr → Bool} {heap : Heap} {mo : MemoryObject} {ref wos other : Ref}

namespace ExecutionState

section Condition

variable {constraints aSuffix bSuffix commonConstraints : List Expr} {valid : Expr → Prop} {inA inB : Expr}

@[simp] theorem mem_exprSet {c : Expr} : c ∈ exprSet le constraints ↔ c ∈ constraints := by
  simp [exprSet]

def Conjoins (guards : Guards) (ρ : Assignment) (constraints : List Expr) (e : Expr) : Prop :=
  ∃ bit : BitVec 1, Denotes guards ρ e bit ∧ (bit = 1#1 ↔ Hold ρ constraints)

theorem conjunction_conjoins (valid : ∀ c ∈ constraints, Constraint guards c) :
    Satisfies (Excused guards ρ) (Conjoins guards ρ constraints) (conjunction constraints) := by
  apply Satisfies.foldlM (Conjoins guards ρ)
  · exact ⟨1#1, .alloc 1, by simp [Hold]⟩
  · intro seen c remaining e split conjoins
    obtain ⟨bit, denotes, holds⟩ := conjoins
    obtain ⟨wellFormed, boolean⟩ := valid c (by simp [split])
    have builds := AndExpr.create_builds denotes ⟨wellFormed, boolean, rfl⟩
    apply Satisfies.mono builds
    intro e denotes
    refine ⟨_, denotes, ?_⟩
    rw [BitVector.and_eq_one, holds]
    simp [Hold, or_imp, forall_and]

theorem either_denotes (left : Conjoins guards ρ aSuffix inA) (right : Conjoins guards ρ bSuffix inB) :
    Satisfies (fun _ => True) (fun e => Constraint guards e ∧ (e.eval ρ 1 = 1#1 ↔ Hold ρ aSuffix ∨ Hold ρ bSuffix))
      (OrExpr.create inA inB) := by
  obtain ⟨a, denotesA, holdsA⟩ := left
  obtain ⟨b, denotesB, holdsB⟩ := right
  apply (Satisfies.weaken (OrExpr.create_builds denotesA denotesB) fun _ _ => trivial).mono
  intro e denotes
  refine ⟨⟨denotes.wellFormed, denotes.width⟩, ?_⟩
  rw [denotes.value, BitVector.or_eq_one, holdsA, holdsB]

theorem addConstraints_hold (lasting : Lasting o valid) (allowed : o.Allows guards ρ)
    (extensional : guards.Extensional ρ) (common : ∀ c ∈ commonConstraints, Constraint guards c)
    (validCommon : ∀ c ∈ commonConstraints, valid c) {either : Expr}
    (constraint : Constraint guards either) (validEither : valid either) {kept result : List Expr}
    (returned : commonConstraints.foldlM (ConstraintManager.addConstraint o fuel) [] = .ok kept)
    (added : ConstraintManager.addConstraint o fuel kept either = .ok result) :
    Hold ρ result ↔ Hold ρ commonConstraints ∧ either.eval ρ 1 = 1#1 := by
  have validNil : ∀ c ∈ ([] : List Expr), valid c := nofun
  obtain ⟨decides, validKept⟩ := (Decides.nil.addConstraints lasting allowed extensional validCommon common validNil).elim returned
  obtain ⟨decidesResult, -⟩ := (decides.addConstraint lasting allowed extensional validKept validEither constraint).elim added
  rw [decidesResult.hold_iff, true_and]

end Condition

section Registers

/-- Registers that both frames have written are of one width. -/
def Fitting (af bf : StackFrame) : Prop :=
  ∀ i < af.kf.numRegisters, ∀ a b, af.locals i = some a → bf.locals i = some b → a.width = b.width

variable {inA : Expr} {bit : BitVec 1} {af bf : StackFrame}

def Combines (ρ : Assignment) (bit : BitVec 1) (av bv value : Option Expr) : Prop :=
  ∀ a b, av = some a → bv = some b → ∃ e, value = some e ∧ e.width = a.width ∧ e.width = b.width ∧
    e.eval ρ e.width = if bit = 1#1 then a.eval ρ e.width else b.eval ρ e.width

theorem mergeRegister_combines (allowed : o.Allows guards ρ) (denotes : Denotes guards ρ inA bit)
    {av bv : Option Expr} (validA : ∀ e, av = some e → e.WellFormed guards) (validB : ∀ e, bv = some e → e.WellFormed guards) :
    Satisfies (fun fault => (∀ a b, av = some a → bv = some b → a.width = b.width) → Excused guards ρ fault)
      (Combines ρ bit av bv) (mergeRegister o fuel inA av bv) := by
  cases av with
  | none => exact nofun
  | some a =>
    cases bv with
    | none => exact nofun
    | some b =>
      by_cases width : a.width = b.width
      · have builds : Builds guards ρ _ (SelectExpr.create o fuel inA a b) :=
          SelectExpr.create_builds allowed denotes (validA a rfl).denotes ⟨validB b rfl, width.symm, rfl⟩
        apply Satisfies.bind (.weaken builds fun _ excused _ => excused)
        intro e denotesE a' b' isA isB
        cases isA
        cases isB
        refine ⟨e, rfl, denotesE.width, denotesE.width.trans width, ?_⟩
        rw [denotesE.width]
        exact denotesE.value
      · rw [mergeRegister, SelectExpr.create, require, require, if_neg width]
        split <;> exact fun fits => absurd (fits a b rfl rfl) width

structure CombinesFrame (ρ : Assignment) (bit : BitVec 1) (af bf frame : StackFrame) : Prop where
  caller : frame.caller = af.caller
  kf : frame.kf = af.kf
  locals : ∀ i < af.kf.numRegisters, Combines ρ bit (af.locals i) (bf.locals i) (frame.locals i)

theorem mergeFrame_combines (allowed : o.Allows guards ρ) (denotes : Denotes guards ρ inA bit)
    (validA : ∀ i e, af.locals i = some e → e.WellFormed guards) (validB : ∀ i e, bf.locals i = some e → e.WellFormed guards) :
    Satisfies (fun fault => Fitting af bf → Excused guards ρ fault) (CombinesFrame ρ bit af bf)
      (mergeFrame o fuel inA af bf) := by
  apply Satisfies.bind
  · apply Satisfies.foldlM fun seen locals => ∀ i,
      if i ∈ seen then Combines ρ bit (af.locals i) (bf.locals i) (locals i)
      else locals i = af.locals i
    · intro i
      simp
    · intro seen item remaining locals split combined
      have fresh : item ∉ seen := by
        have distinct := split ▸ nodup_range
        exact fun member => (nodup_append.mp distinct).2.2 item member item (by simp) rfl
      have unchanged : locals item = af.locals item := by
        simpa [fresh] using combined item
      rw [unchanged]
      have combines : Satisfies (fun fault => Fitting af bf → Excused guards ρ fault) (Combines ρ bit (af.locals item) (bf.locals item))
          (mergeRegister o fuel inA (af.locals item) (bf.locals item)) := by
        apply (mergeRegister_combines allowed denotes (validA item) (validB item)).weaken
        intro fault excused fits
        exact excused (fits item (mem_range.mp (by simp [split])))
      apply Satisfies.bind combines
      intro value combines i
      by_cases here : i = item
      · subst here
        simpa using combines
      · simpa [here] using combined i
  · intro locals combined
    refine ⟨rfl, rfl, ?_⟩
    intro i within
    simpa [within] using combined i

end Registers

section Objects

variable {inA : Expr} {bit : BitVec 1} {content contentA contentB : Contents} {heap' : Heap} {os os' : ObjectState} {i : Nat} {locked : Prop}

/-- The state of the object has the bytes, and is read-only only if it may be `locked`. -/
def Contains (guards : Guards) (ρ : Assignment) (locked : Prop) (heap : Heap) (ref : Ref)
    (mo : MemoryObject) (content : Contents) : Prop :=
  ∃ os, heap[ref]? = some os ∧ os.object = mo ∧ os.size = mo.size ∧ os.Valid guards ∧
    (os.readOnly = true → locked) ∧ ∀ i < mo.size, os.byte ρ i = content i

theorem Contains.congr (contains : Contains guards ρ locked heap ref mo content)
    (same : heap'[ref]? = heap[ref]?) : Contains guards ρ locked heap' ref mo content := by
  rwa [Contains, same]

theorem lt_length_of_getElem? (stored : heap[ref]? = some os) : ref < heap.length :=
  (List.getElem?_eq_some_iff.mp stored).1

theorem Contains.set (stored : heap[ref]? = some os) (object : os.object = mo)
    (size : os.size = mo.size) (frame : SameFrame os os') (valid : os'.Valid guards) (lock : os.readOnly = true → locked)
    (bytes : ∀ i < mo.size, os'.byte ρ i = content i) : Contains guards ρ locked (heap.set ref os') ref mo content :=
  ⟨os', getElem?_set_self (lt_length_of_getElem? stored), frame.object.trans object, frame.size.trans size, valid,
    fun isLocked => lock (frame.readOnly.symm.trans isLocked), bytes⟩

theorem Contains.unlocked (contains : Contains guards ρ False heap ref mo content) : Contains guards ρ locked heap ref mo content := by
  obtain ⟨os, stored, object, size, valid, lock, bytes⟩ := contains
  exact ⟨os, stored, object, size, valid, fun isLocked => (lock isLocked).elim, bytes⟩

def SameExcept (wos other : Ref) (heap heap' : Heap) : Prop :=
  ∀ ref, ref ≠ wos → ref ≠ other → heap'[ref]? = heap[ref]?

structure Written (guards : Guards) (ρ : Assignment) (heap : Heap) (wos other : Ref)
    (mo : MemoryObject) (content contentB : Contents) (result : Heap × Nat) : Prop where
  written : Contains guards ρ False result.1 wos mo content
  read : Contains guards ρ True result.1 other mo contentB
  elsewhere : SameExcept wos other heap result.1

section

variable (admits : Admits o guards ρ) (denotes : Denotes guards ρ inA bit) (apart : wos ≠ other)
include admits denotes apart

theorem mergeByte_combines (within : i < mo.size) (inWos : Contains guards ρ False heap wos mo contentA)
    (inOther : Contains guards ρ True heap other mo contentB) :
    Satisfies (Excused guards ρ)
      (Written guards ρ heap wos other mo
        (Function.update contentA i (if bit = 1#1 then contentA i else contentB i)) contentB)
      (mergeByte o context fuel inA wos other heap id i) := by
  obtain ⟨os, stored, object, size, valid, lock, bytes⟩ := inWos
  obtain ⟨otherOS, storedOther, objectOther, sizeOther, validOther, -, bytesOther⟩ := inOther
  rw [mergeByte, deref_eq_ok.mpr stored]
  apply Satisfies.bind (os.read8_byte admits valid (by rwa [size]))
  intro result facts
  obtain ⟨av, os₁, id₁⟩ := result
  obtain ⟨denotesA, valid₁, same₁⟩ := facts
  have storedOther₁ : (heap.set wos os₁)[other]? = some otherOS := by
    rwa [getElem?_set_ne apart]
  dsimp only at denotesA valid₁ same₁ ⊢
  rw [deref_eq_ok.mpr storedOther₁]
  apply Satisfies.bind (otherOS.read8_byte admits validOther (by rwa [sizeOther]))
  intro result facts
  obtain ⟨bv, otherOS₁, id₂⟩ := result
  obtain ⟨denotesB, validOther₁, sameOther₁⟩ := facts
  apply Satisfies.bind (SelectExpr.create_builds admits.allowed denotes denotesA denotesB)
  intro value denotesValue
  have stored₁ : ((heap.set wos os₁).set other otherOS₁)[wos]? = some os₁ := by
    rw [getElem?_set_ne apart.symm]
    exact getElem?_set_self (lt_length_of_getElem? stored)
  rw [deref_eq_ok.mpr stored₁]
  apply Satisfies.bind (os₁.write_byte valid₁ i denotesValue)
  intro os₂ written
  refine ⟨?_, ?_, ?_⟩
  · apply Contains.set stored₁ (same₁.object.trans object) (same₁.size.trans size) written.toSameFrame written.valid
      (fun isLocked => lock (same₁.readOnly.symm.trans isLocked))
    intro j inside
    rw [written.bytes, same₁.bytes j (by rwa [size]), bytes j inside, bytes i within, bytesOther i within, Function.update_apply]
  · refine ⟨otherOS₁, ?_, sameOther₁.object.trans objectOther, sameOther₁.size.trans sizeOther, validOther₁, fun _ => trivial, ?_⟩
    · dsimp only
      rw [getElem?_set_ne apart]
      exact getElem?_set_self (lt_length_of_getElem? storedOther₁)
    · intro j inside
      rw [sameOther₁.bytes j (by rwa [sizeOther]), bytesOther j inside]
  · intro ref notWos notOther
    rw [getElem?_set_ne notWos.symm, getElem?_set_ne notOther.symm, getElem?_set_ne notWos.symm]

theorem mergeBytes_combines (inWos : Contains guards ρ False heap wos mo contentA) (inOther : Contains guards ρ True heap other mo contentB) :
    Satisfies (Excused guards ρ)
      (Written guards ρ heap wos other mo (fun i => if bit = 1#1 then contentA i else contentB i)
        contentB) ((List.range mo.size).foldlM (fun (heap, id) i => mergeByte o context fuel inA wos other heap id i) (heap, id)) := by
  have loop : Satisfies (Excused guards ρ) (Written guards ρ heap wos other mo (fun i =>
        if i ∈ List.range mo.size then if bit = 1#1 then contentA i else contentB i
        else contentA i) contentB)
      ((List.range mo.size).foldlM (fun (heap, id) i => mergeByte o context fuel inA wos other heap id i) (heap, id)) := by
    apply Satisfies.foldlM fun seen => Written guards ρ heap wos other mo (fun i =>
      if i ∈ seen then if bit = 1#1 then contentA i else contentB i else contentA i) contentB
    · exact ⟨by simpa using inWos, inOther, fun _ _ _ => rfl⟩
    · intro seen i remaining state split before
      have within : i < mo.size := mem_range.mp (by simp [split])
      apply (mergeByte_combines admits denotes apart within before.written before.read).mono
      intro result after
      refine ⟨?_, after.read, fun ref notWos notOther =>
        (after.elsewhere ref notWos notOther).trans (before.elsewhere ref notWos notOther)⟩
      convert after.written using 2 with j
      by_cases here : j = i
      · subst here
        by_cases isA : bit = 1#1 <;> simp [isA]
      · simp [here]
  apply loop.mono
  intro result after
  refine ⟨?_, after.read, after.elsewhere⟩
  obtain ⟨os, stored, object, size, valid, lock, bytes⟩ := after.written
  refine ⟨os, stored, object, size, valid, lock, ?_⟩
  intro i within
  rw [bytes i within]
  exact if_pos (mem_range.mpr within)

end

/-- Making an object writeable keeps its bytes and all other objects. -/
structure MadeWriteable (guards : Guards) (ρ : Assignment) (heap : Heap) (space : AddressSpace)
    (mo : MemoryObject) (ref : Ref) (content : Contents) (result : Heap × AddressSpace × Ref) :
    Prop where
  contains : Contains guards ρ False result.1 result.2.2 mo content
  place : result.2.2 = ref ∨ result.2.2 = heap.length
  kept : ∀ r < heap.length, result.1[r]? = heap[r]?
  found : result.2.1.findObject mo = some result.2.2
  others : ∀ mo' : MemoryObject, mo'.address ≠ mo.address →
    result.2.1.findObject mo' = space.findObject mo'
  keys : ∀ binding ∈ result.2.1.objects, binding ∈ space.objects ∨ binding.1 = mo

theorem getWriteable_madeWriteable {space : AddressSpace}
    (contains : Contains guards ρ locked heap ref mo content) (found : space.findObject mo = some ref) :
    Satisfies (fun _ => locked) (MadeWriteable guards ρ heap space mo ref content) (space.getWriteable heap mo ref) := by
  obtain ⟨os, stored, object, size, valid, lock, bytes⟩ := contains
  by_cases isLocked : os.readOnly = true
  · apply Satisfies.of_forall _ fun _ _ => lock isLocked
    intro result returned
    obtain ⟨os', stored', unprotected, -⟩ := AddressSpace.getWriteable_cases returned
    cases stored.symm.trans stored'
    exact absurd isLocked (by simp [unprotected])
  have unlocked : os.readOnly = true → False := isLocked
  have returns : ∃ result, space.getWriteable heap mo ref = .ok result ∧ space.Writeable heap mo ref os result :=
    AddressSpace.getWriteable_returns stored (Bool.not_eq_true _ ▸ isLocked)
  obtain ⟨result, returned, writeable⟩ := returns
  rw [returned]
  cases writeable with
  | inl owned =>
    obtain ⟨-, rfl⟩ := owned
    exact ⟨⟨os, stored, object, size, valid, unlocked, bytes⟩, .inl rfl, fun _ _ => rfl, found, fun _ _ => rfl, fun _ member => .inl member⟩
  | inr copied =>
    obtain ⟨-, rfl⟩ := copied
    refine ⟨⟨_, getElem?_concat_length, object, size, ?_, unlocked, bytes⟩, .inr rfl, ?_, ?_, ?_, ?_⟩
    · exact ⟨valid.narrow, valid.updates, valid.known, valid.cached⟩
    · intro r within
      exact getElem?_append_left within
    · rw [AddressSpace.findObject, AddressSpace.replace]
      exact congrArg (Option.map Prod.snd) ImmutableMap.lookup_replace_self
    · intro mo' different
      exact congrArg (Option.map Prod.snd) (ImmutableMap.lookup_replace_ne different)
    · intro binding member
      cases ImmutableMap.mem_of_mem_replace member with
      | inl new => exact .inr (congrArg Prod.fst new)
      | inr old => exact .inl old

theorem Contains.ne_of_ne {r r' : Ref} {mo' : MemoryObject} {content' : Contents} {locked' : Prop}
    (contains : Contains guards ρ locked heap r mo content) (contains' : Contains guards ρ locked' heap r' mo' content') (different : mo' ≠ mo) : r' ≠ r := by
  intro same
  obtain ⟨os, stored, object, -⟩ := contains
  obtain ⟨os', stored', object', -⟩ := contains'
  rw [same, stored] at stored'
  cases stored'
  exact different (object'.symm.trans object)

/-- The map binds each object, under its own address, to a state that has the bytes. -/
structure Binds (guards : Guards) (ρ : Assignment) (locked : MemoryObject → Prop) (heap : Heap)
    (space : AddressSpace) (contents : MemoryObject → Contents) : Prop where
  sorted : ImmutableMap.Sorted MemoryObject.address space.objects
  contains : ∀ binding ∈ space.objects,
    Contains guards ρ (locked binding.1) heap binding.2 binding.1 (contents binding.1)

namespace Binds

variable {space : AddressSpace} {contents : MemoryObject → Contents} {locked : MemoryObject → Prop} {binding binding' : MemoryObject × Ref}

section

variable (binds : Binds guards ρ locked heap space contents) (member : binding ∈ space.objects)
include binds member

theorem findObject : space.findObject binding.1 = some binding.2 := by
  rw [AddressSpace.findObject, binds.sorted.lookup_eq_some member]
  rfl

theorem address_ne (member' : binding' ∈ space.objects) (different : binding'.1 ≠ binding.1) :
    binding'.1.address ≠ binding.1.address := by
  intro same
  rw [binds.sorted.eq_of_rank_eq member' member same] at different
  exact different rfl

end

end Binds

/-- While objects are merged: the first state has the combined bytes in those that
have been seen, and nothing else has changed. -/
structure Merging (guards : Guards) (ρ : Assignment) (locked : MemoryObject → Prop)
    (a b : ExecutionState) (bit : BitVec 1) (contentsA contentsB : MemoryObject → Contents) (mutated seen : List MemoryObject)
    (result : Heap × Nat × ExecutionState) : Prop where
  stack : result.2.2.stack = a.stack
  keys : ∀ binding ∈ result.2.2.addressSpace.objects,
    binding.1 ∈ a.addressSpace.objects.map Prod.fst
  mine : ∀ binding ∈ a.addressSpace.objects, ∃ ref,
    result.2.2.addressSpace.findObject binding.1 = some ref ∧
      (binding.1 ∈ mutated → b.addressSpace.findObject binding.1 ≠ some ref) ∧
      Contains guards ρ (locked binding.1) result.1 ref binding.1
        (if binding.1 ∈ seen then
          fun i => if bit = 1#1 then contentsA binding.1 i else contentsB binding.1 i
        else contentsA binding.1)
  theirs : ∀ binding ∈ b.addressSpace.objects,
    Contains guards ρ True result.1 binding.2 binding.1 (contentsB binding.1)

section Loop

variable {heap₀ : Heap} {a b state : ExecutionState} {ra rb : Ref}
  {contentsA contentsB : MemoryObject → Contents} {mutated seen : List MemoryObject} {locked : MemoryObject → Prop}

theorem mergeObject_merging (admits : Admits o guards ρ) (denotes : Denotes guards ρ inA bit)
    (bindsA : Binds guards ρ locked heap₀ a.addressSpace contentsA)
    (bindsB : Binds guards ρ (fun _ => True) heap₀ b.addressSpace contentsB)
    (boundA : (mo, ra) ∈ a.addressSpace.objects) (boundB : (mo, rb) ∈ b.addressSpace.objects) (isMutated : mo ∈ mutated)
    (before : Merging guards ρ locked a b bit contentsA contentsB mutated seen (heap, id, state)) :
    Satisfies (fun fault => ¬ locked mo → Excused guards ρ fault) (Merging guards ρ locked a b bit contentsA contentsB mutated (seen ++ [mo]))
      (mergeObject o context fuel inA b heap id state mo) := by
  obtain ⟨stack, keys, mine, theirs⟩ := before
  obtain ⟨ref, foundA, apart, containsA⟩ := mine _ boundA
  have foundB := bindsB.findObject boundB
  have containsB := theirs _ boundB
  rw [mergeObject, foundA, foundB]
  apply Satisfies.bind ((getWriteable_madeWriteable containsA foundA).weaken fun _ isLocked unlocked => absurd isLocked unlocked)
  intro result made
  obtain ⟨heap₁, space, wos⟩ := result
  obtain ⟨containsWos, place, kept, found, others, keysSpace⟩ := made
  dsimp only at containsWos place kept found others keysSpace ⊢
  have stays {r : Ref} {mo' : MemoryObject} {content : Contents} {lock : Prop}
      (contains : Contains guards ρ lock heap r mo' content) : Contains guards ρ lock heap₁ r mo' content := by
    apply contains.congr
    obtain ⟨os, stored, -⟩ := contains
    exact kept r (lt_length_of_getElem? stored)
  have different : wos ≠ rb := by
    cases place with
    | inl same =>
      rw [same]
      intro same
      exact apart isMutated (same ▸ foundB)
    | inr fresh =>
      obtain ⟨os, stored, -⟩ := containsB
      have old := lt_length_of_getElem? stored
      intro same
      rw [← same, fresh] at old
      exact Nat.lt_irrefl _ old
  apply Satisfies.bind ((mergeBytes_combines admits denotes different containsWos (stays containsB)).weaken fun _ excused _ => excused)
  intro result written
  obtain ⟨heap₂, id₂⟩ := result
  obtain ⟨containsWritten, containsRead, elsewhere⟩ := written
  have remains {r : Ref} {mo' : MemoryObject} {content : Contents} {lock : Prop} (isOther : mo' ≠ mo)
      (contains : Contains guards ρ lock heap r mo' content) :
      Contains guards ρ lock heap₂ r mo' content := by
    have contains₁ := stays contains
    exact contains₁.congr (elsewhere r (containsWos.ne_of_ne contains₁ isOther) ((stays containsB).ne_of_ne contains₁ isOther))
  constructor
  · exact stack
  · intro binding member
    cases keysSpace binding member with
    | inl old => exact keys binding old
    | inr new => exact mem_map.mpr ⟨_, boundA, new.symm⟩
  · intro binding member
    by_cases here : binding.1 = mo
    · refine ⟨wos, by rw [here]; exact found, ?_, ?_⟩
      · rw [here, foundB]
        exact fun _ same => different (Option.some.inj same).symm
      · rw [if_pos (by simp [here]), here]
        apply Contains.unlocked
        convert containsWritten using 2 with i
        by_cases isA : bit = 1#1
        · simp [isA]
        · simp [isA]
    · obtain ⟨r, foundR, apartR, containsR⟩ := mine binding member
      refine ⟨r, (others binding.1 (bindsA.address_ne boundA member here)).trans foundR, apartR, ?_⟩
      have containsAfter := remains here containsR
      simpa [here] using containsAfter
  · intro binding member
    by_cases here : binding.1 = mo
    · have same : binding = (mo, rb) := by
        apply bindsB.sorted.eq_of_rank_eq member boundB
        exact congrArg MemoryObject.address here
      rw [same]
      exact containsRead
    · exact remains here (theirs binding member)

end Loop

structure Compared (as bs : List (MemoryObject × Ref)) (mutated : List MemoryObject) : Prop where
  bound : ∀ binding ∈ as, ∃ ref, (binding.1, ref) ∈ bs ∧ (binding.1 ∈ mutated ∨ binding.2 = ref)
  differ : ∀ mo ∈ mutated, ∃ ra rb, (mo, ra) ∈ as ∧ (mo, rb) ∈ bs ∧ ra ≠ rb

theorem mutatedObjects_compared : ∀ {as bs : List (MemoryObject × Ref)}
    {mutated : List MemoryObject}, mutatedObjects as bs = some mutated → Compared as bs mutated
  | [], [], _, rfl => ⟨nofun, nofun⟩
  | (mo, ra) :: as, (mo', rb) :: bs, mutated, found => by
    rw [mutatedObjects] at found
    split at found
    · cases found
    · rename_i same
      rw [Ne, not_not] at same
      subst same
      obtain ⟨rest, foundRest, rfl⟩ := Option.map_eq_some_iff.mp found
      obtain ⟨bound, differ⟩ := mutatedObjects_compared foundRest
      have included : ∀ mo' ∈ rest, mo' ∈ if ra ≠ rb then mo :: rest else rest := by
        intro mo' member
        split
        · exact mem_cons_of_mem mo member
        · exact member
      constructor
      · intro binding member
        obtain rfl | later := mem_cons.mp member
        · refine ⟨rb, by simp, ?_⟩
          by_cases differs : ra = rb
          · exact .inr differs
          · exact .inl (by simp [differs])
        · obtain ⟨ref, memberRef, either⟩ := bound binding later
          exact ⟨ref, by simp [memberRef], either.imp_left (included _)⟩
      · intro other member
        have either : (ra ≠ rb ∧ other = mo) ∨ other ∈ rest := by
          split at member
          · rename_i differs
            exact (mem_cons.mp member).imp_left fun same => ⟨differs, same⟩
          · exact .inr member
        cases either with
        | inl here =>
          obtain ⟨differs, rfl⟩ := here
          exact ⟨ra, rb, by simp, by simp, differs⟩
        | inr later =>
          obtain ⟨r, r', memberA, memberB, differs⟩ := differ other later
          exact ⟨r, r', by simp [memberA], by simp [memberB], differs⟩

end Objects

section Merge

variable {s a b merged : ExecutionState} {heap' : Heap} {id' : Nat}

def byte? (ρ : Assignment) (heap : Heap) (s : ExecutionState) (mo : MemoryObject) (i : Nat) :
    Option (BitVec 8) := do
  let ref ← s.addressSpace.findObject mo
  let os ← heap[ref]?
  pure (os.byte ρ i)

/-- What a state holds is well formed, and each binding is one of an object to a
state of that object. -/
structure Valid (guards : Guards) (heap : Heap) (s : ExecutionState) : Prop where
  constraints : ∀ c ∈ s.constraints, Constraint guards c
  registers : ∀ frame ∈ s.stack, ∀ i e, frame.locals i = some e → e.WellFormed guards
  sorted : ImmutableMap.Sorted MemoryObject.address s.addressSpace.objects
  objects : ∀ binding ∈ s.addressSpace.objects, ∃ os, heap[binding.2]? = some os ∧
    os.object = binding.1 ∧ os.size = binding.1.size ∧ os.Valid guards

def contents (ρ : Assignment) (heap : Heap) (s : ExecutionState) (mo : MemoryObject) : Contents :=
  fun i => (s.byte? ρ heap mo i).getD 0

theorem Contains.byte? {content : Contents} {i : Nat} {locked : Prop} (contains : Contains guards ρ locked heap ref mo content)
    (found : s.addressSpace.findObject mo = some ref) (within : i < mo.size) : s.byte? ρ heap mo i = some (content i) := by
  obtain ⟨os, stored, -, -, -, -, bytes⟩ := contains
  simp [ExecutionState.byte?, found, stored, bytes i within]

theorem Valid.binds {locked : MemoryObject → Prop} (valid : s.Valid guards heap)
    (lock : ∀ binding ∈ s.addressSpace.objects, ∀ os, heap[binding.2]? = some os → os.readOnly = true → locked binding.1) :
    Binds guards ρ locked heap s.addressSpace (s.contents ρ heap) := by
  refine ⟨valid.sorted, ?_⟩
  intro binding member
  obtain ⟨os, stored, object, size, validObject⟩ := valid.objects binding member
  refine ⟨os, stored, object, size, validObject, lock binding member os stored, ?_⟩
  intro i within
  have found : s.addressSpace.findObject binding.1 = some binding.2 := by
    rw [Memory.AddressSpace.findObject, valid.sorted.lookup_eq_some member]
    rfl
  simp [contents, ExecutionState.byte?, found, stored]

/-- Under the assignment the merged state has the values that one of the two states
has, in the registers that both have written and in memory. -/
structure Keeps (ρ : Assignment) (heap heap' : Heap) (s other merged : ExecutionState) :
    Prop where
  registers : ∀ {depth i : Nat} {frame otherFrame : StackFrame} {e : Expr},
    s.stack[depth]? = some frame → other.stack[depth]? = some otherFrame →
    i < frame.kf.numRegisters → frame.locals i = some e → otherFrame.locals i ≠ none →
    ∃ mergedFrame e', merged.stack[depth]? = some mergedFrame ∧
      mergedFrame.locals i = some e' ∧ e'.width = e.width ∧ e'.eval ρ e.width = e.eval ρ e.width
  bytes : ∀ binding ∈ merged.addressSpace.objects, ∀ i < binding.1.size, ∃ value,
    merged.byte? ρ heap' binding.1 i = some value ∧ s.byte? ρ heap binding.1 i = some value

def commonConstraints (le : Expr → Expr → Bool) (a b : ExecutionState) : List Expr :=
  (exprSet le a.constraints).filter (· ∈ exprSet le b.constraints)

def suffix (le : Expr → Expr → Bool) (a b s : ExecutionState) : List Expr :=
  (exprSet le s.constraints).filter (· ∉ commonConstraints le a b)

theorem mem_commonConstraints {c : Expr} : c ∈ commonConstraints le a b ↔ c ∈ a.constraints ∧ c ∈ b.constraints := by
  simp [commonConstraints]

theorem hold_iff (included : ∀ c ∈ commonConstraints le a b, c ∈ s.constraints) :
    Hold ρ s.constraints ↔ Hold ρ (commonConstraints le a b) ∧ Hold ρ (suffix le a b s) := by
  constructor
  · intro hold
    refine ⟨fun c member => hold c (included c member), fun c member => hold c ?_⟩
    exact mem_exprSet.mp (mem_filter.mp member).1
  · intro hold c member
    by_cases common : c ∈ commonConstraints le a b
    · exact hold.1 c common
    · exact hold.2 c (mem_filter.mpr ⟨mem_exprSet.mpr member, by simpa using common⟩)

theorem Valid.suffix (valid : s.Valid guards heap) : ∀ c ∈ ExecutionState.suffix le a b s, Constraint guards c :=
  fun c member => valid.constraints c (mem_exprSet.mp (mem_filter.mp member).1)

section

variable {bit : BitVec 1} {inA : Expr} (denotes : Denotes guards ρ inA bit) (validA : a.Valid guards heap) (validB : b.Valid guards heap)
include denotes validA validB

theorem mergeFrames_combine (allowed : o.Allows guards ρ) :
    Satisfies (fun fault => (∀ frames ∈ a.stack.zip b.stack, Fitting frames.1 frames.2) → Excused guards ρ fault)
      (List.Forall₂ (fun frames frame => CombinesFrame ρ bit frames.1 frames.2 frame) (a.stack.zip b.stack))
      ((a.stack.zip b.stack).mapM fun (af, bf) => mergeFrame o fuel inA af bf) := by
  apply Satisfies.mapM
  intro pair member
  obtain ⟨af, bf⟩ := pair
  apply (mergeFrame_combines allowed denotes (validA.registers af (of_mem_zip member).1) (validB.registers bf (of_mem_zip member).2)).weaken
  exact fun fault excused fit => excused (fit (af, bf) member)

theorem mergeObjects_merging (locked : MemoryObject → Prop) (admits : Admits o guards ρ)
    (lock : ∀ binding ∈ a.addressSpace.objects, ∀ os, heap[binding.2]? = some os → os.readOnly = true → locked binding.1)
    {mutated : List MemoryObject} (compares : mutatedObjects a.addressSpace.objects b.addressSpace.objects = some mutated)
    (stack : List StackFrame) :
    Satisfies (fun fault => (∀ mo ∈ mutated, ¬ locked mo) → Excused guards ρ fault)
      (Merging guards ρ locked { a with stack := stack } b bit (a.contents ρ heap) (b.contents ρ heap) mutated mutated)
      (mutated.foldlM (fun (heap, id, a) mo => mergeObject o context fuel inA b heap id a mo) (heap, id, { a with stack := stack })) := by
  have compared := mutatedObjects_compared compares
  have bindsA : Binds guards ρ locked heap a.addressSpace (a.contents ρ heap) := validA.binds lock
  have bindsB : Binds guards ρ (fun _ => True) heap b.addressSpace (b.contents ρ heap) := validB.binds fun _ _ _ _ _ => trivial
  apply Satisfies.foldlM (Merging guards ρ locked { a with stack := stack } b bit (a.contents ρ heap) (b.contents ρ heap) mutated)
  · refine ⟨rfl, fun binding member => mem_map_of_mem member, ?_, bindsB.contains⟩
    intro binding member
    refine ⟨binding.2, bindsA.findObject member, ?_, by simpa using bindsA.contains _ member⟩
    intro isMutated same
    obtain ⟨ra, rb, boundA, boundB, differ⟩ := compared.differ _ isMutated
    have isBound := bindsA.findObject boundA
    rw [bindsA.findObject member] at isBound
    rw [bindsB.findObject boundB] at same
    exact differ ((Option.some.inj isBound).symm.trans (Option.some.inj same).symm)
  · intro seen mo remaining state split before
    have isMutated : mo ∈ mutated := by simp [split]
    obtain ⟨ra, rb, boundA, boundB, -⟩ := compared.differ _ isMutated
    apply (mergeObject_merging (a := { a with stack := stack }) admits denotes bindsA bindsB boundA boundB isMutated before).weaken
    exact fun fault excused unlocked => excused (unlocked mo isMutated)

end

/-- A run of `merge` that has merged two states, with what it has computed. -/
structure MergeRun (o : Options) (context : Context) (fuel : Nat) (le : Expr → Expr → Bool)
    (heap heap' : Heap) (id id' : Nat) (a b merged : ExecutionState) where
  mutated : List MemoryObject
  inA : Expr
  inB : Expr
  stack : List StackFrame
  state : ExecutionState
  kept : List Expr
  either : Expr
  result : List Expr
  frames : sameFrames a.stack b.stack = true
  compares : mutatedObjects a.addressSpace.objects b.addressSpace.objects = some mutated
  conjoinsA : conjunction (suffix le a b a) = .ok inA
  conjoinsB : conjunction (suffix le a b b) = .ok inB
  mergesFrames : (a.stack.zip b.stack).mapM (fun (af, bf) => mergeFrame o fuel inA af bf) =
    .ok stack
  mergesObjects : mutated.foldlM
    (fun (heap, id, a) mo => mergeObject o context fuel inA b heap id a mo)
    (heap, id, { a with stack := stack }) = .ok (heap', id', state)
  keeps : (commonConstraints le a b).foldlM (ConstraintManager.addConstraint o fuel) [] = .ok kept
  disjoins : OrExpr.create inA inB = .ok either
  adds : ConstraintManager.addConstraint o fuel kept either = .ok result
  isMerged : merged = { state with constraints := result }

theorem merge_run
    (returned : merge o context fuel le heap id a b = .ok (some (heap', id', merged))) :
    Nonempty (MergeRun o context fuel le heap heap' id id' a b merged) := by
  rw [merge] at returned
  split at returned
  · cases returned
  split at returned
  · cases returned
  split at returned
  · cases returned
  rename_i frames
  rw [Bool.not_eq_false] at frames
  split at returned
  · cases returned
  rename_i mutated compared
  obtain ⟨inA, isInA, returned⟩ := bind_eq_ok_iff.mp returned
  obtain ⟨inB, isInB, returned⟩ := bind_eq_ok_iff.mp returned
  obtain ⟨stack, isStack, returned⟩ := bind_eq_ok_iff.mp returned
  obtain ⟨⟨heap'', id'', state⟩, objects, returned⟩ := bind_eq_ok_iff.mp returned
  obtain ⟨kept, isKept, returned⟩ := bind_eq_ok_iff.mp returned
  obtain ⟨either, isEither, returned⟩ := bind_eq_ok_iff.mp returned
  obtain ⟨result, added, returned⟩ := bind_eq_ok_iff.mp returned
  cases returned
  exact ⟨⟨mutated, inA, inB, stack, state, kept, either, result, frames, compared, isInA, isInB,
    isStack, objects, isKept, isEither, added, rfl⟩⟩

/-- One of the two path conditions can be true where constant arrays are read within
their bounds. -/
def Feasible (o : Options) (a b : ExecutionState) : Prop :=
  ∃ ρ, (∀ c ∈ a.constraints ++ b.constraints, Constraint (.bounded o ρ) c) ∧
    (Hold ρ a.constraints ∨ Hold ρ b.constraints)

namespace MergeRun

section

variable (run : MergeRun o context fuel le heap heap' id id' a b merged)
  (validA : a.Valid (.bounded o ρ) heap) (validB : b.Valid (.bounded o ρ) heap)
include run validA validB

theorem constraints_hold (feasible : o.constArrayOpt = true → Feasible o a b) :
    Hold ρ merged.constraints ↔ Hold ρ a.constraints ∨ Hold ρ b.constraints := by
  have inCommon {c : Expr} (member : c ∈ commonConstraints le a b) :
      c ∈ a.constraints ∧ c ∈ b.constraints := mem_commonConstraints.mp member
  have common (c) (member : c ∈ commonConstraints le a b) : Constraint (.bounded o ρ) c := validA.constraints c (inCommon member).1
  have suffixes {guards : Guards} {ρ : Assignment} (constraint : ∀ c ∈ a.constraints ++ b.constraints, Constraint guards c) :
      Constraint guards run.either ∧ (run.either.eval ρ 1 = 1#1 ↔ Hold ρ (suffix le a b a) ∨ Hold ρ (suffix le a b b)) := by
    have inSuffix {s : ExecutionState} {c : Expr} (member : c ∈ suffix le a b s) :
        c ∈ s.constraints := mem_exprSet.mp (mem_filter.mp member).1
    have conjoinsA := (conjunction_conjoins (ρ := ρ) fun c member =>
      constraint c (by simp [inSuffix member])).elim run.conjoinsA
    have conjoinsB := (conjunction_conjoins (ρ := ρ) fun c member =>
      constraint c (by simp [inSuffix member])).elim run.conjoinsB
    exact (either_denotes conjoinsA conjoinsB).elim run.disjoins
  have constraintsOf (c) (member : c ∈ a.constraints ++ b.constraints) :
      Constraint (.bounded o ρ) c :=
    (mem_append.mp member).elim (validA.constraints c) (validB.constraints c)
  have lasts : ∃ valid, Lasting o valid ∧ (∀ c ∈ commonConstraints le a b, valid c) ∧ valid run.either := by
    by_cases enabled : o.constArrayOpt = true
    · obtain ⟨ρ₀, constraint, hold⟩ := feasible enabled
      refine ⟨_, Lasting.holds Guards.allows_bounded (Guards.extensional_bounded (ρ := ρ₀)), ?_, ?_⟩
      · intro c member
        obtain ⟨wellFormed, width⟩ := constraint c (by simp [inCommon member])
        refine ⟨wellFormed, width, ?_⟩
        exact hold.elim (fun hold => hold c (inCommon member).1) fun hold => hold c (inCommon member).2
      · obtain ⟨typed, holds⟩ := suffixes (ρ := ρ₀) constraint
        refine ⟨typed.1, typed.2, holds.mpr ?_⟩
        exact hold.imp (fun hold => ((hold_iff fun c member => (inCommon member).1).mp hold).2)
          fun hold => ((hold_iff fun c member => (inCommon member).2).mp hold).2
    · exact ⟨_, Lasting.typed Guards.allows_bounded (Guards.free_bounded enabled), common, (suffixes (ρ := ρ) constraintsOf).1⟩
  obtain ⟨valid, lasting, validCommon, validEither⟩ := lasts
  obtain ⟨constraint, holds⟩ := suffixes (ρ := ρ) constraintsOf
  have holdA := hold_iff (ρ := ρ) (s := a) fun c member => (inCommon (c := c) member).1
  have holdB := hold_iff (ρ := ρ) (s := b) fun c member => (inCommon (c := c) member).2
  rw [run.isMerged, addConstraints_hold lasting Guards.allows_bounded Guards.extensional_bounded
    common validCommon constraint validEither run.keeps run.adds, holds, holdA, holdB]
  exact and_or_left

/-- What the run decides about the two states: which of them the first suffix
stands for. -/
theorem combined :
    ∃ bit : BitVec 1, (bit = 1#1 ↔ Hold ρ (suffix le a b a)) ∧
      List.Forall₂ (fun frames frame => CombinesFrame ρ bit frames.1 frames.2 frame)
        (a.stack.zip b.stack) merged.stack ∧ Merging (.bounded o ρ) ρ (fun _ => True) { a with stack := merged.stack } b bit
        (a.contents ρ heap) (b.contents ρ heap) run.mutated run.mutated (heap', id', run.state) := by
  obtain ⟨bit, denotes, holds⟩ := (conjunction_conjoins (ρ := ρ) validA.suffix).elim run.conjoinsA
  have frames := (mergeFrames_combine denotes validA validB Guards.allows_bounded).elim run.mergesFrames
  have objects := (mergeObjects_merging denotes validA validB (fun _ => True) Admits.bounded
    (fun _ _ _ _ _ => trivial) run.compares run.stack).elim run.mergesObjects
  have stack : merged.stack = run.stack := (congrArg ExecutionState.stack run.isMerged).trans objects.stack
  rw [← stack] at frames objects
  exact ⟨bit, holds, frames, objects⟩

end

theorem sameFrames_kf : ∀ {as bs : List StackFrame} {depth : Nat} {af bf : StackFrame},
    sameFrames as bs = true → as[depth]? = some af → bs[depth]? = some bf → af.kf = bf.kf
  | a :: as, b :: bs, 0, af, bf, same, isA, isB => by
    rw [sameFrames, Bool.and_eq_true, Bool.and_eq_true, decide_eq_true_iff, decide_eq_true_iff] at same
    cases Option.some.inj isA
    cases Option.some.inj isB
    exact same.1.2
  | a :: as, b :: bs, depth + 1, af, bf, same, isA, isB => by
    rw [sameFrames, Bool.and_eq_true] at same
    exact sameFrames_kf same.2 isA isB

theorem register_combines {bit : BitVec 1} {stack : List StackFrame}
    (frames : List.Forall₂ (fun frames frame => CombinesFrame ρ bit frames.1 frames.2 frame)
      (a.stack.zip b.stack) stack) {depth i : Nat} {af bf : StackFrame} (isA : a.stack[depth]? = some af)
    (isB : b.stack[depth]? = some bf) (within : i < af.kf.numRegisters) :
    ∃ frame, stack[depth]? = some frame ∧ Combines ρ bit (af.locals i) (bf.locals i) (frame.locals i) := by
  have isPair : (a.stack.zip b.stack)[depth]? = some (af, bf) := getElem?_zip_eq_some.mpr ⟨isA, isB⟩
  obtain ⟨inside, isPair⟩ := List.getElem?_eq_some_iff.mp isPair
  have insideStack : depth < stack.length := frames.length_eq ▸ inside
  have combines := frames.get inside insideStack
  simp only [get_eq_getElem, isPair] at combines
  exact ⟨stack[depth], getElem?_eq_getElem insideStack, combines.locals i within⟩

section

variable (run : MergeRun o context fuel le heap heap' id id' a b merged)
  (validA : a.Valid (.bounded o ρ) heap) (validB : b.Valid (.bounded o ρ) heap)
include run validA validB

theorem keeps_first (hold : Hold ρ a.constraints) : Keeps ρ heap heap' a b merged := by
  obtain ⟨bit, holds, frames, objects⟩ := run.combined validA validB
  have included (c) (member : c ∈ commonConstraints le a b) : c ∈ a.constraints := (mem_commonConstraints.mp member).1
  have isFirst : bit = 1#1 := holds.mpr ((hold_iff included).mp hold).2
  constructor
  · intro depth i frame otherFrame e isFrame isOther within isRegister written
    obtain ⟨mergedFrame, isMerged, combines⟩ := register_combines frames isFrame isOther within
    obtain ⟨e₂, isWritten⟩ := Option.ne_none_iff_exists'.mp written
    obtain ⟨e', isValue, width, -, value⟩ := combines e e₂ isRegister isWritten
    rw [if_pos isFirst, width] at value
    exact ⟨mergedFrame, e', isMerged, isValue, width, value⟩
  · intro binding member i within
    have space : merged.addressSpace = run.state.addressSpace := (congrArg ExecutionState.addressSpace run.isMerged).trans rfl
    obtain ⟨bound, memberA, same⟩ := mem_map.mp (objects.keys binding (space ▸ member))
    obtain ⟨ref, found, -, contains⟩ := objects.mine bound memberA
    have bindsA : Binds (.bounded o ρ) ρ (fun _ => True) heap a.addressSpace (a.contents ρ heap) := validA.binds fun _ _ _ _ _ => trivial
    have byteA := (bindsA.contains bound memberA).byte? (bindsA.findObject memberA) (same ▸ within)
    have byteMerged := contains.byte? found (same ▸ within)
    rw [same] at byteA byteMerged
    refine ⟨_, ?_, byteA⟩
    rw [byte?, space]
    refine byteMerged.trans (congrArg some ?_)
    by_cases mutated : binding.1 ∈ run.mutated
    · rw [if_pos mutated, if_pos isFirst]
    · rw [if_neg mutated]

theorem keeps_second (exclusive : ¬ Hold ρ a.constraints) (hold : Hold ρ b.constraints) : Keeps ρ heap heap' b a merged := by
  obtain ⟨bit, holds, frames, objects⟩ := run.combined validA validB
  have notFirst : ¬ bit = 1#1 := by
    intro isFirst
    have common : Hold ρ (commonConstraints le a b) := fun c member => hold c (mem_commonConstraints.mp member).2
    apply exclusive
    rw [hold_iff fun c member => (mem_commonConstraints.mp member).1]
    exact ⟨common, holds.mp isFirst⟩
  constructor
  · intro depth i frame otherFrame e isFrame isOther within isRegister written
    rw [← sameFrames_kf run.frames isOther isFrame] at within
    obtain ⟨mergedFrame, isMerged, combines⟩ := register_combines frames isOther isFrame within
    obtain ⟨e₁, isWritten⟩ := Option.ne_none_iff_exists'.mp written
    obtain ⟨e', isValue, -, width, value⟩ := combines e₁ e isWritten isRegister
    rw [if_neg notFirst, width] at value
    exact ⟨mergedFrame, e', isMerged, isValue, width, value⟩
  · intro binding member i within
    have space : merged.addressSpace = run.state.addressSpace := (congrArg ExecutionState.addressSpace run.isMerged).trans rfl
    obtain ⟨bound, memberA, same⟩ := mem_map.mp (objects.keys binding (space ▸ member))
    obtain ⟨mo, refA⟩ := bound
    subst same
    obtain ⟨ref, found, -, contains⟩ := objects.mine _ memberA
    obtain ⟨refB, memberB, either⟩ := (mutatedObjects_compared run.compares).bound _ memberA
    have bindsA : Binds (.bounded o ρ) ρ (fun _ => True) heap a.addressSpace (a.contents ρ heap) := validA.binds fun _ _ _ _ _ => trivial
    have bindsB : Binds (.bounded o ρ) ρ (fun _ => True) heap b.addressSpace (b.contents ρ heap) := validB.binds fun _ _ _ _ _ => trivial
    have foundB := bindsB.findObject memberB
    have byteB := (bindsB.contains _ memberB).byte? foundB within
    have byteMerged := contains.byte? found within
    refine ⟨_, ?_, byteB⟩
    rw [byte?, space]
    refine byteMerged.trans (congrArg some ?_)
    by_cases mutated : binding.1 ∈ run.mutated
    · rw [if_pos mutated, if_neg notFirst]
    · have sameRef : refA = refB := either.resolve_left mutated
      rw [if_neg mutated]
      subst sameRef
      have sameByte : a.byte? ρ heap binding.1 i = b.byte? ρ heap binding.1 i := by
        rw [byte?, byte?, foundB]
        exact congrArg (Option.bind · _) (bindsA.findObject memberA)
      exact congrArg (Option.getD · 0) sameByte

end

end MergeRun

/-- Under every assignment the merged state stands for the state whose path
condition holds. -/
theorem merge_sound (exclusive : ∀ ρ, ¬ (Hold ρ a.constraints ∧ Hold ρ b.constraints))
    (feasible : o.constArrayOpt = true → Feasible o a b)
    (returned : merge o context fuel le heap id a b = .ok (some (heap', id', merged)))
    (ρ : Assignment) (validA : a.Valid (.bounded o ρ) heap) (validB : b.Valid (.bounded o ρ) heap) :
    (Hold ρ merged.constraints ↔ Hold ρ a.constraints ∨ Hold ρ b.constraints) ∧
      (Hold ρ a.constraints → Keeps ρ heap heap' a b merged) ∧
      (Hold ρ b.constraints → Keeps ρ heap heap' b a merged) := by
  obtain ⟨run⟩ := merge_run returned
  refine ⟨run.constraints_hold validA validB feasible, run.keeps_first validA validB, ?_⟩
  intro hold
  exact run.keeps_second validA validB (fun holdA => exclusive ρ ⟨holdA, hold⟩) hold

section Example

open Symbolic.ConstraintManager (sampleCondition sampleCondition_wellFormed)

def sampleMemory : MemoryObject := ⟨1, 4096, 1, false⟩

def sampleHeap : Heap :=
  [{ ObjectState.create sampleMemory none with copyOnWriteOwner := 1 },
    { (ObjectState.create sampleMemory none).write8Concrete 0 7 with copyOnWriteOwner := 2 }]

def sampleState (cowKey : BitVec 32) (ref : Ref) (register : Nat) (condition : Expr) :
    ExecutionState :=
  ⟨0, 0, [⟨0, ⟨0, 1⟩, fun _ => some (.constant (.alloc register 8))⟩], 0, false,
    ⟨cowKey, [(sampleMemory, ref)]⟩, [condition], []⟩

def sampleFirst : ExecutionState := sampleState 1 0 1 sampleCondition

def sampleSecond : ExecutionState :=
  sampleState 2 1 2 (.cmp .eq (.constant (.alloc 0 1)) sampleCondition)

theorem sampleState_valid {cowKey : BitVec 32} {register : Nat} {condition : Expr}
    (constraint : Constraint guards condition) {os : ObjectState} (stored : sampleHeap[ref]? = some os)
    (object : os.object = sampleMemory) (size : os.size = 1) (updates : os.updates = ⟨none, .null⟩)
    (known : os.knownSymbolics = none) (concrete : os.concreteMask = none) :
    (sampleState cowKey ref register condition).Valid guards sampleHeap where
  constraints := by simpa [sampleState] using constraint
  registers := by
    intro frame member i e isRegister
    cases mem_singleton.mp member
    cases isRegister
    trivial
  sorted := pairwise_singleton _ _
  objects := by
    intro binding member
    cases mem_singleton.mp member
    refine ⟨os, stored, object, size, by rw [size]; decide, ?_, ?_, ?_⟩
    · rw [updates]
      exact ⟨rfl, rfl, rfl, trivial⟩
    · intro i e _ isKnown
      rw [ObjectState.knownSymbolic?, known] at isKnown
      cases isKnown
    · intro i _ _
      left
      rw [ObjectState.isByteConcrete, concrete]

theorem exprSet_singleton (c : Expr) : exprSet le [c] = [c] := by simp [exprSet]

theorem merge_sound_sample :
    ∃ heap' id' merged, merge ⟨false, true⟩ ⟨true, 64⟩ 30 (fun _ _ => true) sampleHeap 0
        sampleFirst sampleSecond = .ok (some (heap', id', merged)) ∧
      ∀ ρ, (Hold ρ merged.constraints ↔
          Hold ρ sampleFirst.constraints ∨ Hold ρ sampleSecond.constraints) ∧
        (Hold ρ sampleFirst.constraints → Keeps ρ sampleHeap heap' sampleFirst sampleSecond merged) ∧
        (Hold ρ sampleSecond.constraints →
          Keeps ρ sampleHeap heap' sampleSecond sampleFirst merged) := by
  have returned : ∃ heap' id' merged, merge ⟨false, true⟩ ⟨true, 64⟩ 30 (fun _ _ => true)
      sampleHeap 0 sampleFirst sampleSecond = .ok (some (heap', id', merged)) := by
    rw [merge]
    simp only [sampleFirst, sampleSecond, sampleState, exprSet_singleton]
    exact ⟨_, _, _, rfl⟩
  obtain ⟨heap', id', merged, returned⟩ := returned
  refine ⟨heap', id', merged, returned, fun ρ => ?_⟩
  apply merge_sound _ (fun enabled => absurd enabled Bool.false_ne_true) returned ρ
  · exact sampleState_valid ⟨sampleCondition_wellFormed, rfl⟩ rfl rfl rfl rfl rfl rfl
  · exact sampleState_valid ⟨⟨trivial, sampleCondition_wellFormed, rfl⟩, rfl⟩ rfl rfl rfl rfl rfl rfl
  · intro ρ both
    have holds : sampleCondition.eval ρ 1 = 1#1 := both.1 _ (mem_singleton_self _)
    have fails := both.2 _ (mem_singleton_self _)
    change (BitVec.ofBool (0#1 == sampleCondition.eval ρ 1)).setWidth 1 = 1#1 at fails
    rw [holds] at fails
    contradiction

end Example

end Merge

end ExecutionState

end NeuroMerge.Execution
