import NeuroMerge.Execution.Resolve
import NeuroMerge.Execution.Queries
import NeuroMerge.Execution.SymbolicCallProperties

/-!
# Resolution finds the possible targets

Objects do not share addresses and are ordered by them, so the first object that the
pointer is never below ends the search backwards, and the first one that it is always
below ends the search forwards.
-/

namespace NeuroMerge.Memory

def MemoryObject.Contains (mo : MemoryObject) (address : Nat) : Prop :=
  mo.address ≤ address ∧ address < mo.address + max 1 mo.size

instance (mo : MemoryObject) (address : Nat) : Decidable (mo.Contains address) :=
  inferInstanceAs (Decidable (_ ∧ _))

structure MemoryObject.Addressable (pointerWidth : Nat) (mo : MemoryObject) : Prop where
  address : mo.address < 2 ^ pointerWidth
  size : mo.size < 2 ^ pointerWidth
  last : mo.address + mo.size ≤ 2 ^ pointerWidth

/-- No address is in two objects, and the objects are in the order of their addresses. -/
structure AddressSpace.Separate (pointerWidth : Nat) (space : AddressSpace) : Prop where
  sorted : ImmutableMap.Sorted MemoryObject.address space.objects
  disjoint : space.objects.Pairwise fun first second =>
    ∀ address, first.1.Contains address → ¬ second.1.Contains address
  addressable : ∀ op ∈ space.objects, op.1.Addressable pointerWidth

def MemoryObject.Precedes (first second : MemoryObject) : Prop :=
  ∀ address, first.Contains address → address < second.address

variable {mo first second : MemoryObject} {pointerWidth w : Nat}

theorem MemoryObject.contains_base (mo : MemoryObject) : mo.Contains mo.address :=
  ⟨Nat.le_refl _, by omega⟩

theorem MemoryObject.Precedes.of_disjoint (below : first.address < second.address)
    (disjoint : ∀ address, first.Contains address → ¬ second.Contains address) : first.Precedes second := by
  intro address contains
  by_contra above
  -- the first object would contain the base of the second one
  apply disjoint second.address ⟨Nat.le_of_lt below, ?_⟩ second.contains_base
  have last := contains.2
  omega

theorem AddressSpace.Separate.precedes {space : AddressSpace} (separate : space.Separate pointerWidth) :
    space.objects.Pairwise fun first second => first.1.Precedes second.1 :=
  separate.sorted.imp₂ (fun _ _ below disjoint => .of_disjoint below disjoint) separate.disjoint

theorem AddressSpace.Separate.eq_of_contains {space : AddressSpace}
    (separate : space.Separate pointerWidth) {op other : MemoryObject × Ref} {address : Nat}
    (member : op ∈ space.objects) (memberOther : other ∈ space.objects)
    (contains : op.1.Contains address) (containsOther : other.1.Contains address) : op = other := by
  have apart := List.Pairwise.forall_of_forall_of_flip (R := fun first second : MemoryObject × Ref =>
      first.1.Contains address → second.1.Contains address → first = second)
    (fun _ _ _ _ => rfl) (separate.disjoint.imp fun disjoint inFirst inSecond =>
      absurd inSecond (disjoint address inFirst))
    (separate.disjoint.imp fun disjoint inSecond inFirst =>
      absurd inSecond (disjoint address inFirst))
  exact apart member memberOther contains containsOther

end NeuroMerge.Memory

namespace NeuroMerge.Execution

open List Symbolic
open Symbolic.ConstraintManager (Hold)
open Memory (MemoryObject AddressSpace Ref)

variable {ρ : Assignment} {o : Options} {simplifyExprs : Bool} {solver : Solver} {w fuel : Nat}
  {constraints : List Expr} {p : Expr} {value : Assignment → BitVec w} {mo : MemoryObject}
  {maxResolutions : Nat} {expired : ObjectPair → Bool}

section Conditions

theorem inBounds_offset (addressable : mo.Addressable w) (v : BitVec w) :
    (if mo.size = 0 then v - BitVec.ofNat w mo.address == 0#w
      else (v - BitVec.ofNat w mo.address).ult (BitVec.ofNat w mo.size)) = decide (mo.Contains v.toNat) := by
  have bounded := addressable.address
  have last := addressable.last
  have offset : (v - BitVec.ofNat w mo.address).toNat =
      if mo.address ≤ v.toNat then v.toNat - mo.address
      else 2 ^ w - mo.address + v.toNat := by
    rw [BitVec.toNat_sub, BitVec.toNat_ofNat, Nat.mod_eq_of_lt bounded]
    split
    · rw [show 2 ^ w - mo.address + v.toNat = v.toNat - mo.address + 2 ^ w by omega, Nat.add_mod_right, Nat.mod_eq_of_lt (by omega)]
    · exact Nat.mod_eq_of_lt (by omega)
  rw [Bool.eq_iff_iff, decide_eq_true_eq, MemoryObject.Contains]
  by_cases empty : mo.size = 0
  · rw [if_pos empty, empty, beq_iff_eq, ← BitVec.toNat_inj, BitVec.toNat_zero, offset]
    split <;> omega
  · rw [if_neg empty, BitVec.ult_iff_toNat_lt, offset, BitVec.toNat_ofNat, Nat.mod_eq_of_lt addressable.size]
    split <;> omega

section

variable (sane : Sane o constraints) (means : Means o constraints p value) (addressable : mo.Addressable w)
include sane means addressable

theorem getBoundsCheckPointer_spec :
    Satisfies (· = .outOfFuel) (fun e => Settles o constraints e fun ρ => decide (mo.Contains (value ρ).toNat))
      (mo.getBoundsCheckPointer o fuel w p) := by
  apply Means.of_builds sane
  intro ρ hold
  simp only [← inBounds_offset addressable]
  apply Builds.bind (SubExpr.create_builds Guards.allows_safe (means ρ hold) (Denotes.alloc _))
  intro offset denotes
  rw [MemoryObject.getBoundsCheckOffset]
  split
  · exact EqExpr.create_builds Guards.allows_safe denotes (Denotes.alloc _)
  · exact UltExpr.create_builds Guards.allows_safe denotes (Denotes.alloc _)

theorem below_spec :
    Satisfies (· = .outOfFuel) (fun e => Settles o constraints e fun ρ => decide ((value ρ).toNat < mo.address))
      (UltExpr.create o fuel p (mo.getBaseExpr w)) := by
  apply Means.of_builds sane
  intro ρ hold
  apply (UltExpr.create_builds Guards.allows_safe (means ρ hold) (Denotes.alloc _)).of_eq
  rw [BitVec.ult_eq_decide, BitVec.toNat_ofNat, Nat.mod_eq_of_lt addressable.address]

theorem above_spec :
    Satisfies (· = .outOfFuel) (fun e => Settles o constraints e fun ρ => decide (mo.address ≤ (value ρ).toNat))
      (UgeExpr.create o fuel p (mo.getBaseExpr w)) := by
  apply Means.of_builds sane
  intro ρ hold
  apply (UleExpr.create_builds Guards.allows_safe (Denotes.alloc _) (means ρ hold)).of_eq
  rw [BitVec.ule_eq_decide, BitVec.toNat_ofNat, Nat.mod_eq_of_lt addressable.address]

end

theorem getBoundsCheckPointer_ends (mo : MemoryObject) (p : Expr) : Ends fun fuel => mo.getBoundsCheckPointer o fuel w p := by
  apply Halts.bind (SubExpr.create_ends p (mo.getBaseExpr w))
  intro offset _
  exact .ite (fun _ => EqExpr.create_ends offset _) fun _ => UltExpr.create_ends offset _

end Conditions

def MayPointInto (constraints : List Expr) (value : Assignment → BitVec w) (op : ObjectPair) :
    Prop :=
  ∃ ρ, Hold ρ constraints ∧ op.1.Contains (value ρ).toNat

def AlwaysPointsInto (constraints : List Expr) (value : Assignment → BitVec w)
    (op : ObjectPair) : Prop :=
  ∀ ρ, Hold ρ constraints → op.1.Contains (value ρ).toNat

open scoped Classical in
noncomputable def targets (constraints : List Expr) (value : Assignment → BitVec w)
    (ops : List ObjectPair) : List ObjectPair :=
  ops.filter fun op => decide (MayPointInto constraints value op)

section Search

variable {op : ObjectPair} {ops : List ObjectPair} {rl : ResolutionList}

theorem mem_targets : op ∈ targets constraints value ops ↔ op ∈ ops ∧ MayPointInto constraints value op := by
  simp only [targets, mem_filter, decide_eq_true_eq]

theorem targets_cons : targets constraints value (op :: ops) = targets constraints value [op] ++ targets constraints value ops :=
  filter_append [op] ops

theorem targets_none (never : ∀ op ∈ ops, ¬ MayPointInto constraints value op) : targets constraints value ops = [] := by
  rw [targets, filter_eq_nil_iff]
  intro op member
  simpa using never op member

theorem targets_singleton (may : MayPointInto constraints value op) : targets constraints value [op] = [op] := by
  simp [targets, may]

/-- Only possible targets are added to the list, in their order. -/
def Grows (constraints : List Expr) (value : Assignment → BitVec w) (ops : List ObjectPair)
    (rl rl' : ResolutionList) : Prop :=
  ∃ found, rl' = rl ++ found ∧ found.Sublist (targets constraints value ops)

theorem Grows.none : Grows constraints value ops rl rl :=
  ⟨[], (append_nil rl).symm, nil_sublist _⟩

theorem Grows.all : Grows constraints value ops rl (rl ++ targets constraints value ops) :=
  ⟨_, rfl, .refl _⟩

theorem Grows.head {rl' : ResolutionList} (grows : Grows constraints value [op] rl rl') : Grows constraints value (op :: ops) rl rl' := by
  obtain ⟨found, rfl, sublist⟩ := grows
  rw [Grows, targets_cons]
  exact ⟨found, rfl, sublist.trans (sublist_append_left _ _)⟩

theorem Grows.tail {rl' : ResolutionList} (grows : Grows constraints value ops (rl ++ targets constraints value [op]) rl') :
    Grows constraints value (op :: ops) rl rl' := by
  obtain ⟨found, rfl, sublist⟩ := grows
  refine ⟨targets constraints value [op] ++ found, append_assoc _ _ _, ?_⟩
  rw [show targets constraints value (op :: ops) = _ from targets_cons]
  exact (List.Sublist.refl _).append sublist

theorem checkPointerInObject_spec (correct : solver.Correct) (sane : Sane o constraints)
    (means : Means o constraints p value) (addressable : op.1.Addressable w) :
    Satisfies (· = .outOfFuel)
      (fun result => Grows constraints value [op] rl result.2 ∧ match result.1 with
        | .complete => rl = [] ∧ result.2 = [op] ∧ AlwaysPointsInto constraints value op
        | .stopped => 2 ≤ maxResolutions ∨ ¬ solver.Sound
        | .unfinished => result.2 = rl ++ targets constraints value [op])
      (checkPointerInObject o simplifyExprs solver w fuel constraints p maxResolutions op rl) := by
  apply Satisfies.bind (getBoundsCheckPointer_spec sane means addressable)
  intro inBounds settles
  apply Satisfies.bind (mayBeTrue_spec correct sane settles)
  intro mayBeTrue tells
  simp only [decide_eq_true_eq] at tells
  match mayBeTrue, tells with
  | none, unsound => exact ⟨.none, .inr unsound⟩
  | some false, never =>
    have impossible : ¬ MayPointInto constraints value op := fun may => nomatch never.mpr may
    refine ⟨.none, ?_⟩
    rw [targets_none (by simpa using impossible), append_nil]
  | some true, possible =>
    have may : MayPointInto constraints value op := possible.mp rfl
    have added : rl ++ [op] = rl ++ targets constraints value [op] := by
      rw [targets_singleton may]
    have grows : Grows constraints value [op] rl (rl ++ [op]) := added ▸ .all
    dsimp only
    split
    · rename_i first
      have empty : rl = [] := by
        rw [length_append, length_singleton] at first
        exact length_eq_zero_iff.mp (by omega)
      apply Satisfies.bind (mustBeTrue_spec correct sane settles)
      intro mustBeTrue tells
      simp only [decide_eq_true_eq] at tells
      match mustBeTrue, tells with
      | none, unsound => exact ⟨grows, .inr unsound⟩
      | some true, always =>
        exact ⟨grows, empty, by rw [empty, nil_append], always.mp rfl⟩
      | some false, _ => exact ⟨grows, added⟩
    · rename_i notFirst
      split
      · rename_i full
        rw [length_append, length_singleton] at full notFirst
        exact ⟨grows, .inl (by omega)⟩
      · exact ⟨grows, added⟩

/-- How one of the loops ends that began with the objects `ops` before it. -/
def Searched (constraints : List Expr) (value : Assignment → BitVec w) (solver : Solver)
    (maxResolutions : Nat) (expired : ObjectPair → Bool) (ops : List ObjectPair)
    (rl : ResolutionList) (result : Option Bool × ResolutionList) : Prop :=
  Grows constraints value ops rl result.2 ∧ match result.1 with
  | some true => 2 ≤ maxResolutions ∨ ¬ solver.Sound ∨ ∃ op ∈ ops, expired op = true
  | some false => rl = [] ∧ ∃ op ∈ ops, result.2 = [op] ∧ AlwaysPointsInto constraints value op
  | none => result.2 = rl ++ targets constraints value ops

theorem Searched.cons {result : Option Bool × ResolutionList}
    (searched : Searched constraints value solver maxResolutions expired ops
      (rl ++ targets constraints value [op]) result) :
    Searched constraints value solver maxResolutions expired (op :: ops) rl result := by
  obtain ⟨returned, found⟩ := result
  obtain ⟨grows, ended⟩ := searched
  refine ⟨grows.tail, ?_⟩
  match returned, ended with
  | some true, stopped =>
    exact stopped.imp_right fun others => others.imp_right fun ⟨other, member, isExpired⟩ =>
      ⟨other, mem_cons_of_mem op member, isExpired⟩
  | some false, ⟨empty, other, member, found, always⟩ =>
    exact ⟨(append_eq_nil_iff.mp empty).1, other, mem_cons_of_mem op member, found, always⟩
  | none, found =>
    rw [targets_cons, ← append_assoc]
    exact found

theorem Searched.pruned (never : ∀ other ∈ ops, ¬ MayPointInto constraints value other) :
    Searched constraints value solver maxResolutions expired ops rl (none, rl) := by
  refine ⟨.none, ?_⟩
  rw [targets_none never, append_nil]

section

variable (correct : solver.Correct) (sane : Sane o constraints)
  (means : Means o constraints p value) (addressable : ∀ op ∈ ops, op.1.Addressable w)
include correct sane means addressable

theorem searchBackwards_spec
    (descending : ops.Pairwise fun second first => first.1.Precedes second.1) :
    Satisfies (· = .outOfFuel) (Searched constraints value solver maxResolutions expired ops rl)
      (searchBackwards o simplifyExprs solver w fuel constraints p maxResolutions expired ops rl) := by
  induction ops generalizing rl with
  | nil =>
    exact ⟨.none, (append_nil rl).symm⟩
  | cons op remaining ih =>
    obtain ⟨preceding, descending⟩ := List.pairwise_cons.mp descending
    rw [searchBackwards]
    split
    · rename_i isExpired
      exact ⟨.none, .inr (.inr ⟨op, by simp, isExpired⟩)⟩
    · apply Satisfies.bind (checkPointerInObject_spec correct sane means (addressable op (by simp)))
      rintro ⟨incomplete, found⟩ ⟨grows, checked⟩
      cases incomplete with
      | complete =>
        obtain ⟨empty, found, always⟩ := checked
        exact ⟨grows.head, empty, op, by simp, found, always⟩
      | stopped => exact ⟨grows.head, checked.imp_right .inl⟩
      | unfinished =>
        subst checked
        apply Satisfies.bind (above_spec sane means (addressable op (by simp)))
        intro above settles
        apply Satisfies.bind (mustBeTrue_spec correct sane settles)
        intro mustBeTrue tells
        simp only [decide_eq_true_eq] at tells
        match mustBeTrue, tells with
        | none, unsound => exact ⟨grows.head, .inr (.inl unsound)⟩
        | some true, isAbove =>
          change Searched constraints value solver maxResolutions expired (op :: remaining) rl (none, _)
          apply Searched.cons
          apply Searched.pruned
          rintro other member ⟨ρ, hold, contains⟩
          have before := preceding other member _ contains
          have after := isAbove.mp rfl ρ hold
          omega
        | some false, _ =>
          exact (ih (fun other member => addressable other (by simp [member])) descending).mono fun _ => Searched.cons

theorem searchForwards_spec (ascending : ImmutableMap.Sorted MemoryObject.address ops) :
    Satisfies (· = .outOfFuel) (Searched constraints value solver maxResolutions expired ops rl)
      (searchForwards o simplifyExprs solver w fuel constraints p maxResolutions expired ops rl) := by
  induction ops generalizing rl with
  | nil =>
    exact ⟨.none, (append_nil rl).symm⟩
  | cons op remaining ih =>
    obtain ⟨following, ascending⟩ := List.pairwise_cons.mp ascending
    rw [searchForwards]
    split
    · rename_i isExpired
      exact ⟨.none, .inr (.inr ⟨op, by simp, isExpired⟩)⟩
    · apply Satisfies.bind (below_spec sane means (addressable op (by simp)))
      intro below settles
      apply Satisfies.bind (mustBeTrue_spec correct sane settles)
      intro mustBeTrue tells
      simp only [decide_eq_true_eq] at tells
      match mustBeTrue, tells with
      | none, unsound => exact ⟨.none, .inr (.inl unsound)⟩
      | some true, isBelow =>
        change Searched constraints value solver maxResolutions expired (op :: remaining) rl (none, rl)
        apply Searched.pruned
        rintro other member ⟨ρ, hold, contains⟩
        have before := isBelow.mp rfl ρ hold
        have base := contains.1
        cases member with
        | head => omega
        | tail _ later =>
          have after := following other later
          omega
      | some false, _ =>
        apply Satisfies.bind (checkPointerInObject_spec correct sane means (addressable op (by simp)))
        rintro ⟨incomplete, found⟩ ⟨grows, checked⟩
        cases incomplete with
        | complete =>
          obtain ⟨empty, found, always⟩ := checked
          exact ⟨grows.head, empty, op, by simp, found, always⟩
        | stopped => exact ⟨grows.head, checked.imp_right .inl⟩
        | unfinished =>
          subst checked
          exact (ih (fun other member => addressable other (by simp [member])) ascending).mono fun _ => Searched.cons

end

/-- The list has one entry for each object that the pointer may point into. -/
structure Listed (constraints : List Expr) (value : Assignment → BitVec w)
    (space : AddressSpace) (rl : ResolutionList) : Prop where
  nodup : rl.Nodup
  mem_iff : ∀ op, op ∈ rl ↔ op ∈ space.objects ∧ MayPointInto constraints value op

variable {space : AddressSpace}

theorem nodup_objects (separate : space.Separate w) : space.objects.Nodup :=
  separate.sorted.imp fun below same => by
    rw [same] at below
    exact Nat.lt_irrefl _ below

theorem listed_always (sane : Sane o constraints) (separate : space.Separate w)
    (member : op ∈ space.objects) (always : AlwaysPointsInto constraints value op) : Listed constraints value space [op] := by
  refine ⟨nodup_singleton op, fun other => ?_⟩
  rw [mem_singleton]
  constructor
  · rintro rfl
    obtain ⟨ρ, hold⟩ := sane.possible
    exact ⟨member, ρ, hold, always ρ hold⟩
  · rintro ⟨memberOther, ρ, hold, contains⟩
    exact separate.eq_of_contains memberOther member contains (always ρ hold)

theorem listed_targets (separate : space.Separate w) {before after : List ObjectPair} (split : before ++ after = space.objects) :
    Listed constraints value space (targets constraints value before.reverse ++ targets constraints value after) := by
  have nodup : (before.reverse ++ after).Nodup := by
    rw [((reverse_perm before).append_right after).nodup_iff, split]
    exact nodup_objects separate
  have whole : targets constraints value before.reverse ++ targets constraints value after =
      targets constraints value (before.reverse ++ after) :=
    (filter_append before.reverse after).symm
  rw [whole]
  refine ⟨nodup.filter _, fun op => ?_⟩
  rw [mem_targets, ← split, mem_append, mem_append, mem_reverse]

theorem resolveOneConstant_spec (separate : space.Separate w) {addr : ConstantExpr} (narrow : addr.width ≤ 64) :
    ∃ res, resolveOneConstant space addr = .ok res ∧ ∀ op, op ∈ res ↔ op ∈ space.objects ∧ op.1.Contains addr.value.toNat := by
  simp only [resolveOneConstant, require, if_pos narrow, pure_bind]
  cases found : ImmutableMap.lookupPrevious MemoryObject.address space.objects addr.value.toNat with
  | none =>
    refine ⟨none, rfl, fun op => ⟨by simp, fun both => ?_⟩⟩
    exact absurd both.2.1 (ImmutableMap.lookupPrevious_none found both.1)
  | some res =>
    obtain ⟨member, notAfter⟩ := ImmutableMap.lookupPrevious_mem found
    -- an object before the one that is found ends before it begins
    have last {op : ObjectPair} (memberOp : op ∈ space.objects) (contains : op.1.Contains addr.value.toNat) : op = res := by
      have notLater := separate.sorted.le_lookupPrevious found memberOp contains.1
      have reaches : op.1.Contains res.1.address := ⟨notLater, by have last := contains.2; omega⟩
      exact separate.eq_of_contains memberOp member reaches res.1.contains_base
    have checks : (res.1.size = 0 ∧ addr.value.toNat = res.1.address ∨
        addr.value.toNat - res.1.address < res.1.size) ↔ res.1.Contains addr.value.toNat := by
      rw [MemoryObject.Contains]
      omega
    by_cases inside : res.1.Contains addr.value.toNat
    · refine ⟨some res, if_pos (checks.mpr inside), fun op => ?_⟩
      rw [Option.mem_some]
      constructor
      · rintro rfl
        exact ⟨member, inside⟩
      · exact fun both => (last both.1 both.2).symm
    · refine ⟨none, if_neg (checks.not.mpr inside), fun op => ⟨by simp, fun both => ?_⟩⟩
      obtain rfl := last both.1 both.2
      exact absurd both.2 inside

theorem mayPointInto_constant (sane : Sane o constraints) {addr : ConstantExpr} (means : Means o constraints (.constant addr) value) :
    MayPointInto constraints value op ↔ op.1.Contains addr.value.toNat := by
  have same (ρ : Assignment) (hold : Hold ρ constraints) : addr = ⟨w, value ρ⟩ := (means ρ hold).of_constant
  obtain ⟨ρ₀, hold₀⟩ := sane.possible
  constructor
  · rintro ⟨ρ, hold, contains⟩
    rw [same ρ hold]
    exact contains
  · intro contains
    refine ⟨ρ₀, hold₀, ?_⟩
    rwa [same ρ₀ hold₀] at contains

structure PartlyListed (constraints : List Expr) (value : Assignment → BitVec w)
    (space : AddressSpace) (rl : ResolutionList) : Prop where
  nodup : rl.Nodup
  possible : ∀ op ∈ rl, op ∈ space.objects ∧ MayPointInto constraints value op

theorem Listed.partly {rl' : ResolutionList} (listed : Listed constraints value space rl)
    (sublist : rl'.Sublist rl) : PartlyListed constraints value space rl' :=
  ⟨listed.nodup.sublist sublist, fun op member => (listed.mem_iff op).mp (sublist.mem member)⟩

def Resolves (constraints : List Expr) (value : Assignment → BitVec w) (solver : Solver)
    (maxResolutions : Nat) (expired : ObjectPair → Bool) (space : AddressSpace)
    (result : Bool × ResolutionList) : Prop :=
  PartlyListed constraints value space result.2 ∧
    if result.1 then
      2 ≤ maxResolutions ∨ ¬ solver.Sound ∨ ∃ op ∈ space.objects, expired op = true
    else Listed constraints value space result.2

theorem Resolves.complete (listed : Listed constraints value space rl) :
    Resolves constraints value solver maxResolutions expired space (false, rl) :=
  ⟨listed.partly (.refl rl), listed⟩

theorem resolve_spec (correct : solver.Correct) (sane : Sane o constraints)
    (means : Means o constraints p value) (narrow : w ≤ 64) (separate : space.Separate w) :
    Satisfies (· = .outOfFuel) (Resolves constraints value solver maxResolutions expired space)
      (resolve o simplifyExprs solver w fuel constraints p maxResolutions expired space) := by
  rw [resolve]
  split
  · rename_i addr isConstant
    rw [Expr.constant?_eq_some] at isConstant
    subst isConstant
    have width : addr.width = w := means.width sane
    obtain ⟨res, returned, right⟩ := resolveOneConstant_spec separate (width ▸ narrow)
    rw [returned]
    apply Resolves.complete
    refine ⟨?_, fun op => ?_⟩
    · cases res <;> simp
    · exact Option.mem_toList.trans ((right op).trans (and_congr_right fun _ => (mayPointInto_constant sane means).symm))
  · apply Satisfies.bind (getValue_answers correct sane means)
    intro answer right
    cases answer with
    | none => exact ⟨⟨nodup_nil, (by simp)⟩, .inr (.inl right)⟩
    | some cex =>
      obtain ⟨ρ, hold, rfl⟩ := right
      simp only [require, if_pos narrow, pure_bind]
      have split : (ImmutableMap.upperBound MemoryObject.address space.objects
          (value ρ).toNat).1 ++ (ImmutableMap.upperBound MemoryObject.address space.objects
          (value ρ).toNat).2 = space.objects := ImmutableMap.upperBound_append
      generalize ImmutableMap.upperBound MemoryObject.address space.objects (value ρ).toNat = halves at split ⊢
      obtain ⟨before, after⟩ := halves
      have whole : Listed constraints value space (targets constraints value before.reverse ++ targets constraints value after) :=
        listed_targets separate split
      have ordered := separate.precedes
      have sorted := separate.sorted
      rw [ImmutableMap.Sorted, ← split, pairwise_append] at sorted
      rw [← split, pairwise_append] at ordered
      have inBefore (op) (member : op ∈ before.reverse) : op ∈ space.objects := by
        rw [← split]
        exact mem_append_left after (List.mem_reverse.mp member)
      have inAfter (op) (member : op ∈ after) : op ∈ space.objects := by
        rw [← split]
        exact mem_append_right before member
      apply Satisfies.bind (searchBackwards_spec correct sane means (fun op member => separate.addressable op (inBefore op member))
        (pairwise_reverse.mpr ordered.1))
      rintro ⟨returned, rl⟩ ⟨⟨found, grown, sublist⟩, ended⟩
      subst grown
      rcases returned with _ | _ | _
      · change rl = _ at ended
        subst ended
        apply Satisfies.bind (searchForwards_spec correct sane means
          (fun op member => separate.addressable op (inAfter op member)) sorted.2.1)
        rintro ⟨returned, rl⟩ ⟨⟨found, grown, sublist⟩, ended⟩
        subst grown
        rcases returned with _ | _ | _
        · dsimp only at ended
          rw [ended]
          exact Resolves.complete whole
        · obtain ⟨_, op, member, single, always⟩ := ended
          dsimp only at single
          rw [single]
          exact Resolves.complete (listed_always sane separate (inAfter op member) always)
        · refine ⟨whole.partly ((List.Sublist.refl _).append sublist), ?_⟩
          rcases ended with expired | expired | ⟨op, member, isExpired⟩
          · exact .inl expired
          · exact .inr (.inl expired)
          · exact .inr (.inr ⟨op, inAfter op member, isExpired⟩)
      · obtain ⟨_, op, member, single, always⟩ := ended
        subst single
        exact Resolves.complete (listed_always sane separate (inBefore op member) always)
      · refine ⟨whole.partly (sublist.trans (sublist_append_left _ _)), ?_⟩
        rcases ended with expired | expired | ⟨op, member, isExpired⟩
        · exact .inl expired
        · exact .inr (.inl expired)
        · exact .inr (.inr ⟨op, inBefore op member, isExpired⟩)

theorem checkPointerInObject_length :
    Satisfies (fun _ => True)
      (fun result => 2 ≤ maxResolutions → rl.length < maxResolutions →
        result.2.length ≤ maxResolutions ∧
          (result.1 = .unfinished → result.2.length < maxResolutions))
      (checkPointerInObject o simplifyExprs solver w fuel constraints p maxResolutions op rl) := by
  apply Satisfies.bind (Satisfies.self.mono fun _ _ => trivial)
  intro inBounds _
  apply Satisfies.bind (Satisfies.self.mono fun _ _ => trivial)
  intro mayBeTrue _
  cases mayBeTrue with
  | none => exact fun _ room => ⟨Nat.le_of_lt room, nofun⟩
  | some mayBeTrue =>
    cases mayBeTrue with
    | false => exact fun _ room => ⟨Nat.le_of_lt room, fun _ => room⟩
    | true =>
      dsimp only
      split
      · rename_i first
        apply Satisfies.bind (Satisfies.self.mono fun _ _ => trivial)
        intro mustBeTrue _
        match mustBeTrue with
        | none | some true | some false =>
          intro atLeastTwo _
          exact ⟨by dsimp only; omega, fun _ => by dsimp only; omega⟩
      · split
        · rename_i full
          exact fun _ _ => ⟨Nat.le_of_eq full, nofun⟩
        · rename_i notFull
          intro _ room
          rw [length_append, length_singleton] at notFull
          simp only [length_append, length_singleton]
          omega

theorem searchBackwards_length (atLeastTwo : 2 ≤ maxResolutions) (room : rl.length < maxResolutions) :
    Satisfies (fun _ => True)
      (fun result => result.2.length ≤ maxResolutions ∧
        (result.1 = none → result.2.length < maxResolutions))
      (searchBackwards o simplifyExprs solver w fuel constraints p maxResolutions expired ops rl) := by
  induction ops generalizing rl with
  | nil => exact ⟨Nat.le_of_lt room, fun _ => room⟩
  | cons op remaining ih =>
    rw [searchBackwards]
    split
    · exact ⟨Nat.le_of_lt room, nofun⟩
    · apply Satisfies.bind checkPointerInObject_length
      rintro ⟨incomplete, found⟩ bounded
      obtain ⟨within, continues⟩ := bounded atLeastTwo room
      cases incomplete with
      | complete | stopped => exact ⟨within, nofun⟩
      | unfinished =>
        apply Satisfies.bind (Satisfies.self.mono fun _ _ => trivial)
        intro above _
        apply Satisfies.bind (Satisfies.self.mono fun _ _ => trivial)
        intro mustBeTrue _
        match mustBeTrue with
        | none => exact ⟨within, nofun⟩
        | some true => exact ⟨within, fun _ => continues rfl⟩
        | some false => exact ih (continues rfl)

theorem searchForwards_length (atLeastTwo : 2 ≤ maxResolutions) (room : rl.length < maxResolutions) :
    Satisfies (fun _ => True) (fun result => result.2.length ≤ maxResolutions)
      (searchForwards o simplifyExprs solver w fuel constraints p maxResolutions expired ops rl) := by
  induction ops generalizing rl with
  | nil => exact Nat.le_of_lt room
  | cons op remaining ih =>
    rw [searchForwards]
    split
    · exact Nat.le_of_lt room
    · apply Satisfies.bind (Satisfies.self.mono fun _ _ => trivial)
      intro below _
      apply Satisfies.bind (Satisfies.self.mono fun _ _ => trivial)
      intro mustBeTrue _
      match mustBeTrue with
      | none | some true => exact Nat.le_of_lt room
      | some false =>
        apply Satisfies.bind checkPointerInObject_length
        rintro ⟨incomplete, found⟩ bounded
        obtain ⟨within, continues⟩ := bounded atLeastTwo room
        cases incomplete with
        | complete | stopped => exact within
        | unfinished => exact ih (continues rfl)

theorem resolve_length (atLeastTwo : 2 ≤ maxResolutions) :
    Satisfies (fun _ => True) (fun result => result.2.length ≤ maxResolutions)
      (resolve o simplifyExprs solver w fuel constraints p maxResolutions expired space) := by
  rw [resolve]
  split
  · apply Satisfies.bind (Satisfies.self.mono fun _ _ => trivial)
    intro res _
    have single : res.toList.length ≤ 1 := by cases res <;> simp
    exact Nat.le_trans single (by omega)
  · apply Satisfies.bind (Satisfies.self.mono fun _ _ => trivial)
    intro answer _
    cases answer with
    | none => exact Nat.zero_le _
    | some cex =>
      apply Satisfies.bind (Satisfies.self.mono fun _ _ => trivial)
      intro _ _
      apply Satisfies.bind (searchBackwards_length atLeastTwo (by simp; omega))
      rintro ⟨returned, rl⟩ ⟨within, room⟩
      cases returned with
      | some incomplete => exact within
      | none =>
        apply Satisfies.bind (searchForwards_length atLeastTwo (room rfl))
        rintro ⟨returned, rl⟩ within
        cases returned with
        | some incomplete => exact within
        | none => exact within

/-!
## The searches end
-/

theorem checkPointerInObject_halts (op : ObjectPair) (rl : ResolutionList) :
    Ends fun fuel => checkPointerInObject o simplifyExprs solver w fuel constraints p maxResolutions op rl := by
  apply Halts.bind (getBoundsCheckPointer_ends op.1 p)
  intro inBounds _
  apply Halts.bind (mayBeTrue_halts constraints inBounds)
  intro mayBeTrue _
  match mayBeTrue with
  | none | some false => exact .pure _
  | some true =>
    apply Halts.ite
    · intro _
      apply Halts.bind (mustBeTrue_halts constraints inBounds)
      intro mustBeTrue _
      match mustBeTrue with
      | none | some true | some false => exact .pure _
    · intro _
      exact .ite (fun _ => .pure _) fun _ => .pure _

theorem searchBackwards_halts (ops : List ObjectPair) (rl : ResolutionList) :
    Ends fun fuel =>
      searchBackwards o simplifyExprs solver w fuel constraints p maxResolutions expired ops
        rl := by
  induction ops generalizing rl with
  | nil => exact .pure _
  | cons op remaining ih =>
    apply Halts.ite fun _ => .pure _
    intro _
    apply Halts.bind (checkPointerInObject_halts op rl)
    rintro ⟨incomplete, found⟩ _
    cases incomplete with
    | complete | stopped => exact .pure _
    | unfinished =>
      apply Halts.bind (UleExpr.create_ends (op.1.getBaseExpr w) p)
      intro above _
      apply Halts.bind (mustBeTrue_halts constraints above)
      intro mustBeTrue _
      match mustBeTrue with
      | none | some true => exact .pure _
      | some false => exact ih found

theorem searchForwards_halts (ops : List ObjectPair) (rl : ResolutionList) :
    Ends fun fuel => searchForwards o simplifyExprs solver w fuel constraints p maxResolutions expired ops rl := by
  induction ops generalizing rl with
  | nil => exact .pure _
  | cons op remaining ih =>
    apply Halts.ite fun _ => .pure _
    intro _
    apply Halts.bind (UltExpr.create_ends p (op.1.getBaseExpr w))
    intro below _
    apply Halts.bind (mustBeTrue_halts constraints below)
    intro mustBeTrue _
    match mustBeTrue with
    | none | some true => exact .pure _
    | some false =>
      apply Halts.bind (checkPointerInObject_halts op rl)
      rintro ⟨incomplete, found⟩ _
      cases incomplete with
      | complete | stopped => exact .pure _
      | unfinished => exact ih found

theorem resolveOneConstant_halts (space : AddressSpace) (addr : ConstantExpr) : Ends fun _ => resolveOneConstant space addr := by
  apply Ends.require
  dsimp only
  cases ImmutableMap.lookupPrevious MemoryObject.address space.objects addr.value.toNat with
  | none => exact .pure _
  | some res => exact .ite (fun _ => .pure _) fun _ => .pure _

theorem resolve_halts : Ends fun fuel => resolve o simplifyExprs solver w fuel constraints p maxResolutions expired space := by
  cases isConstant : p.constant? with
  | some addr =>
    simp only [resolve, isConstant]
    apply Halts.bind (resolveOneConstant_halts space addr)
    exact fun _ _ => .pure _
  | none =>
    simp only [resolve, isConstant]
    apply Halts.bind (getValue_halts constraints p)
    intro answer _
    cases answer with
    | none => exact .pure _
    | some cex =>
      apply Ends.require
      apply Halts.bind (searchBackwards_halts _ [])
      rintro ⟨returned, rl⟩ _
      cases returned with
      | some incomplete => exact .pure _
      | none =>
        apply Halts.bind (searchForwards_halts _ rl)
        rintro ⟨returned, rl⟩ _
        cases returned with
        | some incomplete => exact .pure _
        | none => exact .pure _

def AtMostOneTarget (constraints : List Expr) (value : Assignment → BitVec w)
    (space : AddressSpace) : Prop :=
  ∀ op ∈ space.objects, ∀ other ∈ space.objects, MayPointInto constraints value op →
    MayPointInto constraints value other → op = other

theorem PartlyListed.length_le_one (listed : PartlyListed constraints value space rl)
    (single : AtMostOneTarget constraints value space) : rl.length ≤ 1 := by
  match rl, listed with
  | [], _ | [_], _ => simp
  | op :: other :: remaining, ⟨nodup, possible⟩ =>
    have first := possible op (by simp)
    have second := possible other (by simp)
    have same := single op first.1 other second.1 first.2 second.2
    simp [same] at nodup

theorem Listed.atMostOneTarget (listed : Listed constraints value space rl)
    (short : rl.length ≤ 1) : AtMostOneTarget constraints value space := by
  intro op member other memberOther may mayOther
  have first := (listed.mem_iff op).mpr ⟨member, may⟩
  have second := (listed.mem_iff other).mpr ⟨memberOther, mayOther⟩
  match rl, short with
  | [single], _ =>
    rw [mem_singleton] at first second
    rw [first, second]

end Search

section Claims

variable (o : Options) (simplifyExprs : Bool) (constraints : List Expr) (p : Expr) (space : AddressSpace)

theorem resolve_listed (sound : solver.Sound) (sane : Sane o constraints)
    (means : Means o constraints p value) (narrow : w ≤ 64) (separate : space.Separate w) (unlimited : maxResolutions < 2) :
    ∃ rl, Returns (fun fuel => resolve o simplifyExprs solver w fuel constraints p maxResolutions
        (fun _ => false) space) (false, rl) ∧ Listed constraints value space rl := by
  have halts : Ends fun fuel => resolve o simplifyExprs solver w fuel constraints p maxResolutions (fun _ => false) space := resolve_halts
  obtain ⟨⟨incomplete, rl⟩, ⟨-, ended⟩, returns⟩ := halts.returns fun fuel =>
    resolve_spec sound.correct sane means narrow separate
  cases incomplete with
  | false => exact ⟨rl, returns, ended⟩
  | true =>
    have reason : 2 ≤ maxResolutions ∨ ¬ solver.Sound ∨ ∃ op ∈ space.objects, false = true := ended
    simp [sound] at reason
    omega

/-- Without a time-out, a limit or a failing solver the list is complete. -/
theorem resolve_complete (sound : solver.Sound) (sane : Sane o constraints)
    (means : Means o constraints p value) (narrow : w ≤ 64) (separate : space.Separate w) :
    ∃ rl, Returns (fun fuel =>
        resolve o simplifyExprs solver w fuel constraints p 0 (fun _ => false) space) (false, rl) ∧
      Listed constraints value space rl :=
  resolve_listed o simplifyExprs constraints p space sound sane means narrow separate (by decide)

section Example

open Executor (idealSolver idealSolver_sound)

def sampleSpace : AddressSpace :=
  ⟨1, [(⟨1, 4096, 8, false⟩, 0), (⟨2, 8192, 8, false⟩, 1)]⟩

theorem sampleSpace_separate : sampleSpace.Separate 64 where
  sorted := by simp [ImmutableMap.Sorted, sampleSpace]
  disjoint := by
    simp only [sampleSpace, pairwise_cons, mem_singleton, forall_eq,
      MemoryObject.Contains, not_mem_nil, false_imp_iff, implies_true, List.Pairwise.nil, and_true]
    omega
  addressable := by
    intro op member
    simp only [sampleSpace, mem_cons, not_mem_nil, or_false] at member
    obtain rfl | rfl := member <;> exact ⟨by decide, by decide, by decide⟩

theorem samplePointer_means : Means ⟨false, true⟩ [] samplePointer fun ρ => samplePointer.eval ρ 64 :=
  fun _ _ => ⟨samplePointer_wellFormed, rfl, rfl⟩

theorem samplePointer_mayPointInto {op : ObjectPair} (member : op ∈ sampleSpace.objects) :
    MayPointInto [] (fun ρ => samplePointer.eval ρ 64) op := by
  simp only [sampleSpace, mem_cons, not_mem_nil, or_false] at member
  obtain rfl | rfl := member
  · refine ⟨byteAssignment 3, by rintro _ ⟨⟩, ?_⟩
    decide
  · refine ⟨byteAssignment 0, by rintro _ ⟨⟩, ?_⟩
    decide

theorem resolve_complete_sample :
    ∃ rl, Returns (fun fuel => resolve ⟨false, true⟩ false idealSolver 64 fuel [] samplePointer 0
        (fun _ => false) sampleSpace) (false, rl) ∧
      ∀ op, op ∈ rl ↔ op ∈ sampleSpace.objects := by
  obtain ⟨rl, returns, listed⟩ := resolve_complete ⟨false, true⟩ false [] samplePointer sampleSpace
    idealSolver_sound Sane.nil samplePointer_means (by decide) sampleSpace_separate
  refine ⟨rl, returns, fun op => ?_⟩
  rw [listed.mem_iff]
  exact and_iff_left_of_imp samplePointer_mayPointInto

end Example

/-- The list is not longer than the limit, and complete unless `resolve` says that it
may not be. -/
def RespectsLimit (constraints : List Expr) (value : Assignment → BitVec w)
    (maxResolutions : Nat) (space : AddressSpace) (result : Bool × ResolutionList) : Prop :=
  result.2.length ≤ maxResolutions ∧ (result.1 = false → Listed constraints value space result.2)

/-- The first object found does not count against the limit, so a limit of one is
exceeded as soon as the pointer can be in two objects. -/
theorem resolve_limit (correct : solver.Correct) (sane : Sane o constraints)
    (means : Means o constraints p value) (narrow : w ≤ 64) (separate : space.Separate w)
    (limited : maxResolutions ≠ 0) :
    ∃ result, Returns (fun fuel =>
        resolve o simplifyExprs solver w fuel constraints p maxResolutions expired space) result ∧
      (2 ≤ maxResolutions ∨ AtMostOneTarget constraints value space →
        RespectsLimit constraints value maxResolutions space result) ∧
      (solver.Sound → (∀ op, expired op = false) →
        RespectsLimit constraints value maxResolutions space result →
          2 ≤ maxResolutions ∨ AtMostOneTarget constraints value space) := by
  have halts : Ends fun fuel =>
      resolve o simplifyExprs solver w fuel constraints p maxResolutions expired space :=
    resolve_halts
  obtain ⟨⟨incomplete, rl⟩, ⟨partly, ended⟩, returns⟩ := halts.returns fun fuel =>
    resolve_spec correct sane means narrow separate
  have complete : incomplete = false → Listed constraints value space rl := by
    rintro rfl
    exact ended
  refine ⟨(incomplete, rl), returns, ?_, ?_⟩
  · intro holds
    refine ⟨?_, complete⟩
    cases holds with
    | inl atLeastTwo => exact returns.satisfies fun _ => resolve_length atLeastTwo
    | inr single =>
      have short : rl.length ≤ 1 := partly.length_le_one single
      change rl.length ≤ maxResolutions
      omega
  · rintro sound never ⟨bounded, -⟩
    by_cases atLeastTwo : 2 ≤ maxResolutions
    · exact .inl atLeastTwo
    · have returnedFalse : incomplete = false := by
        cases incomplete with
        | false => rfl
        | true =>
          have reason : 2 ≤ maxResolutions ∨ ¬ solver.Sound ∨
            ∃ op ∈ space.objects, expired op = true := ended
          simp [sound, never, atLeastTwo] at reason
      refine .inr ((complete returnedFalse).atMostOneTarget ?_)
      change rl.length ≤ maxResolutions at bounded
      omega

section Example

open Executor (idealSolver idealSolver_sound)

theorem resolve_limit_sample :
    ∃ result, Returns (fun fuel => resolve ⟨false, true⟩ false idealSolver 64 fuel [] samplePointer
        2 (fun _ => false) sampleSpace) result ∧
      RespectsLimit [] (fun ρ => samplePointer.eval ρ 64) 2 sampleSpace result := by
  obtain ⟨result, returns, respects, -⟩ := resolve_limit ⟨false, true⟩ false [] samplePointer
    sampleSpace idealSolver_sound.correct Sane.nil samplePointer_means (by decide)
    sampleSpace_separate (show 2 ≠ 0 by decide)
  exact ⟨result, returns, respects (.inl (by decide))⟩

theorem resolve_exceeds_limit :
    ∃ result, Returns (fun fuel => resolve ⟨false, true⟩ false idealSolver 64 fuel [] samplePointer
        1 (fun _ => false) sampleSpace) result ∧
      ¬ RespectsLimit [] (fun ρ => samplePointer.eval ρ 64) 1 sampleSpace result := by
  obtain ⟨rl, returns, listed⟩ := resolve_listed ⟨false, true⟩ false [] samplePointer sampleSpace
    idealSolver_sound Sane.nil samplePointer_means (by decide) sampleSpace_separate
    (show 1 < 2 by decide)
  refine ⟨_, returns, ?_⟩
  rintro ⟨short, -⟩
  have single := listed.atMostOneTarget short
  have first : (⟨1, 4096, 8, false⟩, 0) ∈ sampleSpace.objects := by simp [sampleSpace]
  have second : (⟨2, 8192, 8, false⟩, 1) ∈ sampleSpace.objects := by simp [sampleSpace]
  have same := single _ first _ second (samplePointer_mayPointInto first)
    (samplePointer_mayPointInto second)
  cases same

end Example

end Claims

end NeuroMerge.Execution
