import NeuroMerge.Execution.MergeProperties
import NeuroMerge.Symbolic.EqualityReads

/-!
# Deciding whether states can be merged

`ExecutionState::canMerge` makes the comparisons of `ExecutionState::merge` a second
time, without merging. Both are run on the state that they are called on, the heap and
the messages.
-/

namespace NeuroMerge.Execution

open Symbolic
open Memory (AddressSpace Admits Asserts Context Heap MemoryObject ObjectState Ref deref)

/-- What the two functions could change: the messages, the heap with the counter behind
the names of constant arrays, and the state that they are called on. -/
structure Surroundings where
  messages : List String
  heap : Heap
  id : Nat
  self : ExecutionState

namespace ExecutionState

section CanMerge

def klee_message (message : String) : StateM Surroundings Unit :=
  modify fun now => { now with messages := now.messages ++ [message] }

/-- The loop over the stacks: why they do not match, if they do not. -/
def frameMismatch : List StackFrame → List StackFrame → Option String
  | [], [] => none
  | itA :: as, itB :: bs =>
    if itA.caller ≠ itB.caller ∨ itA.kf ≠ itB.kf then some "Merge failed: Stack frame mismatch"
    else frameMismatch as bs
  | _, _ => some "Merge failed: Stack frame length mismatch"

def objectMismatch : List (MemoryObject × Ref) → List (MemoryObject × Ref) → Option String
  | [], [] => none
  | ai :: as, bi :: bs =>
    if ai.1 ≠ bi.1 then some "Merge check failed: Different MemoryObjects detected"
    else objectMismatch as bs
  | _, _ => some "Merge check failed: MemoryMaps are of unequal length."

def canMerge (b : ExecutionState) : StateM Surroundings Bool := do
  let a := (← get).self
  if a.pc ≠ b.pc then
    klee_message "Merge failed: PC doesn't match"
    return false
  if a.symbolics ≠ b.symbolics then
    klee_message "Merge failed: symbolics don't match"
    return false
  if let some message := frameMismatch a.stack b.stack then
    klee_message message
    return false
  if let some message := objectMismatch a.addressSpace.objects b.addressSpace.objects then
    klee_message message
    return false
  return true

end CanMerge

section Merge

variable (o : Options) (context : Context) (fuel : Nat) (le : Expr → Expr → Bool)

def mergeInPlace (b : ExecutionState) : StateT Surroundings (Except Fault) Bool := do
  let a := (← get).self
  if a.pc ≠ b.pc then
    return false
  if a.symbolics ≠ b.symbolics then
    return false
  if sameFrames a.stack b.stack = false then
    return false
  let aConstraints := exprSet le a.constraints
  let bConstraints := exprSet le b.constraints
  let commonConstraints := aConstraints.filter (· ∈ bConstraints)
  let aSuffix := aConstraints.filter (· ∉ commonConstraints)
  let bSuffix := bConstraints.filter (· ∉ commonConstraints)
  match mutatedObjects a.addressSpace.objects b.addressSpace.objects with
  | none => return false
  | some mutated =>
    let inA ← conjunction aSuffix
    let inB ← conjunction bSuffix
    let stack : List StackFrame ←
      liftM ((a.stack.zip b.stack).mapM fun (af, bf) => mergeFrame o fuel inA af bf)
    modify fun now => { now with self := { now.self with stack := stack } }
    mutated.forM fun mo => do
      let now ← get
      let (heap, id, self) ← mergeObject o context fuel inA b now.heap now.id now.self mo
      set { now with heap := heap, id := id, self := self }
    let constraints : List Expr ←
      liftM (commonConstraints.foldlM (ConstraintManager.addConstraint o fuel) [])
    let either ← OrExpr.create inA inB
    let constraints ← ConstraintManager.addConstraint o fuel constraints either
    modify fun now => { now with self := { now.self with constraints := constraints } }
    return true

variable {o context fuel le} {b : ExecutionState} {now : Surroundings}

theorem forM_mergeObject {inA : Expr} (mutated : List MemoryObject) :
    ∀ now : Surroundings, (mutated.forM fun mo => do
      let now ← get
      let (heap, id, self) ← mergeObject o context fuel inA b now.heap now.id now.self mo
      set { now with heap := heap, id := id, self := self } :
        StateT Surroundings (Except Fault) Unit).run now = (do
      let (heap, id, self) ← mutated.foldlM (fun (heap, id, a) mo => mergeObject o context fuel inA b heap id a mo)
        (now.heap, now.id, now.self)
      pure ((), { now with heap := heap, id := id, self := self })) := by
  induction mutated with
  | nil => exact fun now => rfl
  | cons mo mutated ih =>
    intro now
    rw [List.forM, List.foldlM_cons]
    simp only [StateT.run_bind, StateT.run_get, StateT.run_set, StateT.run_monadLift, bind_assoc, pure_bind, ih]
    rfl

theorem mergeInPlace_run : (mergeInPlace o context fuel le b).run now = (do
    match ← merge o context fuel le now.heap now.id now.self b with
    | none => pure (false, now)
    | some (heap, id, self) =>
      pure (true, { now with heap := heap, id := id, self := self })) := by
  rw [mergeInPlace, merge]
  simp only [StateT.run_bind, StateT.run_get, pure_bind]
  split
  · rfl
  split
  · rfl
  split
  · rfl
  cases compared : mutatedObjects now.self.addressSpace.objects b.addressSpace.objects with
  | none => rfl
  | some mutated =>
    simp only [StateT.run_bind, StateT.run_monadLift, StateT.run_modify, bind_assoc, pure_bind, forM_mergeObject, monadLift_self]
    rfl

end Merge

section Decision

variable {o : Options} {context : Context} {fuel : Nat} {le : Expr → Expr → Bool} {b : ExecutionState} {now : Surroundings}

structure Mergeable (a b : ExecutionState) : Prop where
  pc : a.pc = b.pc
  symbolics : a.symbolics = b.symbolics
  frames : sameFrames a.stack b.stack = true
  objects : mutatedObjects a.addressSpace.objects b.addressSpace.objects ≠ none

theorem frameMismatch_eq_none_iff : ∀ {as bs : List StackFrame},
    frameMismatch as bs = none ↔ sameFrames as bs = true
  | [], [] => by simp [frameMismatch, sameFrames]
  | [], _ :: _ => by simp [frameMismatch, sameFrames]
  | _ :: _, [] => by simp [frameMismatch, sameFrames]
  | itA :: as, itB :: bs => by
    rw [frameMismatch, sameFrames]
    by_cases differ : itA.caller ≠ itB.caller ∨ itA.kf ≠ itB.kf
    · rw [if_pos differ]
      simp only [reduceCtorEq, Bool.and_eq_true, decide_eq_true_eq, false_iff]
      intro same
      exact differ.elim (· same.1.1) (· same.1.2)
    · rw [if_neg differ, frameMismatch_eq_none_iff]
      rw [not_or, Ne, Ne, not_not, not_not] at differ
      simp [differ.1, differ.2]

theorem objectMismatch_eq_none_iff : ∀ {as bs : List (MemoryObject × Ref)},
    objectMismatch as bs = none ↔ mutatedObjects as bs ≠ none
  | [], [] => by simp [objectMismatch, mutatedObjects]
  | [], _ :: _ => by simp [objectMismatch, mutatedObjects]
  | _ :: _, [] => by simp [objectMismatch, mutatedObjects]
  | ai :: as, bi :: bs => by
    rw [objectMismatch, mutatedObjects]
    by_cases differ : ai.1 ≠ bi.1
    · rw [if_pos differ, if_pos differ]
      simp
    · rw [if_neg differ, if_neg differ, objectMismatch_eq_none_iff, Ne, Ne, Option.map_eq_none_iff]

theorem canMerge_run (b : ExecutionState) (now : Surroundings) : ∃ accepted messages,
    (canMerge b).run now = (accepted, { now with messages := messages }) ∧
      (accepted = true ↔ Mergeable now.self b) := by
  have refused (message : String) (different : ¬ Mergeable now.self b)
      (run : (canMerge b).run now = (false, { now with messages := now.messages ++ [message] })) :
      ∃ accepted messages, (canMerge b).run now = (accepted, { now with messages := messages }) ∧
        (accepted = true ↔ Mergeable now.self b) :=
    ⟨_, _, run, by simpa using different⟩
  by_cases pc : now.self.pc = b.pc
  · by_cases symbolics : now.self.symbolics = b.symbolics
    · cases frames : frameMismatch now.self.stack b.stack with
      | some message =>
        refine refused message (fun mergeable => ?_) ?_
        · simp [frameMismatch_eq_none_iff.mpr mergeable.frames] at frames
        · simp [canMerge, pc, symbolics, frames, klee_message]
          rfl
      | none =>
        cases objects : objectMismatch now.self.addressSpace.objects b.addressSpace.objects with
        | some message =>
          refine refused message (fun mergeable => ?_) ?_
          · simp [objectMismatch_eq_none_iff.mpr mergeable.objects] at objects
          · simp [canMerge, pc, symbolics, frames, objects, klee_message]
            rfl
        | none =>
          refine ⟨true, now.messages, ?_, fun _ => ⟨pc, symbolics, ?_, ?_⟩, fun _ => rfl⟩
          · simp [canMerge, pc, symbolics, frames, objects]
            rfl
          · exact frameMismatch_eq_none_iff.mp frames
          · exact objectMismatch_eq_none_iff.mp objects
    · refine refused "Merge failed: symbolics don't match" (fun mergeable => symbolics mergeable.symbolics) ?_
      simp [canMerge, pc, symbolics, klee_message]
      rfl
  · refine refused "Merge failed: PC doesn't match" (fun mergeable => pc mergeable.pc) ?_
    simp [canMerge, pc, klee_message]
    rfl

theorem merge_not_mergeable {heap : Heap} {id : Nat} {a : ExecutionState}
    (different : ¬ Mergeable a b) : merge o context fuel le heap id a b = .ok none := by
  rw [merge]
  split
  · rfl
  split
  · rfl
  split
  · rfl
  rename_i pc symbolics frames
  rw [Ne, not_not] at pc symbolics
  cases compared : mutatedObjects a.addressSpace.objects b.addressSpace.objects with
  | none => rfl
  | some mutated =>
    exact absurd ⟨pc, symbolics, Bool.not_eq_false _ ▸ frames, by simp [compared]⟩ different

section Halting

theorem mergeRegister_ends (inA : Expr) (av bv : Option Expr) : Ends fun fuel => mergeRegister o fuel inA av bv := by
  cases av with
  | none => exact .pure _
  | some av =>
    cases bv with
    | none => exact .pure _
    | some bv => exact (SelectExpr.create_ends inA av bv).map

theorem mergeFrame_ends (inA : Expr) (af bf : StackFrame) : Ends fun fuel => mergeFrame o fuel inA af bf := by
  apply Halts.bind
  · apply Halts.foldlM_const
    intro locals i
    apply (mergeRegister_ends inA (locals i) (bf.locals i)).bind
    intro value _
    exact .pure _
  · intro locals _
    exact .pure _

theorem deref_asserts (heap : Heap) (ref : Ref) : Asserts (deref heap ref) := by
  rw [deref]
  split
  · trivial
  · exact ⟨_, rfl⟩

theorem getWriteable_asserts (heap : Heap) (space : AddressSpace) (mo : MemoryObject) (ref : Ref) :
    Asserts (space.getWriteable heap mo ref) := by
  apply (deref_asserts heap ref).bind
  intro os _
  apply Asserts.require
  split
  · trivial
  · rw [ObjectState.copy, bind_assoc]
    apply Asserts.require
    trivial

theorem mergeByte_ends (inA : Expr) (wos other : Ref) (heap : Heap) (id i : Nat) :
    Ends fun fuel => mergeByte o context fuel inA wos other heap id i := by
  apply (deref_asserts heap wos).ends.bind
  intro os _
  apply (os.read8_ends id i).bind
  intro read _
  apply (deref_asserts _ other).ends.bind
  intro otherOS _
  apply (otherOS.read8_ends _ i).bind
  intro otherRead _
  apply (SelectExpr.create_ends inA read.1 otherRead.1).bind
  intro value _
  apply (deref_asserts _ wos).ends.bind
  intro os _
  apply (os.write_ends i value).bind
  intro written _
  exact .pure _

theorem mergeObject_ends (inA : Expr) (heap : Heap) (id : Nat) (a : ExecutionState)
    (mo : MemoryObject) : Ends fun fuel => mergeObject o context fuel inA b heap id a mo := by
  simp only [mergeObject]
  split
  · rename_i ref other _ _
    apply (getWriteable_asserts heap a.addressSpace mo ref).ends.bind
    intro made _
    apply Halts.bind
    · apply Halts.foldlM_const
      intro state i
      exact mergeByte_ends inA made.2.2 other state.1 state.2 i
    · intro result _
      exact .pure _
  · exact .error _ (by simp)

theorem conjunction_ends (constraints : List Expr) : Ends fun _ => conjunction constraints :=
  .foldlM_const fun inA c => AndExpr.create_ends inA c

theorem merge_ends (heap : Heap) (id : Nat) (a : ExecutionState) : Ends fun fuel => merge o context fuel le heap id a b := by
  simp only [merge]
  split
  · exact .pure _
  split
  · exact .pure _
  split
  · exact .pure _
  cases mutatedObjects a.addressSpace.objects b.addressSpace.objects with
  | none => exact .pure _
  | some mutated =>
    apply (conjunction_ends _).bind
    intro inA _
    apply (conjunction_ends _).bind
    intro inB _
    apply Halts.bind (.mapM fun frames _ => mergeFrame_ends inA frames.1 frames.2)
    intro stack _
    apply Halts.bind
    · apply Halts.foldlM_const
      intro state mo
      exact mergeObject_ends inA state.1 state.2.1 state.2.2 mo
    · intro result _
      apply Halts.bind (.foldlM_const ConstraintManager.addConstraint_ends)
      intro kept _
      apply (OrExpr.create_ends inA inB).bind
      intro either _
      apply (ConstraintManager.addConstraint_ends kept either).bind
      intro constraints _
      exact .pure _

end Halting

theorem mergeInPlace_not_mergeable (different : ¬ Mergeable now.self b) :
    (mergeInPlace o context fuel le b).run now = .ok (false, now) := by
  rw [mergeInPlace_run, merge_not_mergeable different]
  rfl

theorem mergeInPlace_ends : Ends fun fuel => (mergeInPlace o context fuel le b).run now := by
  simp only [mergeInPlace_run]
  apply (merge_ends now.heap now.id now.self).bind
  intro result _
  cases result with
  | none => exact .pure _
  | some result => exact .pure _

section Undivided

theorem Asserts.undivided {α : Type} {computation : Except Fault α} (asserts : Asserts computation) : Undivided computation := by
  apply Satisfies.weaken asserts
  rintro _ ⟨failed, rfl⟩
  simp

theorem read8_undivided (os : ObjectState) (id i : Nat) : Undivided (os.read8 o fuel id i) := by
  rw [ObjectState.read8]
  apply Undivided.ite (.pure _)
  cases os.knownSymbolic? i with
  | some value => exact .pure _
  | none =>
    apply Undivided.require
    apply Undivided.bind (Asserts.undivided (os.getUpdates_asserts id))
    rintro ⟨updates, os, id⟩
    cases root : updates.root with
    | none => simpa only [root] using .assertion .missingObject
    | some root' =>
      simp only [root]
      exact .bind (ReadExpr.create_undivided root' _ _) fun value => .pure _

theorem write_undivided (os : ObjectState) (i : Nat) (value : Expr) : Undivided (os.write context fuel i value) := by
  have general : Undivided (os.writeGeneral context fuel i value) := by
    apply Undivided.ite
    · exact .bind (.of_made (ZExtExpr.create_made False.elim 8)) fun byte => .pure _
    · apply Undivided.require
      apply Satisfies.foldlM_const trivial
      intro j _ state _
      exact Undivided.bind (.of_made ((slices_made fuel).2 _ 8 False.elim)) fun byte => .pure _
  rw [ObjectState.write]
  cases value.constant? with
  | none => exact general
  | some ce => exact .ite (.ite (.pure _) (.ite (.pure _) (.assertion _))) general

theorem mergeFrame_undivided (inA : Expr) (af bf : StackFrame) : Undivided (mergeFrame o fuel inA af bf) := by
  have register (av bv : Option Expr) : Undivided (mergeRegister o fuel inA av bv) := by
    cases av with
    | none => exact .pure _
    | some av =>
      cases bv with
      | none => exact .pure _
      | some bv => exact .bind (.of_made (SelectExpr.create_made False.elim False.elim False.elim)) fun value => .pure _
  apply Undivided.bind _ fun locals => .pure _
  apply Satisfies.foldlM_const trivial
  intro i _ locals _
  exact Undivided.bind (register _ _) fun value => .pure _

theorem mergeByte_undivided (inA : Expr) (wos other : Ref) (heap : Heap) (id i : Nat) :
    Undivided (mergeByte o context fuel inA wos other heap id i) := by
  apply Undivided.bind (Asserts.undivided (deref_asserts heap wos))
  intro os
  apply Undivided.bind (read8_undivided os id i)
  intro read
  apply Undivided.bind (Asserts.undivided (deref_asserts _ other))
  intro otherOS
  apply Undivided.bind (read8_undivided otherOS _ i)
  intro otherRead
  apply Undivided.bind (.of_made (SelectExpr.create_made False.elim False.elim False.elim))
  intro value
  apply Undivided.bind (Asserts.undivided (deref_asserts _ wos))
  intro os
  exact .bind (write_undivided os i value) fun written => .pure _

theorem mergeObject_undivided (inA : Expr) (heap : Heap) (id : Nat) (a : ExecutionState) (mo : MemoryObject) :
    Undivided (mergeObject o context fuel inA b heap id a mo) := by
  rw [mergeObject]
  split
  · rename_i ref other _ _
    apply Undivided.bind (Asserts.undivided (getWriteable_asserts heap a.addressSpace mo ref))
    intro made
    apply Undivided.bind _ fun result => .pure _
    apply Satisfies.foldlM_const trivial
    intro i _ state _
    exact mergeByte_undivided inA made.2.2 other state.1 state.2 i
  · exact .assertion _

end Undivided

section Disjunction

open ConstraintManager (Satisfiable addConstraint_true equality simplifyExpr simplifier_sound)

variable {ρ σ : Assignment} {constraints : List Expr} {l r e : Expr}

/-- The disjunction of what the states have apart, as it is simplified: its sides are true under
assignments of their own, and need not mean anything under that of the other side. -/
def Disjoined (o : Options) (ρ σ : Assignment) (e : Expr) : Prop :=
  Denotes (.safe o ρ) ρ e 1#1 ∨
    ∃ l r, e = .binary .or l r ∧ Denotes (.safe o ρ) ρ l 1#1 ∧ Denotes (.safe o σ) σ r 1#1

theorem or_disjoined (left : Denotes (.safe o ρ) ρ l 1#1) (right : Denotes (.safe o σ) σ r 1#1) :
    Satisfies (· = .outOfFuel) (Disjoined o ρ σ) (OrExpr.create l r) := by
  cases isConstant : r.constant? with
  | some cr =>
    obtain rfl := Expr.constant?_eq_some.mp isConstant
    obtain rfl := right.of_constant
    exact (only_outOfFuel (OrExpr.create_builds left (.constant ⟨1, 1#1⟩))).mono fun _ denotes => .inl denotes
  | none =>
    apply require_satisfies _ fun differ => absurd (left.width.trans right.width.symm) differ
    intro _
    cases isConstantL : l.constant? with
    | some cl =>
      obtain rfl := Expr.constant?_eq_some.mp isConstantL
      obtain rfl := left.of_constant
      simp only [isConstant]
      exact .inl left
    | none =>
      simp only [isConstant]
      exact .inr ⟨l, r, rfl, left, right⟩

theorem post_disjoined (hold : ∀ c ∈ constraints, Denotes (.safe o ρ) ρ c 1#1) (disjoined : Disjoined o ρ σ e) :
    Disjoined o ρ σ ((ExprReplaceVisitor2 (constraints.map equality)).post e) := by
  have sound := simplifier_sound hold
  cases disjoined with
  | inl denotes => exact .inl (denotes.agrees (sound.post denotes.wellFormed))
  | inr sides =>
    obtain ⟨l, r, rfl, left, right⟩ := sides
    rw [ExprVisitor.post]
    cases replaced : (ExprReplaceVisitor2 (constraints.map equality)).visitExprPost (.binary .or l r) with
    | none => exact .inr ⟨l, r, rfl, left, right⟩
    | some e' =>
      -- a constraint says what the disjunction is, so it means something under the assignment
      obtain ⟨before, after, split, -⟩ := List.lookup_eq_some_iff.mp replaced
      have member : (Expr.binary .or l r, e') ∈ constraints.map equality := by simp [split]
      obtain ⟨c, isConstraint, same⟩ := List.mem_map.mp member
      have wellFormed : (Expr.binary .or l r).WellFormed (.safe o ρ) := by
        have holds := hold c isConstraint
        revert same holds
        fun_cases equality c with
        | case1 value right =>
          rintro ⟨⟩ holds
          exact holds.wellFormed.2.1
        | case2 c _ =>
          rintro ⟨⟩ holds
          exact holds.wellFormed
      have denotes : Denotes (.safe o ρ) ρ (.binary .or l r) 1#1 := by
        refine ⟨wellFormed, left.width, ?_⟩
        simp [left.value, BitVector.or_eq_one]
      exact .inl (denotes.agrees (sound.visitExprPost wellFormed replaced))

theorem visit_disjoined (holdA : ∀ c ∈ constraints, Denotes (.safe o ρ) ρ c 1#1)
    (holdB : ∀ c ∈ constraints, Denotes (.safe o σ) σ c 1#1) (fuel : Nat) : ∀ e, Disjoined o ρ σ e →
      Satisfies (· = .outOfFuel) (Disjoined o ρ σ) ((ExprReplaceVisitor2 (constraints.map equality)).visit o fuel e) := by
  have visits {τ : Assignment} (hold : ∀ c ∈ constraints, Denotes (.safe o τ) τ c 1#1) (fuel : Nat) {e : Expr}
      (denotes : Denotes (.safe o τ) τ e 1#1) :
      Satisfies (· = .outOfFuel) (fun e => Denotes (.safe o τ) τ e 1#1)
        ((ExprReplaceVisitor2 (constraints.map equality)).visit o fuel e) := by
    apply (only_outOfFuel ((simplifier_sound hold).visit Guards.allows_safe Guards.extensional_safe fuel e denotes.wellFormed)).mono
    exact fun _ agrees => denotes.agrees agrees
  induction fuel with
  | zero => exact fun _ _ => rfl
  | succ fuel ih =>
    intro e disjoined
    obtain denotes | ⟨l, r, rfl, left, right⟩ := disjoined
    · exact (visits holdA (fuel + 1) denotes).mono fun _ denotes => .inl denotes
    · rw [ExprVisitor.visit]
      simp only [Expr.kids, List.mapM_cons, List.mapM_nil, bind_assoc, pure_bind]
      apply (visits holdA fuel left).bind
      intro l' left'
      apply (visits holdB fuel right).bind
      intro r' right'
      apply Satisfies.ite
      · exact post_disjoined holdA (.inr ⟨l, r, rfl, left, right⟩)
      · apply (or_disjoined left' right').bind
        intro rebuilt disjoined
        rw [map_eq_pure_bind]
        apply Satisfies.ite _ (Satisfies.pure_iff.mpr (post_disjoined holdA disjoined))
        apply (ih rebuilt disjoined).bind
        exact fun visited disjoined => post_disjoined holdA disjoined

theorem addConstraint_disjoined (holdA : ∀ c ∈ constraints, Denotes (.safe o ρ) ρ c 1#1)
    (holdB : ∀ c ∈ constraints, Denotes (.safe o σ) σ c 1#1) (disjoined : Disjoined o ρ σ e) :
    Satisfies (· = .outOfFuel) (fun _ => True) (ConstraintManager.addConstraint o fuel constraints e) := by
  have simplified : Satisfies (· = .outOfFuel) (Disjoined o ρ σ) (simplifyExpr o fuel constraints e) := by
    rw [simplifyExpr]
    split
    · exact disjoined
    · exact visit_disjoined holdA holdB fuel e disjoined
  apply simplified.bind
  intro e disjoined
  obtain denotes | ⟨l, r, rfl, -, -⟩ := disjoined
  · apply (only_outOfFuel ((ConstraintManager.steady_true Guards.allows_safe Guards.extensional_safe).addConstraintInternal
      fuel constraints e holdA denotes)).mono
    exact fun _ _ => trivial
  · cases fuel with
    | zero => rfl
    | succ fuel => trivial

theorem kept_true (fuel : Nat) {commonConstraints : List Expr} (hold : ∀ c ∈ commonConstraints, Denotes (.safe o ρ) ρ c 1#1) :
    Satisfies (· = .outOfFuel) (fun kept => ∀ c ∈ kept, Denotes (.safe o ρ) ρ c 1#1)
      (commonConstraints.foldlM (ConstraintManager.addConstraint o fuel) []) := by
  apply Satisfies.foldlM_const (by simp)
  intro c member kept holdKept
  exact only_outOfFuel (addConstraint_true Guards.allows_safe Guards.extensional_safe holdKept (hold c member))

theorem suffix_true {a b s : ExecutionState} (hold : ∀ c ∈ s.constraints, Denotes (.safe o ρ) ρ c 1#1) :
    Satisfies (· = .outOfFuel) (fun inS => Denotes (.safe o ρ) ρ inS 1#1) (conjunction (suffix le a b s)) := by
  have holdSuffix (c) (member : c ∈ suffix le a b s) : Denotes (.safe o ρ) ρ c 1#1 :=
    hold c (mem_exprSet.mp (List.mem_filter.mp member).1)
  apply (only_outOfFuel (conjunction_conjoins (ρ := ρ) fun c member => ⟨(holdSuffix c member).wellFormed, (holdSuffix c member).width⟩)).mono
  rintro inS ⟨bit, denotes, holds⟩
  exact denotes.of_eq (holds.mpr fun c member => (holdSuffix c member).value)

end Disjunction

section Total

open ConstraintManager (Satisfiable)

/-- The states are well formed, their paths can be taken, a register has one width in both, and
the objects in which they differ can be written. -/
structure Consistent (o : Options) (heap : Heap) (a b : ExecutionState) : Prop where
  valid : ∃ ρ, a.Valid (.bounded o ρ) heap ∧ b.Valid (.bounded o ρ) heap
  feasibleA : Satisfiable o a.constraints
  feasibleB : Satisfiable o b.constraints
  registers : ∀ frames ∈ a.stack.zip b.stack, Fitting frames.1 frames.2
  writable : ∀ mo ra rb, (mo, ra) ∈ a.addressSpace.objects → (mo, rb) ∈ b.addressSpace.objects → ra ≠ rb →
    ∀ os, heap[ra]? = some os → os.readOnly = false

theorem undivided_excused {α : Type} {post : α → Prop} {guards : Guards} {ρ : Assignment} {fits : Prop} {computation : Except Fault α}
    (fit : fits) (satisfies : Satisfies (fun fault => fits → Excused guards ρ fault) post computation)
    (undivided : Undivided computation) : Satisfies (· = .outOfFuel) post computation := by
  cases computation with
  | ok value => exact satisfies
  | error fault => exact (satisfies fit).resolve_right fun divided => undivided divided.1

theorem merge_returns {heap : Heap} {id : Nat} {a : ExecutionState} (mergeable : Mergeable a b) (consistent : Consistent o heap a b) :
    Satisfies (· = .outOfFuel) (· ≠ none) (merge o context fuel le heap id a b) := by
  obtain ⟨pc, symbolics, frames, objects⟩ := mergeable
  obtain ⟨⟨ρ, validA, validB⟩, ⟨ρA, holdA⟩, ⟨ρB, holdB⟩, registers, writable⟩ := consistent
  obtain ⟨mutated, compared⟩ := Option.ne_none_iff_exists'.mp objects
  rw [merge, if_neg (not_not.mpr pc), if_neg (not_not.mpr symbolics), if_neg (by simp [frames])]
  simp only [compared]
  have conjoins := (suffix_true holdA).and (conjunction_conjoins (ρ := ρ) (@Valid.suffix _ le _ _ a b validA))
  apply conjoins.bind
  rintro inA ⟨trueA, bit, denotes, -⟩
  apply (suffix_true holdB).bind
  intro inB trueB
  apply Satisfies.bind (undivided_excused registers (mergeFrames_combine denotes validA validB Guards.allows_bounded) _)
  · intro stack _
    let locked (mo : MemoryObject) : Prop := ∃ ra os, (mo, ra) ∈ a.addressSpace.objects ∧ heap[ra]? = some os ∧ os.readOnly = true
    have unlocked (mo) (isMutated : mo ∈ mutated) : ¬ locked mo := by
      rintro ⟨ra, os, bound, stored, isLocked⟩
      obtain ⟨ra', rb, boundA, boundB, differ⟩ := (mutatedObjects_compared compared).differ mo isMutated
      cases validA.sorted.eq_of_rank_eq bound boundA rfl
      simp [writable mo ra rb boundA boundB differ os stored] at isLocked
    have lock : ∀ binding ∈ a.addressSpace.objects, ∀ os, heap[binding.2]? = some os → os.readOnly = true → locked binding.1 :=
      fun binding member os stored isLocked => ⟨binding.2, os, member, stored, isLocked⟩
    apply Satisfies.bind (undivided_excused unlocked (mergeObjects_merging denotes validA validB locked Admits.bounded lock compared stack) _)
    · intro result _
      have common {c : Expr} (member : c ∈ commonConstraints le a b) : c ∈ a.constraints ∧ c ∈ b.constraints := mem_commonConstraints.mp member
      have kept := (kept_true fuel fun c member => holdA c (common member).1).and (kept_true fuel fun c member => holdB c (common member).2)
      apply kept.bind
      rintro kept ⟨keptA, keptB⟩
      apply (or_disjoined trueA trueB).bind
      intro either disjoined
      apply (addConstraint_disjoined keptA keptB disjoined).bind
      exact fun constraints _ => Option.some_ne_none _
    · apply Satisfies.foldlM_const trivial
      exact fun mo _ state _ => mergeObject_undivided inA state.1 state.2.1 state.2.2 mo
  · apply (Satisfies.mapM_all fun frames _ => mergeFrame_undivided inA frames.1 frames.2).mono
    exact fun _ _ => trivial

/-- `canMerge` changes neither state. Where it refuses, `merge` returns false and has
changed nothing. Where it accepts, `merge` merges the states and returns true. -/
theorem canMerge_decides_merge (o : Options) (context : Context) (le : Expr → Expr → Bool)
    (b : ExecutionState) (now : Surroundings) :
    ∃ accepted messages, (canMerge b).run now = (accepted, { now with messages := messages }) ∧
      (accepted = false → ∀ fuel, (mergeInPlace o context fuel le b).run now = .ok (false, now)) ∧
      (accepted = true → Consistent o now.heap now.self b → ∃ bound after, ∀ fuel, bound ≤ fuel →
        (mergeInPlace o context fuel le b).run now = .ok (true, after)) := by
  obtain ⟨accepted, messages, run, decides⟩ := canMerge_run b now
  refine ⟨accepted, messages, run, ?_, ?_⟩
  · intro refused fuel
    exact mergeInPlace_not_mergeable fun mergeable => by simp [decides.mpr mergeable] at refused
  · intro accepts consistent
    have merges (fuel) : Satisfies (· = .outOfFuel) (·.1 = true) ((mergeInPlace o context fuel le b).run now) := by
      rw [mergeInPlace_run]
      apply (merge_returns (decides.mp accepts) consistent).bind
      intro result merged
      cases result with
      | none => exact absurd rfl merged
      | some result => rfl
    obtain ⟨⟨returned, after⟩, isTrue, bound, settled⟩ := mergeInPlace_ends.returns merges
    cases isTrue
    exact ⟨bound, after, settled⟩

section Example

open Symbolic.ConstraintManager (sampleCondition sampleCondition_wellFormed)

def sampleByteIs (byte : BitVec 8) : Assignment := fun root _ => byte.setWidth root.range

theorem sample_consistent : Consistent ⟨false, true⟩ sampleHeap sampleFirst sampleSecond where
  valid := by
    refine ⟨sampleByteIs 3, ?_, ?_⟩
    · exact sampleState_valid ⟨sampleCondition_wellFormed, rfl⟩ rfl rfl rfl rfl rfl rfl
    · exact sampleState_valid ⟨⟨trivial, sampleCondition_wellFormed, rfl⟩, rfl⟩ rfl rfl rfl rfl rfl rfl
  feasibleA := by
    refine ⟨sampleByteIs 3, fun c member => ?_⟩
    cases List.mem_singleton.mp member
    exact ⟨sampleCondition_wellFormed, rfl, rfl⟩
  feasibleB := by
    refine ⟨sampleByteIs 4, fun c member => ?_⟩
    cases List.mem_singleton.mp member
    exact ⟨⟨trivial, sampleCondition_wellFormed, rfl⟩, rfl, rfl⟩
  registers := by
    intro frames member
    cases List.mem_singleton.mp member
    rintro i - a b ⟨⟩ ⟨⟩
    rfl
  writable := by
    intro mo ra rb boundA _ _ os stored
    cases List.mem_singleton.mp boundA
    cases stored
    rfl

theorem sample_merges : ((canMerge sampleSecond).run ⟨[], sampleHeap, 0, sampleFirst⟩).1 = true ∧
    ∃ bound after, ∀ fuel, bound ≤ fuel →
      (mergeInPlace ⟨false, true⟩ ⟨true, 64⟩ fuel (fun _ _ => true) sampleSecond).run ⟨[], sampleHeap, 0, sampleFirst⟩ =
        .ok (true, after) := by
  obtain ⟨accepted, messages, run, -, merges⟩ := canMerge_decides_merge ⟨false, true⟩ ⟨true, 64⟩ (fun _ _ => true)
    sampleSecond ⟨[], sampleHeap, 0, sampleFirst⟩
  have accepts : ((canMerge sampleSecond).run ⟨[], sampleHeap, 0, sampleFirst⟩).1 = true := rfl
  refine ⟨accepts, merges ?_ sample_consistent⟩
  rw [run] at accepts
  exact accepts

end Example

end Total

end Decision

end ExecutionState

end NeuroMerge.Execution
