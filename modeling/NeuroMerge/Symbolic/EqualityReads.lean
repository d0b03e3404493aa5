import NeuroMerge.Symbolic.Reads

/-!
# Equalities and constructions without divisions

The equality of two expressions is built without faults, whatever they divide by,
and reads nothing that they do not read. Only the constructors of divisions and
remainders ever divide constants, and they do so only if both operands are constant.
-/

namespace NeuroMerge.Symbolic

variable {guards : Guards} {e : Expr}

/-- A boolean expression that reads no more than what is given. -/
structure Condition (reads : List ReadExpr) (e : Expr) : Prop where
  width : e.width = 1
  reads : e.reads ⊆ reads

/-- The computation builds such an expression or runs out of fuel. -/
abbrev BuildsCondition (reads : List ReadExpr) (computation : Except Fault Expr) : Prop :=
  Satisfies (· = .outOfFuel) (Condition reads) computation

theorem Expr.reads_of_mem_kids {kid : Expr} (member : kid ∈ e.kids) : kid.reads ⊆ e.reads := by
  intro re inKid
  by_cases isRead : ∃ root head index, e = .read root head index
  · obtain ⟨root, head, index, rfl⟩ := isRead
    obtain rfl := List.mem_singleton.mp member
    exact List.mem_cons_of_mem _ (List.mem_append_left _ inKid)
  · rw [e.reads_eq fun root head index same => isRead ⟨root, head, index, same⟩]
    exact List.mem_flatMap.mpr ⟨kid, member, inKid⟩

theorem eqClosed_condition (guards : Guards) (reads : List ReadExpr) :
    EqClosed (· = .outOfFuel) (fun e => e.WellFormed guards ∧ e.reads ⊆ reads) (fun _ => True) (Condition reads) where
  outOfFuel := rfl
  constant _ := ⟨trivial, List.nil_subset _⟩
  kid facts member := ⟨facts.1.of_mem_kids _ member, List.Subset.trans (Expr.reads_of_mem_kids member) facts.2⟩
  typedBinary facts := .inl facts.1.2.2.1.symm
  typedCmp facts := .inl facts.1.2.2.symm
  compound _ := trivial
  sum _ _ := trivial
  compared _ := trivial
  itself facts _ typed := ⟨(typed.resolve_right (by rintro ⟨⟩)).symm, facts.2⟩
  equality left right _ _ := ⟨rfl, List.append_subset.mpr ⟨left.2, right.2⟩⟩
  bit _ := ⟨rfl, List.nil_subset _⟩
  folded _ kept := ⟨kept.width, List.nil_subset _⟩
  typed left right := .inl (left.width.trans right.width.symm)
  join _ left right _ := ⟨left.width, List.append_subset.mpr ⟨left.reads, right.reads⟩⟩

theorem createIsZero_condition (o : Options) (fuel : Nat) (wellFormed : e.WellFormed guards) :
    BuildsCondition e.reads (createIsZero o fuel e) :=
  ((eqClosed_condition guards e.reads).eqKept o fuel).create ⟨wellFormed, .refl _⟩ ⟨trivial, List.nil_subset _⟩ (.inl rfl)

section Undivided

abbrev Undivided {α : Type} (computation : Except Fault α) : Prop :=
  Satisfies (· ≠ .divisionByZero) (fun _ => True) computation

variable {o : Options} {fuel : Nat} {α β : Type} {condition : Prop}

namespace Undivided

theorem pure (value : α) : Undivided (Pure.pure value : Except Fault α) := trivial

theorem outOfFuel : Undivided (throw .outOfFuel : Except Fault α) := nofun

theorem assertion (failed : Assertion) : Undivided (throw (.assertion failed) : Except Fault α) := nofun

theorem bind {first : Except Fault α} {next : α → Except Fault β} (before : Undivided first)
    (after : ∀ value, Undivided (next value)) : Undivided (first >>= next) :=
  Satisfies.bind before fun value _ => after value

theorem require [Decidable condition] {failed : Assertion} {next : Except Fault α}
    (after : Undivided next) : Undivided (Symbolic.require condition failed >>= fun _ => next) :=
  require_satisfies (fun _ => after) fun _ => nofun

theorem ite [Decidable condition] {first second : Except Fault α} (holds : Undivided first)
    (fails : Undivided second) : Undivided (if condition then first else second) := by
  split
  · exact holds
  · exact fails

theorem of_made {computation : Except Fault Expr} {bound : Nat} (made : Made False False bound computation) : Undivided computation :=
  (Satisfies.weaken made fun _ => id).mono fun _ _ => trivial

end Undivided

theorem ReadExpr.create_undivided (root : Array) (head : UpdateNode) (index : Expr) :
    Undivided (ReadExpr.create o fuel root head index) :=
  .of_made (ReadExpr.create_made root False.elim False.elim)

theorem Expr.rebuild_undivided (e : Expr) (kids : List Expr)
    (divides : ∀ kind left right, e = .binary kind left right → kind.isDivision = true →
      ∀ l cr, kids = [l, .constant cr] → cr.isZero = false) : Undivided (e.rebuild o fuel kids) := by
  apply Undivided.of_made (e.rebuild_made kids _)
  intro kind left right same isDivision l cr replaced zero
  rw [divides kind left right same isDivision l cr replaced] at zero
  exact Bool.false_ne_true zero

end Undivided

end NeuroMerge.Symbolic
