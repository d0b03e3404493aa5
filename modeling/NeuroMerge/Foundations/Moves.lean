import Mathlib.Data.List.Nodup

/-!
# Moves between registers

Assignments that are made one after the other, and the same assignments made at
once. The two differ only where a move reads what an earlier one has written.
-/

namespace NeuroMerge

open List

/-- The register is assigned what is computed from all registers. -/
structure Move (ι α : Type) where
  target : ι
  value : (ι → α) → α

namespace Move

variable {ι α : Type} [DecidableEq ι]

/-- Each move sees what the earlier ones have written. -/
def sequential (registers : ι → α) (moves : List (Move ι α)) : ι → α :=
  moves.foldl (fun registers move => Function.update registers move.target (move.value registers))
    registers

def simultaneous (registers : ι → α) (moves : List (Move ι α)) : ι → α := fun i =>
  match moves.find? fun move => move.target = i with
  | some move => move.value registers
  | none => registers i

def Ignores (move : Move ι α) (i : ι) : Prop :=
  ∀ registers a, move.value (Function.update registers i a) = move.value registers

variable {moves : List (Move ι α)} {registers : ι → α} {move : Move ι α}

theorem simultaneous_of_mem (distinct : (moves.map target).Nodup) (member : move ∈ moves) :
    simultaneous registers moves move.target = move.value registers := by
  induction moves with
  | nil => cases member
  | cons head moves ih =>
    rw [map_cons, nodup_cons] at distinct
    obtain _ | ⟨_, later⟩ := member
    · simp [simultaneous]
    · have different : head.target ≠ move.target := fun same => distinct.1 (same ▸ mem_map_of_mem later)
      have rest := ih distinct.2 later
      simp only [simultaneous, find?_cons, different, decide_false] at rest ⊢
      exact rest

theorem simultaneous_of_forall_ne {i : ι} (untouched : ∀ move ∈ moves, move.target ≠ i) :
    simultaneous registers moves i = registers i := by
  have none : moves.find? (fun move => decide (move.target = i)) = none := by
    simpa [find?_eq_none] using untouched
  rw [simultaneous, none]

/-- Where no move reads what an earlier one has written, the order does not matter. -/
theorem sequential_eq_simultaneous (distinct : (moves.map target).Nodup)
    (independent : moves.Pairwise fun earlier later => later.Ignores earlier.target) :
    sequential registers moves = simultaneous registers moves := by
  induction moves generalizing registers with
  | nil => rfl
  | cons head moves ih =>
    rw [map_cons, nodup_cons] at distinct
    rw [pairwise_cons] at independent
    have rest : sequential registers (head :: moves) = simultaneous
        (Function.update registers head.target (head.value registers)) moves :=
      ih distinct.2 independent.2
    rw [rest]
    funext i
    simp only [simultaneous, find?_cons]
    by_cases isHead : head.target = i
    · subst isHead
      have absent : moves.find? (fun move => decide (move.target = head.target)) = none := by
        simp only [find?_eq_none, decide_eq_true_eq]
        exact fun move member same => distinct.1 (same ▸ mem_map_of_mem member)
      simp [absent]
    · simp only [isHead, decide_false]
      cases found : moves.find? fun move => decide (move.target = i) with
      | none => exact Function.update_of_ne (Ne.symm isHead) _ _
      | some move => exact independent.1 move (mem_of_find?_eq_some found) registers _

theorem simultaneous_congr {others : List (Move ι α)} {registers' : ι → α} {i : ι}
    (same : List.Forall₂ (fun move other => move.target = other.target ∧
      move.value registers = other.value registers') moves others) (before : registers i = registers' i) :
    simultaneous registers moves i = simultaneous registers' others i := by
  induction same with
  | nil => exact before
  | @cons move other moves others head _ ih =>
    obtain ⟨target, value⟩ := head
    simp only [simultaneous, find?_cons, target] at ih ⊢
    by_cases isHead : other.target = i
    · simp only [isHead, decide_true]
      exact value
    · simp only [isHead, decide_false]
      exact ih

end Move

end NeuroMerge
