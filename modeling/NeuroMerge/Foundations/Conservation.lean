import Mathlib.Algebra.BigOperators.Group.List.Basic
import Mathlib.Algebra.Ring.Nat

/-!
# Conservation

Parts are replaced by other ones, a few at a time. Each counts for some keys, and no
replacement counts for more than what it replaces.
-/

namespace NeuroMerge.Conservation

open List

variable {Part Key : Type} {start : Part} {parts others : List Part} {kept : Prop}

/-- The parts that replacements lead to from a single one, and whether all have kept what
they are to keep. -/
inductive Run (Step : List Part → List Part → Prop → Prop) (start : Part) : List Part → Prop → Prop where
  | start : Run Step start [start] True
  | select {parts others : List Part} {kept : Prop} (run : Run Step start parts kept)
      (perm : parts.Perm others) : Run Step start others kept
  | step {old new others : List Part} {kept keeps : Prop} (run : Run Step start (old ++ others) kept)
      (step : Step old new keeps) : Run Step start (new ++ others) (kept ∧ keeps)

def total (count : Key → Part → Nat) (key : Key) (parts : List Part) : Nat :=
  (parts.map (count key)).sum

section

variable {count : Key → Part → Nat} {key : Key}

@[simp] theorem total_nil : total count key [] = 0 := rfl

@[simp] theorem total_cons {part : Part} : total count key (part :: parts) = count key part + total count key parts := by
  simp [total]

@[simp] theorem total_append : total count key (parts ++ others) = total count key parts + total count key others := by
  simp [total]

/-- The parts are good, and they count for no more than what they come from; whether for
nothing less is known. -/
structure Conserved (count : Key → Part → Nat) (good : Part → Prop) (old new : List Part)
    (kept : Prop) : Prop where
  good : ∀ part ∈ new, good part
  le : ∀ key, total count key new ≤ total count key old
  all_iff : (∀ key, total count key new = total count key old) ↔ kept

theorem Conserved.of_eq {good : Part → Prop} {old new : List Part} (isGood : ∀ part ∈ new, good part)
    (same : ∀ key, total count key new = total count key old) (holds : kept) : Conserved count good old new kept :=
  ⟨isGood, fun key => Nat.le_of_eq (same key), iff_of_true same holds⟩

variable {Step : List Part → List Part → Prop → Prop} {good : Part → Prop}

/-- Replacements may rely on that no key is counted twice. -/
theorem Run.conserved (isGood : good start) (once : ∀ key, count key start ≤ 1)
    (conserves : ∀ {old new : List Part} {keeps : Prop}, Step old new keeps →
      (∀ part ∈ old, good part) → (∀ key, total count key old ≤ 1) →
        Conserved count good old new keeps) (run : Run Step start parts kept) : Conserved count good [start] parts kept := by
  induction run with
  | start => exact .of_eq (by simpa using isGood) (fun _ => rfl) trivial
  | @select parts others kept _ perm ih =>
    have same (key : Key) : total count key others = total count key parts := (perm.map _).sum_eq.symm
    refine ⟨fun part member => ih.good part (perm.mem_iff.mpr member), ?_, ?_⟩
    · simpa only [same] using ih.le
    · simpa only [same] using ih.all_iff
  | @step old new others kept keeps _ step ih =>
    have bound (key : Key) : total count key old + total count key others ≤ count key start := by
      simpa using ih.le key
    have next := conserves step (fun part member => ih.good part (mem_append_left _ member))
      fun key => Nat.le_trans (Nat.le_add_right _ _) (Nat.le_trans (bound key) (once key))
    refine ⟨fun part member => ?_, fun key => ?_, ?_⟩
    · rcases mem_append.mp member with fresh | old
      · exact next.good part fresh
      · exact ih.good part (mem_append_right _ old)
    · have less := next.le key
      have whole := bound key
      simp only [total_append, total_cons, total_nil]
      omega
    · rw [← ih.all_iff, ← next.all_iff, ← forall_and]
      refine forall_congr' fun key => ?_
      have less := next.le key
      have whole := bound key
      simp only [total_append, total_cons, total_nil]
      omega

/-- If each replacement keeps what it is to keep, all have done so. -/
theorem Run.holds (keeps : ∀ {old new : List Part} {kept : Prop}, Step old new kept → kept) (run : Run Step start parts kept) : kept := by
  induction run with
  | start => trivial
  | select _ _ ih => exact ih
  | step _ step ih => exact ⟨ih, keeps step⟩

end

end NeuroMerge.Conservation
