import Mathlib.Order.Bounds.Basic
import NeuroMerge.Foundations.Fuel

/-!
# Binary search

The least number that passes a test which all numbers above it pass as well. The test may
fail to give an answer.
-/

namespace NeuroMerge

variable {ε : Type} {lo hi : Nat}

/-- The search from `lo` on; `hi` is known to pass. -/
def binarySearch (test : Nat → Except ε Bool) (lo hi : Nat) : Except ε Nat :=
  if searching : lo < hi then do
    let passed ← test (lo + (hi - lo) / 2)
    if passed then binarySearch test lo (lo + (hi - lo) / 2)
    else binarySearch test (lo + (hi - lo) / 2 + 1) hi
  else pure lo
termination_by hi - lo

theorem binarySearch_spec {tolerated : ε → Prop} {test : Nat → Except ε Bool}
    {passes : Nat → Prop} (monotone : ∀ {m n : Nat}, m ≤ n → passes m → passes n) (ordered : lo ≤ hi) (last : passes hi)
    (tests : ∀ n, lo ≤ n → n < hi →
      Satisfies tolerated (fun answer => answer = true ↔ passes n) (test n)) :
    Satisfies tolerated (IsLeast {n | lo ≤ n ∧ passes n}) (binarySearch test lo hi) := by
  induction size : hi - lo using Nat.strong_induction_on generalizing lo hi with
  | h size ih =>
    rw [binarySearch]
    split
    · rename_i searching
      have lower : lo ≤ lo + (hi - lo) / 2 := Nat.le_add_right _ _
      have upper : lo + (hi - lo) / 2 < hi := by omega
      apply Satisfies.bind (tests _ lower upper)
      intro passed answers
      split
      · rename_i isTrue
        exact ih _ (by omega) lower (answers.mp isTrue) (fun n above below => tests n above (Nat.lt_trans below upper)) rfl
      · rename_i isFalse
        have fails : ¬ passes (lo + (hi - lo) / 2) := fun holds => isFalse (answers.mpr holds)
        have rest := ih (hi - (lo + (hi - lo) / 2 + 1)) (by omega) upper last (fun n above => tests n (by omega)) rfl
        apply rest.mono
        rintro found ⟨⟨above, holds⟩, least⟩
        refine ⟨⟨by omega, holds⟩, fun n ⟨_, passesToo⟩ => least ⟨?_, passesToo⟩⟩
        by_contra below
        exact fails (monotone (by omega) passesToo)
    · rename_i done
      have same : lo = hi := Nat.le_antisymm ordered (not_lt.mp done)
      subst same
      exact ⟨⟨Nat.le_refl _, last⟩, fun n both => both.1⟩

theorem binarySearch_halts {exhausted : ε} {test : Nat → Nat → Except ε Bool}
    (halts : ∀ n, Halts exhausted fun fuel => test fuel n) : Halts exhausted fun fuel => binarySearch (test fuel) lo hi := by
  induction size : hi - lo using Nat.strong_induction_on generalizing lo hi with
  | h size ih =>
    by_cases searching : lo < hi
    · simp only [binarySearch.eq_def _ lo hi, dif_pos searching]
      apply (halts _).bind
      intro passed _
      exact .ite (fun _ => ih _ (by omega) rfl) fun _ => ih _ (by omega) rfl
    · simp only [binarySearch.eq_def _ lo hi, dif_neg searching]
      exact .pure lo

end NeuroMerge
