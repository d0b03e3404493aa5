import Mathlib.Data.List.Perm.Basic
import Mathlib.Data.List.Count

/-!
# Unordered removal from a vector

`std::swap(*it, v.back()); v.pop_back();` removes the first occurrence of an
element by moving the last one into its place. The order changes; the elements
are those of `List.erase`.
-/

namespace NeuroMerge

variable {α : Type} [DecidableEq α]

/-- The vector after the first `value` was swapped with the back and popped. -/
def swapRemove (values : List α) (value : α) : List α :=
  match values with
  | [] => []
  | head :: tail =>
    if head = value then
      match tail.getLast? with
      | none => []
      | some last => last :: tail.dropLast
    else
      head :: swapRemove tail value

theorem swapRemove_perm_erase (values : List α) (value : α) : (swapRemove values value).Perm (values.erase value) := by
  induction values with
  | nil => exact .nil
  | cons head tail ih =>
    by_cases same : head = value
    · subst head
      rcases List.eq_nil_or_concat tail with rfl | ⟨front, last, rfl⟩
      · simp [swapRemove]
      · simpa [swapRemove] using (List.perm_append_singleton last front).symm
    · rw [List.erase_cons_tail (by simpa using same)]
      simpa [swapRemove, same] using ih.cons head

theorem count_swapRemove (values : List α) (value other : α) : (swapRemove values value).count other = (values.erase value).count other :=
  (swapRemove_perm_erase values value).count_eq other

theorem length_swapRemove {values : List α} {value : α} (member : value ∈ values) :
    (swapRemove values value).length + 1 = values.length := by
  rw [(swapRemove_perm_erase values value).length_eq, List.length_erase_of_mem member]
  have := List.length_pos_of_mem member
  omega

theorem nodup_swapRemove {values : List α} {value : α} (unique : values.Nodup) : (swapRemove values value).Nodup :=
  (swapRemove_perm_erase values value).nodup_iff.mpr (unique.erase value)

theorem mem_swapRemove_iff {values : List α} {value other : α} (unique : values.Nodup) :
    other ∈ swapRemove values value ↔ other ≠ value ∧ other ∈ values := by
  rw [(swapRemove_perm_erase values value).mem_iff, unique.mem_erase_iff]

end NeuroMerge
