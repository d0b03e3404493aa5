import Mathlib.Data.List.Sort

/-!
# Persistent sorted maps

A map is the list of its entries in the order of their keys. Entries carry a key
object of which only the rank counts, so replacing an entry also replaces the key
object.
-/

namespace NeuroMerge.ImmutableMap

open List

variable {κ δ ν : Type} [LinearOrder ν] (rank : κ → ν)

def lookup (entries : List (κ × δ)) (key : ν) : Option (κ × δ) :=
  entries.find? fun entry => rank entry.1 = key

/-- The entry with the greatest key that is not greater than the given one. -/
def lookupPrevious (entries : List (κ × δ)) (key : ν) : Option (κ × δ) :=
  (entries.filter fun entry => rank entry.1 ≤ key).getLast?

def upperBound (entries : List (κ × δ)) (key : ν) : List (κ × δ) × List (κ × δ) :=
  (entries.takeWhile fun entry => rank entry.1 ≤ key,
    entries.dropWhile fun entry => rank entry.1 ≤ key)

def replace : List (κ × δ) → κ × δ → List (κ × δ)
  | [], value => [value]
  | entry :: rest, value =>
    if rank value.1 < rank entry.1 then value :: entry :: rest
    else if rank entry.1 < rank value.1 then entry :: replace rest value
    else value :: rest

def insert : List (κ × δ) → κ × δ → List (κ × δ)
  | [], value => [value]
  | entry :: rest, value =>
    if rank value.1 < rank entry.1 then value :: entry :: rest
    else if rank entry.1 < rank value.1 then entry :: insert rest value
    else entry :: rest

def remove (entries : List (κ × δ)) (key : ν) : List (κ × δ) :=
  entries.filter fun entry => rank entry.1 ≠ key

variable {rank} {entries : List (κ × δ)} {entry value : κ × δ} {key : ν}

def Sorted (rank : κ → ν) (entries : List (κ × δ)) : Prop :=
  entries.Pairwise fun left right => rank left.1 < rank right.1

theorem Sorted.lookup_eq_some (sorted : Sorted rank entries) (member : entry ∈ entries) :
    lookup rank entries (rank entry.1) = some entry := by
  induction entries with
  | nil => cases member
  | cons first rest ih =>
    obtain ⟨below, sortedRest⟩ := pairwise_cons.mp sorted
    obtain rfl | later := List.mem_cons.mp member
    · simp [lookup]
    · rw [lookup, find?_cons_of_neg (by simpa using ne_of_lt (below entry later))]
      exact ih sortedRest later

theorem Sorted.eq_of_rank_eq (sorted : Sorted rank entries) (left : entry ∈ entries)
    (right : value ∈ entries) (same : rank entry.1 = rank value.1) : entry = value := by
  have found := sorted.lookup_eq_some left
  rw [same, sorted.lookup_eq_some right] at found
  exact (Option.some.inj found).symm

theorem upperBound_append : (upperBound rank entries key).1 ++ (upperBound rank entries key).2 =
    entries :=
  takeWhile_append_dropWhile

theorem Sorted.le_lookupPrevious (sorted : Sorted rank entries)
    (found : lookupPrevious rank entries key = some value) (member : entry ∈ entries)
    (notAfter : rank entry.1 ≤ key) : rank entry.1 ≤ rank value.1 := by
  have sortedPrevious : Sorted rank (entries.filter fun entry => rank entry.1 ≤ key) := .filter _ sorted
  obtain ⟨before, split⟩ := getLast?_eq_some_iff.mp found
  have previous : entry ∈ entries.filter fun entry => rank entry.1 ≤ key := mem_filter.mpr ⟨member, by simpa using notAfter⟩
  rw [Sorted, split, pairwise_append] at sortedPrevious
  rw [split, mem_append, mem_singleton] at previous
  cases previous with
  | inl earlier => exact le_of_lt (sortedPrevious.2.2 entry earlier value (by simp))
  | inr same => rw [same]

theorem lookupPrevious_mem (found : lookupPrevious rank entries key = some value) : value ∈ entries ∧ rank value.1 ≤ key := by
  simpa using mem_filter.mp (mem_of_getLast? found)

theorem lookupPrevious_none (missing : lookupPrevious rank entries key = none) (member : entry ∈ entries) : ¬ rank entry.1 ≤ key := by
  rw [lookupPrevious, getLast?_eq_none_iff, filter_eq_nil_iff] at missing
  simpa using missing entry member

theorem mem_of_mem_replace (member : entry ∈ replace rank entries value) : entry = value ∨ entry ∈ entries := by
  induction entries with
  | nil => simpa [replace] using member
  | cons first rest ih =>
    rw [replace] at member
    split at member
    · simpa using member
    · split at member
      · obtain rfl | later := List.mem_cons.mp member
        · exact .inr (by simp)
        · exact (ih later).imp_right (mem_cons_of_mem first)
      · obtain rfl | later := List.mem_cons.mp member
        · exact .inl rfl
        · exact .inr (mem_cons_of_mem first later)

theorem mem_replace_iff (new : ∀ other ∈ entries, rank other.1 ≠ rank value.1) :
    entry ∈ replace rank entries value ↔ entry = value ∨ entry ∈ entries := by
  induction entries with
  | nil => simp [replace]
  | cons first rest ih =>
    obtain ⟨different, newRest⟩ := List.forall_mem_cons.mp new
    rw [replace]
    split
    · rw [mem_cons]
    · rename_i notBelow
      split
      · rw [mem_cons, ih newRest, mem_cons]
        exact or_left_comm
      · rename_i notAbove
        exact absurd (le_antisymm (not_lt.mp notBelow) (not_lt.mp notAbove)) different

theorem mem_of_mem_insert (member : entry ∈ insert rank entries value) : entry = value ∨ entry ∈ entries := by
  induction entries with
  | nil => exact .inl (List.mem_singleton.mp member)
  | cons first rest ih =>
    rw [insert] at member
    split at member
    · exact List.mem_cons.mp member
    · split at member
      · cases member with
        | head => exact .inr (by simp)
        | tail _ later => exact (ih later).imp_right (mem_cons_of_mem first)
      · exact .inr member

theorem Sorted.insert (sorted : Sorted rank entries) : Sorted rank (ImmutableMap.insert rank entries value) := by
  induction entries with
  | nil => exact pairwise_singleton _ _
  | cons first rest ih =>
    obtain ⟨below, sortedRest⟩ := pairwise_cons.mp sorted
    rw [ImmutableMap.insert]
    split
    · rename_i before
      refine pairwise_cons.mpr ⟨fun other member => ?_, sorted⟩
      cases member with
      | head => exact before
      | tail _ later => exact lt_trans before (below other later)
    · split
      · rename_i after
        refine pairwise_cons.mpr ⟨fun other member => ?_, ih sortedRest⟩
        obtain rfl | old := mem_of_mem_insert member
        · exact after
        · exact below other old
      · exact sorted

theorem Sorted.mem_insert_iff (sorted : Sorted rank entries) :
    entry ∈ ImmutableMap.insert rank entries value ↔
      entry ∈ entries ∨ entry = value ∧ ∀ other ∈ entries, rank other.1 ≠ rank value.1 := by
  induction entries with
  | nil => simp [ImmutableMap.insert]
  | cons first rest ih =>
    obtain ⟨below, sortedRest⟩ := pairwise_cons.mp sorted
    rw [ImmutableMap.insert]
    split
    · rename_i before
      have new : ∀ other ∈ first :: rest, rank other.1 ≠ rank value.1 := by
        intro other member
        cases member with
        | head => exact ne_of_gt before
        | tail _ later => exact ne_of_gt (lt_trans before (below other later))
      rw [mem_cons, and_iff_left new]
      exact or_comm
    · rename_i notBefore
      split
      · rename_i after
        rw [mem_cons, ih sortedRest, mem_cons, forall_mem_cons, and_iff_right (ne_of_lt after), or_assoc]
      · rename_i notAfter
        have present : ¬ ∀ other ∈ first :: rest, rank other.1 ≠ rank value.1 := by
          intro new
          exact new first (by simp) (le_antisymm (not_lt.mp notBefore) (not_lt.mp notAfter))
        rw [or_iff_left fun both => present both.2]

theorem mem_of_mem_remove (member : entry ∈ remove rank entries key) : entry ∈ entries :=
  (mem_filter.mp member).1

theorem lookup_mem (found : lookup rank entries key = some entry) : entry ∈ entries :=
  mem_of_find?_eq_some found

theorem lookup_replace_self : lookup rank (replace rank entries value) (rank value.1) = some value := by
  induction entries with
  | nil => simp [replace, lookup]
  | cons first rest ih =>
    rw [replace]
    split
    · simp [lookup]
    · split
      · rename_i below
        rw [lookup, find?_cons_of_neg (by simpa using ne_of_lt below)]
        exact ih
      · simp [lookup]

theorem lookup_replace_ne (different : key ≠ rank value.1) : lookup rank (replace rank entries value) key = lookup rank entries key := by
  induction entries with
  | nil => simpa [replace, lookup] using different.symm
  | cons first rest ih =>
    rw [replace]
    split
    · rw [lookup, find?_cons_of_neg (by simpa using different.symm)]
      rfl
    · rename_i notBelow
      split
      · rw [lookup, lookup, find?_cons, find?_cons]
        split
        · rfl
        · exact ih
      · rename_i notAbove
        have same : rank first.1 = rank value.1 := le_antisymm (not_lt.mp notBelow) (not_lt.mp notAbove)
        rw [lookup, lookup, find?_cons_of_neg (by simpa using different.symm), find?_cons_of_neg (by simpa [same] using different.symm)]

end NeuroMerge.ImmutableMap
