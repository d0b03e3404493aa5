import Mathlib.Data.Finset.Card
import Mathlib.Data.List.Nodup
import Mathlib.Data.List.Range

/-!
# Keeping the elements at some places of a list

When the elements at the other places are dropped, an element that is kept moves to the
place given by the number of those kept before it. It stays where it was if all elements
before it are kept.
-/

namespace NeuroMerge.Places

open List

variable {α : Type} (kept : Nat → Bool)

def below (n : Nat) : List Nat :=
  (List.range n).filter kept

def select (elements : List α) : List α :=
  (elements.zipIdx.filter fun entry => kept entry.2).map Prod.fst

variable {n i : Nat}

@[simp] theorem mem_below {kept : Nat → Bool} : i ∈ below kept n ↔ i < n ∧ kept i = true := by
  simp [below]

theorem nodup_below (n : Nat) : (below kept n).Nodup :=
  nodup_range.filter _

theorem below_succ (n : Nat) : below kept (n + 1) = below kept n ++ [n].filter kept := by
  rw [below, range_succ, filter_append]
  rfl

theorem map_snd_filter_zipIdx (elements : List α) :
    (elements.zipIdx.filter fun entry => kept entry.2).map Prod.snd = below kept elements.length := by
  induction elements using List.reverseRecOn with
  | nil => rfl
  | append_singleton elements last ih =>
    rw [zipIdx_append, filter_append, map_append, ih, length_append, length_singleton, below_succ]
    cases keep : kept elements.length with
    | false => simp [keep]
    | true => simp [keep]

theorem forall₂_filter_zipIdx (elements : List α) :
    List.Forall₂ (fun i entry => entry.2 = i ∧ elements[i]? = some entry.1)
      (below kept elements.length) (elements.zipIdx.filter fun entry => kept entry.2) := by
  rw [← map_snd_filter_zipIdx, forall₂_map_left_iff, forall₂_same]
  intro entry member
  exact ⟨rfl, mem_zipIdx_iff_getElem?.mp (mem_of_mem_filter member)⟩

theorem forall₂_select (elements : List α) :
    List.Forall₂ (fun i element => elements[i]? = some element) (below kept elements.length) (select kept elements) := by
  rw [select, forall₂_map_right_iff]
  exact (forall₂_filter_zipIdx kept elements).imp fun _ _ found => found.2

theorem getElem?_select (elements : List α) (k : Nat) :
    (select kept elements)[k]? = (below kept elements.length)[k]?.bind fun i => elements[i]? := by
  have related := forall₂_select kept elements
  generalize below kept elements.length = places at related ⊢
  generalize select kept elements = chosen at related ⊢
  induction related generalizing k with
  | nil => rfl
  | cons found _ ih =>
    cases k with
    | zero => simp [found]
    | succ k => simpa using ih k

variable {elements : List α}

theorem mem_select {element : α} : element ∈ select kept elements ↔ ∃ i, kept i = true ∧ elements[i]? = some element := by
  constructor
  · intro member
    obtain ⟨entry, found, rfl⟩ := mem_map.mp member
    exact ⟨entry.2, (mem_filter.mp found).2, mem_zipIdx_iff_getElem?.mp (mem_of_mem_filter found)⟩
  · rintro ⟨i, keep, found⟩
    exact mem_map.mpr ⟨(element, i), mem_filter.mpr ⟨mem_zipIdx_iff_getElem?.mpr found, keep⟩, rfl⟩

theorem getElem?_below (lt : i < n) (keep : kept i = true) : (below kept n)[(below kept i).length]? = some i := by
  obtain ⟨rest, rfl⟩ := Nat.exists_eq_add_of_lt lt
  have cut : below kept (i + rest + 1) = below kept i ++ i :: ((List.range rest).map (i + 1 + ·)).filter kept := by
    rw [below, Nat.add_assoc, Nat.add_comm rest 1, ← Nat.add_assoc, range_add,
      range_succ, append_assoc, filter_append, singleton_append, filter_cons_of_pos keep]
    rfl
  rw [cut, getElem?_append_right (le_refl _), Nat.sub_self]
  rfl

theorem getElem?_below_eq_self_iff (lt : i < n) (keep : kept i = true) : (below kept n)[i]? = some i ↔ ∀ j < i, kept j = true := by
  have ranked := getElem?_below kept lt keep
  have same : (below kept n)[i]? = some i ↔ (below kept i).length = i := by
    constructor
    · intro stays
      obtain ⟨bound, -⟩ := List.getElem?_eq_some_iff.mp ranked
      exact (getElem?_inj bound (nodup_below kept n)).mp (ranked.trans stays.symm)
    · intro length
      rw [length] at ranked
      exact ranked
  have length : (List.range i).length = i := length_range
  rw [same]
  constructor
  · intro all j before
    exact length_filter_eq_length_iff.mp (all.trans length.symm) j (mem_range.mpr before)
  · intro all
    rw [below, length_filter_eq_length_iff.mpr fun j member => all j (mem_range.mp member), length]

theorem length_select (elements : List α) : (select kept elements).length = (below kept elements.length).length := by
  rw [← map_snd_filter_zipIdx, length_map, select, length_map]

/-- If the places that are kept are all places of the selection, none is dropped before them. -/
theorem initial_of_lt_length (all : ∀ i, kept i = true → i < (select kept elements).length) (keep : kept i = true) :
    ∀ j < i, kept j = true := by
  intro j before
  have within : (below kept elements.length).toFinset ⊆ Finset.range (select kept elements).length := by
    intro k member
    rw [mem_toFinset, mem_below] at member
    exact Finset.mem_range.mpr (all k member.2)
  have count : (below kept elements.length).toFinset.card = (select kept elements).length := by
    rw [toFinset_card_of_nodup (nodup_below kept _), length_select]
  have whole := Finset.eq_of_subset_of_card_le within (by rw [Finset.card_range, count])
  have member : j ∈ (below kept elements.length).toFinset := by
    rw [whole, Finset.mem_range]
    exact lt_trans before (all i keep)
  exact (mem_below.mp (mem_toFinset.mp member)).2

theorem getElem?_select_of_initial (bound : i < elements.length) (keep : kept i = true)
    (initial : ∀ j < i, kept j = true) : (select kept elements)[i]? = elements[i]? := by
  rw [getElem?_select, (getElem?_below_eq_self_iff kept bound keep).mpr initial]
  rfl

theorem forall₂_filterMap {β : Type} (f : α → Option β) (elements : List α) :
    List.Forall₂ (fun a b => f a = some b) (elements.filter fun a => (f a).isSome) (elements.filterMap f) := by
  induction elements with
  | nil => exact .nil
  | cons first elements ih =>
    cases image : f first with
    | none =>
      simpa [image] using ih
    | some b =>
      simpa [image] using ih

section Lookup

variable {κ : Type} [DecidableEq κ]

theorem lookup_zipIdx (keys : List κ) (key : κ) (n : Nat) : (keys.zipIdx n).lookup key = (keys.idxOf? key).map (· + n) := by
  induction keys generalizing n with
  | nil => rfl
  | cons first keys ih =>
    rw [zipIdx_cons, List.lookup_cons, idxOf?_cons, ih]
    cases same : key == first with
    | true =>
      have eq : first = key := (beq_iff_eq.mp same).symm
      simp [eq]
    | false =>
      have other : ¬ first = key := fun eq => beq_eq_false_iff_ne.mp same eq.symm
      cases keys.idxOf? key with
      | none => simp [other]
      | some k => simp [other, Nat.add_assoc, Nat.add_comm 1 n]

theorem lookup_zipIdx_eq_some_iff {keys : List κ} (nodup : keys.Nodup) {key : κ} {k : Nat} :
    keys.zipIdx.lookup key = some k ↔ keys[k]? = some key := by
  rw [lookup_zipIdx]
  simp only [Nat.add_zero, Option.map_id']
  rw [idxOf?_eq_some_iff]
  constructor
  · rintro ⟨bound, found, -⟩
    rw [getElem?_eq_getElem bound, found]
  · intro found
    obtain ⟨bound, rfl⟩ := List.getElem?_eq_some_iff.mp found
    refine ⟨bound, rfl, ?_⟩
    intro j before same
    exact absurd ((nodup.getElem_inj_iff).mp same) (Nat.ne_of_lt before)

end Lookup

end NeuroMerge.Places
