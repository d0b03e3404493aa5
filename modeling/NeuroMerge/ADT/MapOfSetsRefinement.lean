import NeuroMerge.ADT.MapOfSetsIteration

/-!
# A tree as a map from sets

`MapOfSets` is a tree in order. It behaves as the function that gives every set the value
that was last inserted for it.
-/

namespace NeuroMerge

open MapOfSets

structure MapOfSets (κ ν : Type) [LinearOrder κ] where
  root : Node κ ν
  ordered : root.Ordered ⊥

namespace MapOfSets

variable {κ ν : Type} [LinearOrder κ]

section Operations

def empty [Inhabited ν] : MapOfSets κ ν := ⟨.empty, trivial⟩

def insert [Inhabited ν] (map : MapOfSets κ ν) (set : Finset κ) (value : ν) : MapOfSets κ ν where
  root := map.root.insert value set.sort
  ordered := Node.ordered_insert value map.ordered set.sortedLT_sort.pairwise
    fun _ _ => WithBot.bot_lt_coe _

def lookup (map : MapOfSets κ ν) (set : Finset κ) : Option ν := map.root.lookup set.sort

def subsets (map : MapOfSets κ ν) (set : Finset κ) : List (Finset κ × ν) :=
  map.root.findSubsets ∅ set.sort

def supersets (map : MapOfSets κ ν) (set : Finset κ) : List (Finset κ × ν) :=
  map.root.findSupersets ∅ set.sort

def findSubset (map : MapOfSets κ ν) (set : Finset κ) (p : ν → Bool) : Option ν :=
  map.root.findSubset p set.sort

def findSuperset (map : MapOfSets κ ν) (set : Finset κ) (p : ν → Bool) : Option ν :=
  map.root.findSuperset p set.sort

def iterate (map : MapOfSets κ ν) (fuel : Nat) : Option (List (Finset κ × ν)) :=
  (Iterator.begin map.root).bind fun it => it.collect fuel

end Operations

section Sorted

theorem sort_toFinset_of_pairwise {set : List κ} (sorted : set.Pairwise (· < ·)) : set.toFinset.sort = set :=
  (List.toFinset_sort _ (sorted.imp ne_of_lt)).mpr (sorted.imp le_of_lt)

theorem sublist_sort_iff {set set' : List κ} (sorted : set.Pairwise (· < ·))
    (sorted' : set'.Pairwise (· < ·)) : set.Sublist set' ↔ set.toFinset ⊆ set'.toFinset := by
  constructor
  · intro sub key member
    exact List.mem_toFinset.mpr (sub.subset (List.mem_toFinset.mp member))
  · intro subset
    have nodup : set.Nodup := sorted.imp ne_of_lt
    have perm : set.Subperm set' := nodup.subperm fun key member =>
      List.mem_toFinset.mp (subset (List.mem_toFinset.mpr member))
    exact List.sublist_of_subperm_of_pairwise perm (sorted.imp le_of_lt) (sorted'.imp le_of_lt)

variable (map : MapOfSets κ ν)

theorem lookup_toFinset {set : List κ} {value : ν} (found : map.root.lookup set = some value) :
    map.lookup set.toFinset = some value ∧ set.Pairwise (· < ·) := by
  have sorted := (Node.pairwise_of_lookup map.ordered found).1
  rw [lookup, sort_toFinset_of_pairwise sorted]
  exact ⟨found, sorted⟩

theorem exists_lookup_iff {within : List κ → Prop} {within' : Finset κ → Prop}
    (same : ∀ set : List κ, set.Pairwise (· < ·) → (within set ↔ within' set.toFinset)) (value : ν) (q : Prop) :
    (∃ set, within set ∧ map.root.lookup set = some value ∧ q) ↔ ∃ set, within' set ∧ map.lookup set = some value ∧ q := by
  constructor
  · intro ⟨set, inside, found, holds⟩
    obtain ⟨stored, sorted⟩ := lookup_toFinset map found
    exact ⟨set.toFinset, (same set sorted).mp inside, stored, holds⟩
  · intro ⟨set, inside, found, holds⟩
    refine ⟨set.sort (· ≤ ·), ?_, found, holds⟩
    rw [same _ set.sortedLT_sort.pairwise, Finset.sort_toFinset]
    exact inside

end Sorted

section Insert

variable [Inhabited ν]

theorem lookup_empty (set : Finset κ) : (empty : MapOfSets κ ν).lookup set = none :=
  Node.lookup_empty _

theorem lookup_insert (map : MapOfSets κ ν) (set : Finset κ) (value : ν) :
    (map.insert set value).lookup = Function.update map.lookup set (some value) := by
  funext other
  rw [lookup, insert, Node.lookup_insert value map.ordered, Function.update_apply]
  have same : other.sort (· ≤ ·) = set.sort (· ≤ ·) ↔ other = set := by
    constructor
    · intro eq
      rw [← other.sort_toFinset (· ≤ ·), eq, Finset.sort_toFinset]
    · intro eq
      rw [eq]
  simp only [same]
  rfl

theorem lookup_insert_self (map : MapOfSets κ ν) (set : Finset κ) (value : ν) : (map.insert set value).lookup set = some value := by
  rw [lookup_insert, Function.update_self]

theorem lookup_insert_of_ne (map : MapOfSets κ ν) {set other : Finset κ} (value : ν)
    (different : other ≠ set) : (map.insert set value).lookup other = map.lookup other := by
  rw [lookup_insert, Function.update_of_ne different]

end Insert

/-- What a map from sets should do, for what is stored. -/
structure Refines (map : MapOfSets κ ν) (stored : Finset κ → Option ν) : Prop where
  lookup : ∀ set, map.lookup set = stored set
  findSubset : ∀ set p, Finds (map.findSubset set p) (fun value =>
    ∃ found ⊆ set, stored found = some value ∧ p value = true)
  findSuperset : ∀ set p, Finds (map.findSuperset set p) (fun value =>
    ∃ found, set ⊆ found ∧ stored found = some value ∧ p value = true)
  subsets : ∀ set, ((map.subsets set).map Prod.fst).Nodup ∧
    ∀ found value, (found, value) ∈ map.subsets set ↔ stored found = some value ∧ found ⊆ set
  supersets : ∀ set, ((map.supersets set).map Prod.fst).Nodup ∧
    ∀ found value, (found, value) ∈ map.supersets set ↔ stored found = some value ∧ set ⊆ found
  iteration : ∃ entries, (∀ fuel, entries.length < fuel → map.iterate fuel = some entries) ∧
    (entries.map Prod.fst).Nodup ∧
    ∀ found value, (found, value) ∈ entries ↔ stored found = some value

section Refinement

variable (map : MapOfSets κ ν)

theorem findSubset_spec (set : Finset κ) (p : ν → Bool) :
    Finds (map.findSubset set p) (fun value => ∃ found ⊆ set, map.lookup found = some value ∧ p value = true) := by
  apply (Node.findSubset_spec p map.ordered set.sortedLT_sort.pairwise).congr
  intro value
  apply exists_lookup_iff map
  intro found sorted
  rw [sublist_sort_iff sorted set.sortedLT_sort.pairwise, Finset.sort_toFinset]

theorem findSuperset_spec (set : Finset κ) (p : ν → Bool) :
    Finds (map.findSuperset set p) (fun value => ∃ found, set ⊆ found ∧ map.lookup found = some value ∧ p value = true) := by
  apply (Node.findSuperset_spec p map.ordered _).congr
  intro value
  apply exists_lookup_iff map
  intro found sorted
  rw [sublist_sort_iff set.sortedLT_sort.pairwise sorted, Finset.sort_toFinset]

theorem subsets_spec (set : Finset κ) :
    ((map.subsets set).map Prod.fst).Nodup ∧
      ∀ found value, (found, value) ∈ map.subsets set ↔ map.lookup found = some value ∧ found ⊆ set := by
  refine ⟨Node.nodup_findSubsets (set.sort_nodup _) map.root, ?_⟩
  intro found value
  rw [subsets, Node.mem_findSubsets]
  simp only [Finset.empty_union]
  constructor
  · intro ⟨list, sub, here, eq⟩
    obtain ⟨stored, sorted⟩ := lookup_toFinset map here
    rw [sublist_sort_iff sorted set.sortedLT_sort.pairwise, Finset.sort_toFinset] at sub
    exact eq ▸ ⟨stored, sub⟩
  · intro ⟨stored, subset⟩
    refine ⟨found.sort (· ≤ ·), ?_, stored, (Finset.sort_toFinset _ _).symm⟩
    rw [sublist_sort_iff found.sortedLT_sort.pairwise set.sortedLT_sort.pairwise, Finset.sort_toFinset, Finset.sort_toFinset]
    exact subset

theorem mem_map_asSet {entries : List (List κ × ν)} (sub : ∀ entry ∈ entries, entry ∈ map.root.entries)
    {found : Finset κ} {value : ν} : (found, value) ∈ entries.map asSet ↔ (found.sort, value) ∈ entries := by
  rw [List.mem_map]
  constructor
  · intro ⟨entry, member, same⟩
    have sorted := (Node.pairwise_of_lookup map.ordered ((Node.mem_entries map.ordered).mp (sub entry member))).1
    cases same
    rw [sort_toFinset_of_pairwise sorted]
    exact member
  · intro member
    exact ⟨_, member, by rw [asSet, Finset.sort_toFinset]⟩

theorem nodup_map_asSet {entries : List (List κ × ν)} (sub : entries.Sublist map.root.entries) :
    ((entries.map asSet).map Prod.fst).Nodup := by
  have nodup : (entries.map Prod.fst).Nodup := (Node.nodup_entries map.ordered).sublist (sub.map _)
  have sorted : ∀ set ∈ entries.map Prod.fst, set.Pairwise (· < ·) := by
    intro set member
    obtain ⟨entry, inside, rfl⟩ := List.mem_map.mp member
    exact (Node.pairwise_of_lookup map.ordered ((Node.mem_entries map.ordered).mp (sub.subset inside))).1
  have sets : (entries.map asSet).map Prod.fst = (entries.map Prod.fst).map List.toFinset := by
    rw [List.map_map, List.map_map]
    rfl
  rw [sets]
  apply nodup.map_on
  intro set member set' member' same
  rw [← sort_toFinset_of_pairwise (sorted set member), same, sort_toFinset_of_pairwise (sorted set' member')]

theorem supersets_spec (set : Finset κ) :
    ((map.supersets set).map Prod.fst).Nodup ∧
      ∀ found value, (found, value) ∈ map.supersets set ↔ map.lookup found = some value ∧ set ⊆ found := by
  have eq : map.supersets set = (map.root.entries.filter fun entry => (set.sort (· ≤ ·)).Sublist entry.1).map asSet := by
    rw [supersets, Node.findSupersets_eq map.ordered]
    apply List.map_congr_left
    intro entry _
    rw [reported, Finset.empty_union, asSet]
  rw [eq]
  refine ⟨nodup_map_asSet map (List.filter_sublist), ?_⟩
  intro found value
  rw [mem_map_asSet map fun entry member => List.mem_of_mem_filter member, List.mem_filter,
    Node.mem_entries map.ordered, decide_eq_true_iff,
    sublist_sort_iff set.sortedLT_sort.pairwise found.sortedLT_sort.pairwise,
    Finset.sort_toFinset, Finset.sort_toFinset]
  rfl

theorem iterate_spec :
    ∃ entries, (∀ fuel, entries.length < fuel → map.iterate fuel = some entries) ∧
      (entries.map Prod.fst).Nodup ∧ ∀ found value, (found, value) ∈ entries ↔ map.lookup found = some value := by
  obtain ⟨it, begins, collects⟩ := begin_spec map.ordered
  refine ⟨map.root.entries.map asSet, ?_, nodup_map_asSet map (.refl _), ?_⟩
  · intro fuel enough
    rw [List.length_map] at enough
    rw [iterate, begins]
    exact collects fuel enough
  · intro found value
    rw [mem_map_asSet map fun _ member => member, Node.mem_entries map.ordered]
    rfl

theorem refines_lookup : map.Refines map.lookup where
  lookup _ := rfl
  findSubset := findSubset_spec map
  findSuperset := findSuperset_spec map
  subsets := subsets_spec map
  supersets := supersets_spec map
  iteration := iterate_spec map

end Refinement

section Run

variable [Inhabited ν]

def insertAll (insertions : List (Finset κ × ν)) : MapOfSets κ ν :=
  insertions.foldl (fun map insertion => map.insert insertion.1 insertion.2) empty

def lastInserted (insertions : List (Finset κ × ν)) : Finset κ → Option ν :=
  insertions.foldl (fun stored insertion => Function.update stored insertion.1 (some insertion.2))
    fun _ => none

theorem lookup_insertAll (insertions : List (Finset κ × ν)) : (insertAll insertions).lookup = lastInserted insertions := by
  rw [insertAll, lastInserted]
  have start : (empty : MapOfSets κ ν).lookup = fun _ => none := funext lookup_empty
  generalize (empty : MapOfSets κ ν) = map at start
  generalize (fun _ : Finset κ => (none : Option ν)) = stored at start
  induction insertions generalizing map stored with
  | nil => exact start
  | cons insertion insertions ih =>
    apply ih
    rw [lookup_insert, start]

/-- After any insertions the tree behaves as the map of the last inserted values. -/
theorem insertAll_refines (insertions : List (Finset κ × ν)) :
    (insertAll insertions).Refines (lastInserted insertions) := by
  rw [← lookup_insertAll]
  exact refines_lookup _

end Run

end MapOfSets

end NeuroMerge
