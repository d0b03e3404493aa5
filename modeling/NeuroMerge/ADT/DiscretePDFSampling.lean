import Mathlib.Algebra.Order.BigOperators.Group.Finset
import NeuroMerge.ADT.DiscretePDFProperties

/-!
# Sampling in proportion

The tree stands for a set of items with weights. After any permitted changes its
links and sums are right, its items are those of the set, and `choose` gives the
item whose interval of cumulative weight the point lies in.
-/

namespace NeuroMerge.DiscretePDF

open List

variable {τ : Type}

/-! ## Cumulative weights of a list -/

def weightOf (items : List (τ × ℚ)) : ℚ := (items.map Prod.snd).sum

@[simp] theorem weightOf_nil : weightOf ([] : List (τ × ℚ)) = 0 := rfl

@[simp] theorem weightOf_cons {item : τ × ℚ} {rest : List (τ × ℚ)} : weightOf (item :: rest) = item.2 + weightOf rest := rfl

@[simp] theorem weightOf_append {first second : List (τ × ℚ)} : weightOf (first ++ second) = weightOf first + weightOf second := by
  simp [weightOf]

def Tree.Totals : Tree τ → Prop
  | .leaf => True
  | .node id left key weight sum right =>
    sum = weightOf (itemsOf (Tree.node id left key weight sum right).entries) ∧
      left.Totals ∧ right.Totals

theorem sum_eq_weightOf {tree : Tree τ} (summed : tree.Summed) : tree.sum = weightOf (itemsOf tree.entries) := by
  induction tree with
  | leaf => rfl
  | node id left key weight sum right leftIH rightIH =>
    obtain ⟨here, leftSummed, rightSummed⟩ := summed
    rw [Tree.sum, here, leftIH leftSummed, rightIH rightSummed]
    simp only [Tree.entries, itemsOf_append, itemsOf_cons, weightOf_append, weightOf_cons]
    ring

theorem totals_of_summed {tree : Tree τ} (summed : tree.Summed) : tree.Totals := by
  induction tree with
  | leaf => trivial
  | node id left key weight sum right leftIH rightIH =>
    exact ⟨sum_eq_weightOf summed, leftIH summed.2.1, rightIH summed.2.2⟩

/-- The item is the one whose interval has the point, if any has. -/
def Covers (items : List (τ × ℚ)) (w : ℚ) (item : τ) : Prop :=
  ∃ before weight after, items = before ++ (item, weight) :: after ∧
    (w < weightOf items → weightOf before ≤ w ∧ w < weightOf before + weight)

section Covers

variable {first second : List (τ × ℚ)} {w : ℚ} {item : τ}

theorem Covers.in_first (covers : Covers first w item) (inside : w < weightOf first) : Covers (first ++ second) w item := by
  obtain ⟨before, weight, after, rfl, interval⟩ := covers
  refine ⟨before, weight, after ++ second, by simp, fun _ => interval inside⟩

theorem Covers.in_second (covers : Covers second (w - weightOf first) item) : Covers (first ++ second) w item := by
  obtain ⟨before, weight, after, rfl, interval⟩ := covers
  refine ⟨first ++ before, weight, after, by simp, fun inside => ?_⟩
  rw [weightOf_append] at inside
  obtain ⟨lower, upper⟩ := interval (by linarith)
  rw [weightOf_append]
  constructor
  · linarith
  · linarith

theorem covers_head {weight : ℚ} (start : 0 ≤ w) (inside : w < weight + weightOf second → w < weight) :
    Covers ((item, weight) :: second) w item := by
  refine ⟨[], weight, second, rfl, fun below => ⟨start, ?_⟩⟩
  have within := inside (by simpa using below)
  simpa using within

end Covers

/-! ## The loop of `choose` -/

section Choose

variable {pdf : PDF τ} {marks : Nat → Bool} {parent : Ptr} {tree left right : Tree τ} {n : Nat} {key : τ} {weight sum w : ℚ}

theorem chooseHere_spec {node : Node τ} (start : 0 ≤ w)
    (itsKey : node.key = key) (itsWeight : node.weight = weight) (itsRight : node.right = right.ptr)
    (onRight : ∀ m, right.ptr = some m → 0 ≤ w - weight →
      ∃ item, Returns (fun fuel => pdf.chooseFrom fuel m (w - weight)) item ∧
        Covers (itemsOf right.entries) (w - weight) item) :
    ∃ item, Returns (fun fuel => PDF.chooseHere node w (pdf.chooseFrom fuel)) item ∧
      Covers ((key, weight) :: itemsOf right.entries) w item := by
  by_cases here : w < weight
  · refine ⟨key, .of_eq fun fuel => ?_, covers_head start fun _ => here⟩
    rw [PDF.chooseHere, itsWeight, if_pos here, itsKey]
    rfl
  · cases root : right.ptr with
    | none =>
      have empty : right = .leaf := by
        cases right with
        | leaf => rfl
        | node => cases root
      refine ⟨key, .of_eq fun fuel => ?_, covers_head start fun below => ?_⟩
      · rw [PDF.chooseHere, itsWeight, if_neg here, itsRight, root, itsKey]
        rfl
      · rw [empty] at below
        simpa [Tree.entries] using below
    | some m =>
      obtain ⟨item, returns, covers⟩ := onRight m root (by linarith)
      refine ⟨item, .congr (fun fuel => ?_) returns, ?_⟩
      · rw [PDF.chooseHere, itsWeight, if_neg here, itsRight, root]
      · have shifted : Covers (itemsOf right.entries) (w - weightOf [(key, weight)]) item := by
          simpa using covers
        exact shifted.in_second

theorem chooseFrom_succ {id : Nat} {left right : Tree τ} {key : τ} {weight sum : ℚ}
    (holds : Holds pdf marks parent (.node id left key weight sum right)) (fuel : Nat) :
    pdf.chooseFrom (fuel + 1) id w =
      match left.ptr with
      | none => PDF.chooseHere ⟨marks id, parent, left.ptr, right.ptr, key, weight, sum⟩ w (pdf.chooseFrom fuel)
      | some l =>
        if w < left.sum then pdf.chooseFrom fuel l w
        else PDF.chooseHere ⟨marks id, parent, left.ptr, right.ptr, key, weight, sum⟩
          (w - left.sum) (pdf.chooseFrom fuel) := by
  obtain ⟨found, leftHolds, _⟩ := holds
  rw [PDF.chooseFrom, get_eq found]
  cases left with
  | leaf => rfl
  | node l lLeft lKey lWeight lSum lRight =>
    simp only [ok_bind, Tree.ptr_node, get_eq leftHolds.1, Tree.sum]
    rfl

theorem chooseFrom_spec (holds : Holds pdf marks parent tree) (summed : tree.Summed) (root : tree.ptr = some n) (start : 0 ≤ w) :
    ∃ item, Returns (fun fuel => pdf.chooseFrom fuel n w) item ∧ Covers (itemsOf tree.entries) w item := by
  induction tree generalizing parent n w with
  | leaf => cases root
  | node id left key weight sum right leftIH rightIH =>
    obtain rfl := Option.some.inj root
    have unfolded := fun w => chooseFrom_succ (w := w) holds
    obtain ⟨found, leftHolds, rightHolds⟩ := holds
    obtain ⟨_, leftSummed, rightSummed⟩ := summed
    have leftSum := sum_eq_weightOf leftSummed
    have split : itemsOf (Tree.node id left key weight sum right).entries =
        itemsOf left.entries ++ (key, weight) :: itemsOf right.entries := by
      simp [Tree.entries]
    rw [split]
    have here : ∀ rest, 0 ≤ rest → ∃ item, Returns (fun fuel =>
        PDF.chooseHere ⟨marks id, parent, left.ptr, right.ptr, key, weight, sum⟩ rest (pdf.chooseFrom fuel)) item ∧
        Covers ((key, weight) :: itemsOf right.entries) rest item := fun rest ahead =>
      chooseHere_spec ahead rfl rfl rfl fun m rightRoot onwards =>
        rightIH rightHolds rightSummed rightRoot onwards
    cases leftRoot : left.ptr with
    | none =>
      have empty : left = .leaf := by
        cases left with
        | leaf => rfl
        | node => cases leftRoot
      obtain ⟨item, returns, covers⟩ := here w start
      refine ⟨item, .succ (.congr (fun fuel => ?_) returns), ?_⟩
      · rw [unfolded, leftRoot]
      · rw [empty]
        exact covers
    | some l =>
      by_cases below : w < left.sum
      · obtain ⟨item, returns, covers⟩ := leftIH leftHolds leftSummed leftRoot start
        refine ⟨item, .succ (.congr (fun fuel => ?_) returns), covers.in_first (leftSum ▸ below)⟩
        simp only [unfolded, leftRoot, if_pos below]
      · obtain ⟨item, returns, covers⟩ := here (w - left.sum) (by linarith)
        refine ⟨item, .succ (.congr (fun fuel => ?_) returns), .in_second (leftSum ▸ covers)⟩
        simp only [unfolded, leftRoot, if_neg below]

end Choose

/-! ## The distribution -/

structure Distribution (τ : Type) where
  items : Finset τ
  weight : τ → ℚ

namespace Distribution

variable [LinearOrder τ]

def initial : Distribution τ := ⟨∅, fun _ => 0⟩

def total (d : Distribution τ) : ℚ := ∑ item ∈ d.items, d.weight item

def before (d : Distribution τ) (item : τ) : ℚ := ∑ other ∈ d.items with other < item, d.weight other

/-- The assertions of the operations, and that no weight is negative. -/
def Permitted (d : Distribution τ) : Event τ → Prop
  | .insert item weight => item ∉ d.items ∧ 0 ≤ weight
  | .update item weight => item ∈ d.items ∧ 0 ≤ weight
  | .remove item => item ∈ d.items

def apply (d : Distribution τ) : Event τ → Distribution τ
  | .insert item weight => ⟨insert item d.items, Function.update d.weight item weight⟩
  | .update item weight => ⟨d.items, Function.update d.weight item weight⟩
  | .remove item => ⟨d.items.erase item, d.weight⟩

def AllPermitted : Distribution τ → List (Event τ) → Prop
  | _, [] => True
  | d, event :: events => d.Permitted event ∧ AllPermitted (d.apply event) events

end Distribution

structure Lists [LinearOrder τ] (items : List (τ × ℚ)) (d : Distribution τ) : Prop where
  sorted : items.Pairwise fun first second => first.1 < second.1
  mem : ∀ item weight, (item, weight) ∈ items ↔ item ∈ d.items ∧ d.weight item = weight
  nonneg : ∀ item ∈ d.items, 0 ≤ d.weight item

section Lists

variable [LinearOrder τ] {items first second : List (τ × ℚ)} {d : Distribution τ} {item : τ} {weight old : ℚ}

theorem others_of_sorted
    (sorted : (first ++ (item, weight) :: second).Pairwise fun first second => first.1 < second.1) :
    ∀ entry ∈ first ++ second, entry.1 ≠ item := by
  obtain ⟨_, later, between⟩ := pairwise_append.mp sorted
  intro entry member
  cases List.mem_append.mp member with
  | inl inFirst => exact (between entry inFirst _ mem_cons_self).ne
  | inr inSecond => exact ((pairwise_cons.mp later).1 entry inSecond).ne'

theorem Lists.insert (lists : Lists (first ++ second) d)
    (sorted : (first ++ (item, weight) :: second).Pairwise fun first second => first.1 < second.1) (nonneg : 0 ≤ weight) :
    Lists (first ++ (item, weight) :: second) (d.apply (.insert item weight)) := by
  have others := others_of_sorted sorted
  refine ⟨sorted, fun other itsWeight => ?_, fun other member => ?_⟩
  · have kept := lists.mem other itsWeight
    have absent := others (other, itsWeight)
    simp only [mem_append, mem_cons, Distribution.apply, Finset.mem_insert, Function.update_apply, Prod.mk.injEq] at kept absent ⊢
    grind
  · have kept := lists.nonneg other
    simp only [Distribution.apply, Finset.mem_insert, Function.update_apply] at member ⊢
    grind

theorem Lists.update (lists : Lists (first ++ (item, old) :: second) d)
    (sorted : (first ++ (item, weight) :: second).Pairwise fun first second => first.1 < second.1) (nonneg : 0 ≤ weight) :
    Lists (first ++ (item, weight) :: second) (d.apply (.update item weight)) := by
  have others := others_of_sorted sorted
  have present := ((lists.mem item old).mp (by simp)).1
  refine ⟨sorted, fun other itsWeight => ?_, fun other member => ?_⟩
  · have kept := lists.mem other itsWeight
    have absent := others (other, itsWeight)
    simp only [mem_append, mem_cons, Distribution.apply, Function.update_apply, Prod.mk.injEq] at kept absent ⊢
    grind
  · have kept := lists.nonneg other member
    simp only [Distribution.apply, Function.update_apply] at member ⊢
    grind

theorem Lists.remove (lists : Lists (first ++ (item, weight) :: second) d) : Lists (first ++ second) (d.apply (.remove item)) := by
  have others := others_of_sorted lists.sorted
  refine ⟨lists.sorted.sublist ((List.Sublist.refl _).append (sublist_cons_self _ _)), fun other itsWeight => ?_, fun other member => ?_⟩
  · have kept := lists.mem other itsWeight
    have absent := others (other, itsWeight)
    simp only [mem_append, mem_cons, Distribution.apply, Finset.mem_erase, Prod.mk.injEq] at kept absent ⊢
    grind
  · exact lists.nonneg other (Finset.mem_of_mem_erase member)

theorem Lists.sum_eq (lists : Lists items d) {part : List (τ × ℚ)} (within : part.Sublist items) :
    ∑ item ∈ (part.map Prod.fst).toFinset, d.weight item = weightOf part := by
  have distinct : (part.map Prod.fst).Nodup := (pairwise_map.mpr (lists.sorted.imp ne_of_lt)).sublist (within.map Prod.fst)
  rw [sum_toFinset _ distinct, weightOf, map_map]
  refine congrArg List.sum (map_congr_left fun entry member => ?_)
  exact ((lists.mem entry.1 entry.2).mp (within.subset member)).2

theorem Lists.total_eq (lists : Lists items d) : d.total = weightOf items := by
  rw [← lists.sum_eq (.refl _), Distribution.total]
  refine Finset.sum_congr (Finset.ext fun item => ?_) fun _ _ => rfl
  simp [lists.mem]

theorem Lists.before_eq (lists : Lists (first ++ (item, weight) :: second) d) : d.before item = weightOf first := by
  rw [← lists.sum_eq (sublist_append_left first _), Distribution.before]
  refine Finset.sum_congr (Finset.ext fun other => ?_) fun _ _ => rfl
  obtain ⟨_, later, between⟩ := pairwise_append.mp lists.sorted
  have after := (pairwise_cons.mp later).1
  have members := lists.mem other (d.weight other)
  simp only [mem_append, mem_cons, Prod.mk.injEq, and_true] at members
  simp only [Finset.mem_filter, mem_toFinset, mem_map, Prod.exists, exists_and_right, exists_eq_right]
  constructor
  · rintro ⟨inItems, less⟩
    rcases members.mpr inItems with inFirst | ⟨same, _⟩ | inSecond
    · exact ⟨_, inFirst⟩
    · exact absurd less (same ▸ lt_irrefl _)
    · exact absurd less (after _ inSecond).not_gt
  · rintro ⟨itsWeight, inFirst⟩
    refine ⟨((lists.mem other itsWeight).mp (mem_append_left _ inFirst)).1, ?_⟩
    exact between _ inFirst _ mem_cons_self

end Lists

/-! ## Runs -/

structure Represents [LinearOrder τ] (pdf : PDF τ) (d : Distribution τ) : Prop where
  tree : ∃ marks tree, pdf.root = tree.ptr ∧ Holds pdf marks none tree ∧
    (idsOf tree.entries).Nodup ∧ Sorted tree.entries ∧ tree.Totals ∧
    ∀ item weight, (item, weight) ∈ itemsOf tree.entries ↔ item ∈ d.items ∧ d.weight item = weight
  inTree : ∀ item, Returns (fun fuel => pdf.inTree fuel item) (decide (item ∈ d.items))
  getWeight : ∀ item ∈ d.items, Returns (fun fuel => pdf.getWeight fuel item) (d.weight item)
  choose : ∀ p, 0 ≤ p → p < 1 → 0 < d.total → ∃ item ∈ d.items,
    Returns (fun fuel => pdf.choose fuel p) item ∧ d.before item ≤ p * d.total ∧
      p * d.total < d.before item + d.weight item ∧ 0 < d.weight item
  chooseAny : ∀ p, 0 ≤ p → p < 1 → d.items.Nonempty →
    ∃ item ∈ d.items, Returns (fun fuel => pdf.choose fuel p) item

def Tracks [LinearOrder τ] (pdf : PDF τ) (d : Distribution τ) : Prop :=
  ∃ marks tree, Sound pdf marks tree ∧ Lists (itemsOf tree.entries) d

section Runs

variable [LinearOrder τ] {pdf : PDF τ} {d : Distribution τ} {event : Event τ} {item : τ} {marks : Nat → Bool} {tree : Tree τ}

theorem Sound.sortedItems (sound : Sound pdf marks tree) : (itemsOf tree.entries).Pairwise fun first second => first.1 < second.1 :=
  pairwise_map.mpr sound.sorted

theorem Lists.mem_items (lists : Lists (itemsOf tree.entries) d) : item ∈ d.items ↔ ∃ entry ∈ tree.entries, entry.2.1 = item := by
  constructor
  · intro member
    obtain ⟨entry, inTree, same⟩ := List.mem_map.mp ((lists.mem item _).mpr ⟨member, rfl⟩)
    exact ⟨entry, inTree, congrArg Prod.fst same⟩
  · rintro ⟨entry, inTree, rfl⟩
    exact ((lists.mem entry.2.1 entry.2.2).mp (mem_map_of_mem inTree)).1

theorem initial_tracks : Tracks PDF.initial (Distribution.initial : Distribution τ) := by
  refine ⟨fun _ => false, .leaf, ⟨⟨⟨rfl, trivial, nodup_nil, nofun⟩, nofun, nofun⟩, trivial, .nil⟩, .nil, ?_, ?_⟩
  · simp [Tree.entries, Distribution.initial]
  · simp [Distribution.initial]

theorem Tracks.step (tracks : Tracks pdf d) (permitted : d.Permitted event) :
    ∃ next, Returns (fun fuel => pdf.step fuel event) next ∧ Tracks next (d.apply event) := by
  obtain ⟨marks, tree, sound, lists⟩ := tracks
  cases event with
  | insert item weight =>
    obtain ⟨absent, nonneg⟩ := permitted
    obtain ⟨next, newMarks, newTree, first, second, returns, newSound, items, newItems⟩ :=
      insert_spec sound (fun entry member same => absent (lists.mem_items.mpr ⟨entry, member, same⟩)) weight
    refine ⟨next, returns, newMarks, newTree, newSound, ?_⟩
    rw [newItems]
    exact (items ▸ lists).insert (newItems ▸ newSound.sortedItems) nonneg
  | update item weight =>
    obtain ⟨present, nonneg⟩ := permitted
    obtain ⟨next, newTree, first, old, second, returns, newSound, items, newItems⟩ :=
      update_spec sound (lists.mem_items.mp present) weight
    refine ⟨next, returns, marks, newTree, newSound, ?_⟩
    rw [newItems]
    exact (items ▸ lists).update (newItems ▸ newSound.sortedItems) nonneg
  | remove item =>
    obtain ⟨next, newMarks, newTree, first, weight, second, returns, newSound, items, newItems⟩ :=
      remove_spec sound (lists.mem_items.mp permitted)
    refine ⟨next, returns, newMarks, newTree, newSound, ?_⟩
    rw [newItems]
    exact (items ▸ lists).remove

theorem Tracks.run {events : List (Event τ)} (tracks : Tracks pdf d) (permitted : d.AllPermitted events) :
    ∃ next, Returns (fun fuel => events.foldlM (PDF.step fuel) pdf) next ∧ Tracks next (events.foldl Distribution.apply d) := by
  induction events generalizing pdf d with
  | nil => exact ⟨pdf, .of_eq fun fuel => rfl, tracks⟩
  | cons event events ih =>
    obtain ⟨middle, steps, tracksMiddle⟩ := tracks.step permitted.1
    obtain ⟨next, runs, tracksNext⟩ := ih tracksMiddle permitted.2
    exact ⟨next, .congr (fun fuel => foldlM_cons) (steps.bind runs), tracksNext⟩

theorem Lists.total_nonneg {items : List (τ × ℚ)} (lists : Lists items d) : 0 ≤ d.total :=
  Finset.sum_nonneg lists.nonneg

theorem Sound.choose {p : ℚ} (sound : Sound pdf marks tree) (lists : Lists (itemsOf tree.entries) d)
    (start : 0 ≤ p) (below : p < 1) (notEmpty : d.items.Nonempty) :
    ∃ item, Returns (fun fuel => pdf.choose fuel p) item ∧ Covers (itemsOf tree.entries) (p * d.total) item := by
  obtain ⟨member, inItems⟩ := notEmpty
  obtain ⟨entry, inTree, _⟩ := lists.mem_items.mp inItems
  cases tree with
  | leaf => cases inTree
  | node id left key weight sum right =>
    have total : sum = d.total := (sum_eq_weightOf sound.summed).trans lists.total_eq.symm
    obtain ⟨item, returns, covers⟩ := chooseFrom_spec (w := sum * p) sound.steady.its.below
      sound.summed rfl (mul_nonneg (total ▸ lists.total_nonneg) start)
    refine ⟨item, .congr (fun fuel => ?_) returns, ?_⟩
    · have root : pdf.root = some id := sound.steady.its.above
      rw [PDF.choose, if_neg (by simp [start, below]), root]
      simp only [get_eq sound.steady.its.below.1, ok_bind]
    · rw [mul_comm, ← total]
      exact covers

theorem Tracks.represents (tracks : Tracks pdf d) : Represents pdf d := by
  obtain ⟨marks, tree, sound, lists⟩ := tracks
  have its := sound.steady.its
  refine ⟨⟨marks, tree, its.above, its.below, ?_, sound.sorted, totals_of_summed sound.summed,
    lists.mem⟩, fun item => ?_, fun item member => ?_, fun p start below positive => ?_,
    fun p start below notEmpty => ?_⟩
  · have distinct : (idsOf (Path.whole [] tree)).Nodup := its.distinct
    rwa [whole_root] at distinct
  · obtain ⟨path, found, looks, _, _, _, whole, result⟩ := lookup_spec sound item
    have isThere : decide (item ∈ d.items) = found.ptr.isSome := by
      rcases result with ⟨rfl, absent⟩ | ⟨n, left, weight, sum, right, rfl⟩
      · refine decide_eq_false fun member => ?_
        obtain ⟨entry, inTree, same⟩ := lists.mem_items.mp member
        exact absent entry inTree same
      · refine decide_eq_true (lists.mem_items.mpr ⟨(n, item, weight), ?_, rfl⟩)
        rw [← whole, entries_plug]
        simp [Tree.entries]
    rw [isThere]
    exact looks.bind (.of_eq fun fuel => rfl)
  · obtain ⟨path, found, looks, itsFound, _, _, whole, result⟩ := lookup_spec sound item
    rcases result with ⟨rfl, absent⟩ | ⟨n, left, weight, sum, right, rfl⟩
    · obtain ⟨entry, inTree, same⟩ := lists.mem_items.mp member
      exact absurd same (absent entry inTree)
    · have inItems : (item, weight) ∈ itemsOf tree.entries := by
        rw [← whole, entries_plug]
        simp [Tree.entries]
      rw [((lists.mem item weight).mp inItems).2]
      refine looks.bind (.of_eq fun fuel => ?_)
      simp only [Tree.ptr_node, get_eq itsFound.below.1]
      rfl
  · have notEmpty : d.items.Nonempty := by
      refine Finset.nonempty_iff_ne_empty.mpr fun empty => ?_
      rw [Distribution.total, empty, Finset.sum_empty] at positive
      exact lt_irrefl _ positive
    obtain ⟨item, returns, before, weight, after, items, interval⟩ := sound.choose lists start below notEmpty
    rw [items] at lists interval
    have inside : p * d.total < d.total := mul_lt_of_lt_one_left positive below
    obtain ⟨lower, upper⟩ := interval (lists.total_eq ▸ inside)
    obtain ⟨member, itsWeight⟩ := (lists.mem item weight).mp (by simp)
    rw [← lists.before_eq] at lower upper
    rw [← itsWeight] at upper
    exact ⟨item, member, returns, lower, upper, by linarith⟩
  · obtain ⟨item, returns, before, weight, after, items, _⟩ := sound.choose lists start below notEmpty
    exact ⟨item, ((lists.mem item weight).mp (by simp [items])).1, returns⟩

/-- After any permitted changes the sums are right, the items are the current ones, and the
samples are in proportion. -/
theorem distribution_represented {events : List (Event τ)}
    (permitted : Distribution.initial.AllPermitted events) :
    ∃ pdf, Returns (fun fuel => events.foldlM (PDF.step fuel) PDF.initial) pdf ∧
      Represents pdf (events.foldl Distribution.apply Distribution.initial) := by
  obtain ⟨pdf, runs, tracks⟩ := initial_tracks.run permitted
  exact ⟨pdf, runs, tracks.represents⟩

end Runs

theorem threeChanges_represented :
    ∃ pdf : PDF Nat, Returns (fun fuel => List.foldlM (PDF.step fuel) PDF.initial
        [.insert 3 2, .insert 5 1, .update 3 0, .insert 4 7, .remove 3]) pdf ∧
      Represents pdf (List.foldl Distribution.apply Distribution.initial
        [.insert 3 2, .insert 5 1, .update 3 0, .insert 4 7, .remove 3]) := by
  refine distribution_represented ?_
  simp [Distribution.AllPermitted, Distribution.Permitted, Distribution.apply, Distribution.initial]

end NeuroMerge.DiscretePDF
