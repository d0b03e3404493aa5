import NeuroMerge.ADT.MapOfSetsProperties

/-!
# Searching the tree

Which sets the searches for subsets and supersets report, in terms of what is found for a
set in the tree.
-/

namespace NeuroMerge.MapOfSets

variable {κ ν : Type} [LinearOrder κ] {lower : WithBot κ}

variable {accum : Finset κ} {node : Node κ ν} {entry : Finset κ × ν} {set : List κ}

section Subsets

theorem Node.mem_report : entry ∈ node.report accum ↔ node.lookup [] = some entry.2 ∧ entry.1 = accum := by
  obtain ⟨set, value⟩ := entry
  rw [Node.report, Node.lookup]
  cases node.stored with
  | none => simp
  | some stored => simp [and_comm, eq_comm]

theorem mem_subsetLoop :
    entry ∈ subsetLoop set node accum ↔ ∃ key rest, (key :: rest).Sublist set ∧
      node.lookup (key :: rest) = some entry.2 ∧ entry.1 = accum ∪ (key :: rest).toFinset := by
  induction set generalizing node accum with
  | nil => simp [subsetLoop]
  | cons elt set ih =>
    have first : entry ∈ (node.children.find elt).elim []
        (fun child => child.report (insert elt accum) ++ subsetLoop set child (insert elt accum)) ↔
        ∃ rest, rest.Sublist set ∧ node.lookup (elt :: rest) = some entry.2 ∧ entry.1 = accum ∪ (elt :: rest).toFinset := by
      simp only [Node.lookup_cons]
      cases node.children.find elt with
      | none => simp
      | some child =>
        have accumulate : ∀ more : List κ, insert elt accum ∪ more.toFinset = accum ∪ (elt :: more).toFinset := by
          intro more
          rw [List.toFinset_cons, Finset.union_insert, Finset.insert_union]
        simp only [Option.elim_some, List.mem_append, Node.mem_report, ih, Option.bind_some, accumulate]
        constructor
        · intro either
          cases either with
          | inl ends => exact ⟨[], List.nil_sublist set, ends.1, by simpa using ends.2⟩
          | inr more =>
            obtain ⟨key, rest, sub, found, same⟩ := more
            exact ⟨key :: rest, sub, found, same⟩
        · intro ⟨rest, sub, found, same⟩
          cases rest with
          | nil => exact .inl ⟨found, by simpa using same⟩
          | cons key rest => exact .inr ⟨key, rest, sub, found, same⟩
    rw [subsetLoop, List.mem_append, first, ih]
    constructor
    · intro either
      cases either with
      | inl here =>
        obtain ⟨rest, sub, found⟩ := here
        exact ⟨elt, rest, sub.cons_cons elt, found⟩
      | inr there =>
        obtain ⟨key, rest, sub, found⟩ := there
        exact ⟨key, rest, sub.cons elt, found⟩
    · intro ⟨key, rest, sub, found⟩
      cases sub with
      | cons _ later => exact .inr ⟨key, rest, later, found⟩
      | cons_cons _ here => exact .inl ⟨rest, here, found⟩

theorem Node.mem_findSubsets :
    entry ∈ node.findSubsets accum set ↔ ∃ found, found.Sublist set ∧
      node.lookup found = some entry.2 ∧ entry.1 = accum ∪ found.toFinset := by
  rw [Node.findSubsets, List.mem_append, Node.mem_report, mem_subsetLoop]
  constructor
  · intro either
    cases either with
    | inl ends => exact ⟨[], List.nil_sublist set, ends.1, by simpa using ends.2⟩
    | inr more =>
      obtain ⟨key, rest, sub, found⟩ := more
      exact ⟨key :: rest, sub, found⟩
  · intro ⟨found, sub, value, same⟩
    cases found with
    | nil => exact .inl ⟨value, by simpa using same⟩
    | cons key rest => exact .inr ⟨key, rest, sub, value, same⟩

omit [LinearOrder κ] in
theorem Node.nodup_report (accum : Finset κ) (node : Node κ ν) : ((node.report accum).map Prod.fst).Nodup := by
  rw [Node.report]
  cases node.stored <;> simp

theorem nodup_subsetLoop (nodup : set.Nodup) (new : ∀ key ∈ set, key ∉ accum) : ((subsetLoop set node accum).map Prod.fst).Nodup := by
  induction set generalizing node accum with
  | nil => exact List.nodup_nil
  | cons elt set ih =>
    obtain ⟨absent, rest⟩ := List.nodup_cons.mp nodup
    have later : ∀ key ∈ set, key ∉ accum := fun key member => new key (List.mem_cons_of_mem _ member)
    have behind : ∀ entry ∈ subsetLoop set node accum, elt ∉ entry.1 := by
      intro entry member inEntry
      obtain ⟨key, found, sub, -, same⟩ := mem_subsetLoop.mp member
      rw [same, Finset.mem_union] at inEntry
      cases inEntry with
      | inl seen => exact new elt List.mem_cons_self seen
      | inr more => exact absent (sub.subset (List.mem_toFinset.mp more))
    rw [subsetLoop, List.map_append, List.nodup_append']
    refine ⟨?_, ih rest later, ?_⟩
    · cases node.children.find elt with
      | none => exact List.nodup_nil
      | some child =>
        have unseen : ∀ key ∈ set, key ∉ insert elt accum := by
          intro key member
          rw [Finset.mem_insert, not_or]
          exact ⟨fun same => absent (same ▸ member), later key member⟩
        rw [Option.elim_some, List.map_append, List.nodup_append']
        refine ⟨Node.nodup_report _ _, ih rest unseen, ?_⟩
        intro found inReport inLoop
        obtain ⟨entry, member, rfl⟩ := List.mem_map.mp inReport
        obtain ⟨entry', member', same⟩ := List.mem_map.mp inLoop
        obtain ⟨key, more, sub, -, has⟩ := mem_subsetLoop.mp member'
        rw [(Node.mem_report.mp member).2] at same
        have inAccum : key ∈ insert elt accum := by
          rw [← same, has]
          simp
        exact unseen key (sub.subset List.mem_cons_self) inAccum
    · intro found inFirst inLater
      obtain ⟨entry', member', rfl⟩ := List.mem_map.mp inLater
      obtain ⟨entry, member, same⟩ := List.mem_map.mp inFirst
      apply behind entry' member'
      rw [← same]
      cases atElt : node.children.find elt with
      | none => simp [atElt] at member
      | some child =>
        rw [atElt] at member
        have inChild : entry ∈ child.findSubsets (insert elt accum) set := member
        obtain ⟨more, -, -, has⟩ := Node.mem_findSubsets.mp inChild
        rw [has]
        simp

theorem Node.nodup_findSubsets (nodup : set.Nodup) (node : Node κ ν) : ((node.findSubsets ∅ set).map Prod.fst).Nodup := by
  rw [Node.findSubsets, List.map_append, List.nodup_append']
  refine ⟨Node.nodup_report _ _, nodup_subsetLoop nodup (by simp), ?_⟩
  intro found inReport inLoop
  obtain ⟨entry, member, rfl⟩ := List.mem_map.mp inReport
  obtain ⟨entry', member', same⟩ := List.mem_map.mp inLoop
  obtain ⟨key, more, -, -, has⟩ := mem_subsetLoop.mp member'
  rw [(Node.mem_report.mp member).2, has] at same
  simp at same

end Subsets

variable {children : Children κ ν}

section Supersets

/-- An entry of the tree, reported for the set that has been followed. -/
def reported (accum : Finset κ) (entry : List κ × ν) : Finset κ × ν :=
  (accum ∪ entry.1.toFinset, entry.2)

theorem reported_cons (accum : Finset κ) (key : κ) (set : List κ) (value : ν) :
    reported accum (key :: set, value) = reported (insert key accum) (set, value) := by
  rw [reported, reported, List.toFinset_cons, Finset.union_insert, Finset.insert_union]

theorem Children.above_of_mem_entries (ordered : children.Ordered lower) {entry : List κ × ν}
    (member : entry ∈ children.entries) : ∀ key ∈ entry.1, lower < (key : WithBot κ) := by
  have node : (Node.mk entry.2 false children).Ordered lower := ordered
  have inNode : (entry.1, entry.2) ∈ (Node.mk entry.2 false children).entries := List.mem_append_right _ member
  exact (Node.pairwise_of_lookup node ((Node.mem_entries node).mp inNode)).2

mutual

theorem Node.findSupersets_eq {node : Node κ ν} {lower : WithBot κ} (ordered : node.Ordered lower) (accum : Finset κ) (set : List κ) :
    node.findSupersets accum set = (node.entries.filter fun entry => set.Sublist entry.1).map (reported accum) := by
  match node, set with
  | .mk value isEndOfSet children, [] =>
    rw [Node.findSupersets, Children.findSupersets_eq ordered, Node.entries, List.filter_append, List.map_append]
    cases isEndOfSet <;> simp [Node.report, Node.stored, reported]
  | .mk value isEndOfSet children, elt :: set =>
    rw [Node.findSupersets, Children.findSupersets_eq ordered, Node.entries, List.filter_append]
    cases isEndOfSet <;> simp

theorem Children.findSupersets_eq {children : Children κ ν} {lower : WithBot κ}
    (ordered : children.Ordered lower) (accum : Finset κ) (set : List κ) :
    children.findSupersets accum set = (children.entries.filter fun entry => set.Sublist entry.1).map (reported accum) := by
  match children, set with
  | .nil, _ => simp [Children.findSupersets, Children.entries]
  | .cons key child rest, [] =>
    rw [Children.findSupersets, Node.findSupersets_eq ordered.2.1,
      Children.findSupersets_eq ordered.2.2.2, Children.entries, List.filter_append,
      List.map_append, List.filter_map, List.map_map]
    simp [Function.comp_def, reported_cons]
  | .cons key child rest, elt :: set =>
    rw [Children.findSupersets, Node.findSupersets_eq ordered.2.1,
      Node.findSupersets_eq ordered.2.1, Children.findSupersets_eq ordered.2.2.2,
      Children.entries, List.filter_append, List.map_append, List.filter_map, List.map_map]
    split
    · rename_i same
      simp [Function.comp_def, reported_cons, same]
    · rename_i differ
      have skips : ∀ found : List κ, (elt :: set).Sublist (key :: found) ↔ (elt :: set).Sublist found := by
        intro found
        rw [List.sublist_cons_iff]
        constructor
        · intro either
          cases either with
          | inl later => exact later
          | inr here =>
            obtain ⟨_, eq, _⟩ := here
            exact absurd (List.cons.inj eq).1 differ
        · exact .inl
      split
      · simp [Function.comp_def, reported_cons, skips]
      · rename_i notBefore
        -- All keys from here on are above the element.
        have beyond : elt < key := lt_of_le_of_ne (not_lt.mp notBefore) differ
        have ofChild : ∀ entry ∈ child.entries, ¬ (elt :: set).Sublist (key :: entry.1) := by
          intro entry member sub
          have sorted := Node.pairwise_of_lookup ordered.2.1 ((Node.mem_entries ordered.2.1).mp member)
          have inEntry := ((skips entry.1).mp sub).subset List.mem_cons_self
          exact lt_asymm beyond (WithBot.coe_lt_coe.mp (sorted.2 elt inEntry))
        have ofRest : ∀ entry ∈ rest.entries, ¬ (elt :: set).Sublist entry.1 := by
          intro entry member sub
          have above := Children.above_of_mem_entries ordered.2.2.2 member
          exact lt_asymm beyond (WithBot.coe_lt_coe.mp (above elt (sub.subset List.mem_cons_self)))
        rw [List.filter_eq_nil_iff.mpr, List.filter_eq_nil_iff.mpr]
        · rfl
        · intro entry member
          simpa using ofRest entry member
        · intro entry member
          simpa using ofChild entry member

end

mutual

theorem Node.nodup_entries {node : Node κ ν} {lower : WithBot κ} (ordered : node.Ordered lower) : (node.entries.map Prod.fst).Nodup := by
  match node with
  | .mk value isEndOfSet children =>
    have others := Children.nodup_entries ordered
    rw [Node.entries, List.map_append, List.nodup_append']
    refine ⟨by cases isEndOfSet <;> simp, others, ?_⟩
    intro set here there
    obtain ⟨entry, member, rfl⟩ := List.mem_map.mp there
    obtain ⟨key, rest, child, same, -⟩ := (Children.mem_entries ordered).mp member
    rw [same] at here
    cases isEndOfSet <;> simp at here

theorem Children.nodup_entries {children : Children κ ν} {lower : WithBot κ}
    (ordered : children.Ordered lower) : (children.entries.map Prod.fst).Nodup := by
  match children with
  | .nil => exact List.nodup_nil
  | .cons key child rest =>
    have first := Node.nodup_entries ordered.2.1
    have others := Children.nodup_entries ordered.2.2.2
    rw [Children.entries, List.map_append, List.nodup_append', List.map_map]
    refine ⟨?_, others, ?_⟩
    · have consed : (Prod.fst ∘ fun entry : List κ × ν => (key :: entry.1, entry.2)) = List.cons key ∘ Prod.fst := rfl
      rw [consed, ← List.map_map]
      exact first.map (List.cons_injective)
    · intro set here there
      obtain ⟨entry, -, rfl⟩ := List.mem_map.mp here
      obtain ⟨entry', member, same⟩ := List.mem_map.mp there
      have above := Children.above_of_mem_entries ordered.2.2.2 member
      rw [same] at above
      exact lt_irrefl _ (above key List.mem_cons_self)

end

end Supersets

section Predicate

def Finds (result : Option ν) (holds : ν → Prop) : Prop :=
  (∀ value, result = some value → holds value) ∧ (result = none → ∀ value, ¬ holds value)

namespace Finds

omit [LinearOrder κ]

variable {result result' : Option ν} {holds holds' : ν → Prop}

theorem congr (finds : Finds result holds) (same : ∀ value, holds value ↔ holds' value) : Finds result holds' := by
  constructor
  · exact fun value found => (same value).mp (finds.1 value found)
  · exact fun missing value has => finds.2 missing value ((same value).mpr has)

theorem or (first : Finds result holds) (second : Finds result' holds') :
    Finds (result.or result') (fun value => holds value ∨ holds' value) := by
  cases result with
  | some found =>
    constructor
    · intro value same
      cases same
      exact .inl (first.1 found rfl)
    · intro missing
      cases missing
  | none =>
    constructor
    · exact fun value found => .inr (second.1 value found)
    · intro missing value either
      cases either with
      | inl here => exact first.2 rfl value here
      | inr there => exact second.2 missing value there

theorem never (never : ∀ value, ¬ holds value) : Finds none holds := by
  constructor
  · intro value found
    cases found
  · exact fun _ => never

theorem stored_or {p : ν → Bool} (value : ν) (isEndOfSet : Bool) (children : Children κ ν) (others : Finds result holds) :
    Finds (if isEndOfSet ∧ p value then some value else result)
      (fun found => ((Node.mk value isEndOfSet children).stored = some found ∧ p found = true) ∨ holds found) := by
  simp only [Node.stored]
  split
  · rename_i here
    constructor
    · intro found same
      cases same
      exact .inl ⟨if_pos here.1, here.2⟩
    · intro missing
      cases missing
  · rename_i notHere
    apply others.congr
    intro other
    constructor
    · exact .inr
    · intro either
      cases either with
      | inr there => exact there
      | inl ends =>
        obtain ⟨same, satisfies⟩ := ends
        split at same
        · rename_i isEnd
          cases same
          exact absurd ⟨isEnd, satisfies⟩ notHere
        · cases same

end Finds

variable (p : ν → Bool)

def Children.Has (children : Children κ ν) (within : List κ → Prop) (value : ν) : Prop :=
  ∃ key rest child, within (key :: rest) ∧ children.find key = some child ∧
    child.lookup rest = some value ∧ p value = true

theorem Children.has_cons {key : κ} {child : Node κ ν} {rest : Children κ ν}
    (ordered : (Children.cons key child rest).Ordered lower) (within : List κ → Prop) (value : ν) :
    (Children.cons key child rest).Has p within value ↔
      (∃ set, within (key :: set) ∧ child.lookup set = some value ∧ p value = true) ∨ rest.Has p within value := by
  constructor
  · intro ⟨other, set, child', inside, found, below⟩
    rw [Children.find] at found
    split at found
    · rename_i same
      subst same
      cases found
      exact .inl ⟨set, inside, below⟩
    · exact .inr ⟨other, set, child', inside, found, below⟩
  · intro either
    cases either with
    | inl here =>
      obtain ⟨set, inside, below⟩ := here
      exact ⟨key, set, child, inside, if_pos rfl, below⟩
    | inr there =>
      obtain ⟨other, set, child', inside, found, below⟩ := there
      exact ⟨other, set, child', inside, Children.find_cons_of_find ordered.2.2.2 found, below⟩

theorem Children.has_congr (ordered : children.Ordered lower) {within within' : List κ → Prop} {value : ν}
    (same : ∀ set : List κ, set.Pairwise (· < ·) → (∀ key ∈ set, lower < (key : WithBot κ)) →
      (within set ↔ within' set)) : children.Has p within value ↔ children.Has p within' value := by
  have sorted : ∀ key rest child, children.find key = some child → child.lookup rest = some value →
      (within (key :: rest) ↔ within' (key :: rest)) := by
    intro key rest child found below
    have node : (Node.mk value false children).Ordered lower := ordered
    have here : (Node.mk value false children).lookup (key :: rest) = some value := by
      exact Option.bind_eq_some_iff.mpr ⟨child, found, below⟩
    obtain ⟨ascends, above⟩ := Node.pairwise_of_lookup node here
    exact same _ ascends above
  constructor
  · intro ⟨key, rest, child, inside, found, below, satisfies⟩
    exact ⟨key, rest, child, (sorted key rest child found below).mp inside, found, below, satisfies⟩
  · intro ⟨key, rest, child, inside, found, below, satisfies⟩
    exact ⟨key, rest, child, (sorted key rest child found below).mpr inside, found, below, satisfies⟩

theorem Node.has_iff (node : Node κ ν) (within : List κ → Prop) (value : ν) :
    (∃ set, within set ∧ node.lookup set = some value ∧ p value = true) ↔
      (node.stored = some value ∧ p value = true) ∧ within [] ∨ node.children.Has p within value := by
  constructor
  · intro ⟨set, inside, found, satisfies⟩
    cases set with
    | nil => exact .inl ⟨⟨found, satisfies⟩, inside⟩
    | cons key rest =>
      obtain ⟨child, atKey, below⟩ := Option.bind_eq_some_iff.mp found
      exact .inr ⟨key, rest, child, inside, atKey, below, satisfies⟩
  · intro either
    cases either with
    | inl here => exact ⟨[], here.2, here.1⟩
    | inr there =>
      obtain ⟨key, rest, child, inside, atKey, below, satisfies⟩ := there
      refine ⟨key :: rest, inside, ?_, satisfies⟩
      exact Option.bind_eq_some_iff.mpr ⟨child, atKey, below⟩

theorem sublist_dropWhile_iff {found : List κ} {key : κ} (above : ∀ other ∈ found, key ≤ other) :
    found.Sublist (set.dropWhile (· < key)) ↔ found.Sublist set := by
  constructor
  · exact fun sub => sub.trans (List.dropWhile_sublist _)
  · intro sub
    induction set with
    | nil => exact sub
    | cons first set ih =>
      rw [List.dropWhile_cons]
      split
      · rename_i before
        apply ih
        cases sub with
        | cons _ later => exact later
        | cons_cons _ _ =>
          exact absurd (above first List.mem_cons_self) (not_le.mpr (of_decide_eq_true before))
      · exact sub

mutual

theorem Node.findSubset_spec {node : Node κ ν} {lower : WithBot κ} (ordered : node.Ordered lower)
    {set : List κ} (sorted : set.Pairwise (· < ·)) :
    Finds (node.findSubset p set) (fun value => ∃ found, found.Sublist set ∧ node.lookup found = some value ∧ p value = true) := by
  match node with
  | .mk value isEndOfSet children =>
    have others := Children.findSubset_spec ordered sorted
    rw [Node.findSubset]
    apply (others.stored_or value isEndOfSet children).congr
    intro found
    rw [Node.has_iff p _ (fun found => found.Sublist set)]
    simp [Node.children]

theorem Children.findSubset_spec {children : Children κ ν} {lower : WithBot κ}
    (ordered : children.Ordered lower) {set : List κ} (sorted : set.Pairwise (· < ·)) :
    Finds (children.findSubset p set) (children.Has p fun found => found.Sublist set) := by
  match children with
  | .nil =>
    rw [Children.findSubset]
    apply Finds.never
    intro value ⟨_, _, _, _, found, _⟩
    cases found
  | .cons key child rest =>
    have dropped : ∀ value, (Children.cons key child rest).Has p (·.Sublist set) value ↔
        (∃ found, (key :: found).Sublist (set.dropWhile (· < key)) ∧
          child.lookup found = some value ∧ p value = true) ∨
          rest.Has p (·.Sublist (set.dropWhile (· < key))) value := by
      intro value
      rw [Children.has_cons p ordered]
      apply or_congr
      · apply exists_congr
        intro found
        apply and_congr_left
        intro ⟨below, _⟩
        have above := (Node.pairwise_of_lookup ordered.2.1 below).2
        symm
        apply sublist_dropWhile_iff
        intro other member
        cases List.mem_cons.mp member with
        | inl same => exact same.ge
        | inr later => exact (WithBot.coe_lt_coe.mp (above other later)).le
      · apply Children.has_congr p ordered.2.2.2
        intro found _ above
        symm
        apply sublist_dropWhile_iff
        exact fun other member => (WithBot.coe_lt_coe.mp (above other member)).le
    have sub : (set.dropWhile (· < key)).Pairwise (· < ·) := sorted.sublist (List.dropWhile_sublist _)
    have first := List.head?_dropWhile_not (fun other => decide (other < key)) set
    rw [Children.findSubset]
    cases skipped : set.dropWhile (· < key) with
    | nil =>
      apply Finds.never
      intro value has
      rw [dropped, skipped] at has
      cases has with
      | inl here =>
        obtain ⟨found, inside, -⟩ := here
        cases inside
      | inr there =>
        obtain ⟨other, found, child', inside, -⟩ := there
        cases inside
    | cons it set' =>
      rw [skipped] at sub first dropped
      obtain ⟨least, sub'⟩ := List.pairwise_cons.mp sub
      dsimp only
      split
      · rename_i same
        subst same
        have both := (Node.findSubset_spec ordered.2.1 sub').or (Children.findSubset_spec ordered.2.2.2 sub')
        apply both.congr
        intro value
        rw [dropped]
        apply or_congr
        · simp only [List.cons_sublist_cons]
        · apply Children.has_congr p ordered.2.2.2
          intro found _ above
          constructor
          · exact fun inside => inside.cons it
          · intro inside
            cases inside with
            | cons _ later => exact later
            | cons_cons _ _ => exact absurd (above it List.mem_cons_self) (lt_irrefl _)
      · rename_i differ
        apply (Children.findSubset_spec ordered.2.2.2 sub).congr
        intro value
        rw [dropped]
        constructor
        · exact .inr
        · intro either
          cases either with
          | inr there => exact there
          | inl here =>
            obtain ⟨found, inside, -⟩ := here
            have atLeast : key ≤ it := not_lt.mp (of_decide_eq_false first)
            cases List.mem_cons.mp (inside.subset List.mem_cons_self) with
            | inl same => exact absurd same.symm differ
            | inr later => exact absurd (least key later) (not_lt.mpr atLeast)

end

theorem Children.has_or {within within' : List κ → Prop} {value : ν} :
    (children.Has p within value ∨ children.Has p within' value) ↔ children.Has p (fun found => within found ∨ within' found) value := by
  constructor
  · intro either
    cases either with
    | inl first =>
      obtain ⟨key, rest, child, inside, found⟩ := first
      exact ⟨key, rest, child, .inl inside, found⟩
    | inr second =>
      obtain ⟨key, rest, child, inside, found⟩ := second
      exact ⟨key, rest, child, .inr inside, found⟩
  · intro ⟨key, rest, child, inside, found⟩
    cases inside with
    | inl first => exact .inl ⟨key, rest, child, first, found⟩
    | inr second => exact .inr ⟨key, rest, child, second, found⟩

mutual

theorem Node.findSuperset_spec {node : Node κ ν} {lower : WithBot κ} (ordered : node.Ordered lower) (set : List κ) :
    Finds (node.findSuperset p set) (fun value => ∃ found, set.Sublist found ∧ node.lookup found = some value ∧ p value = true) := by
  match node, set with
  | .mk value isEndOfSet children, [] =>
    have others : Finds (children.findSuperset p []) _ := Children.findSuperset_spec ordered []
    rw [Node.findSuperset]
    apply (others.stored_or value isEndOfSet children).congr
    intro found
    rw [Node.has_iff p _ (fun found => [].Sublist found)]
    simp [Node.children]
  | .mk value isEndOfSet children, elt :: set =>
    have skipping : Finds (children.findSuperset p (elt :: set)) _ := Children.findSuperset_spec ordered (elt :: set)
    have taking : Finds (children.findSupersetAt p elt set) _ := Children.findSupersetAt_spec ordered elt set
    rw [Node.findSuperset]
    apply (skipping.or taking).congr
    intro found
    rw [Children.has_or, Node.has_iff p _ (fun found => (elt :: set).Sublist found)]
    have cannotEnd : ¬ (elt :: set).Sublist [] := fun sub => by cases sub
    simp only [cannotEnd, and_false, false_or, Node.children]
    apply Children.has_congr p ordered
    intro path _ _
    cases path with
    | nil => simp
    | cons key rest =>
      rw [List.sublist_cons_iff]
      simp [eq_comm]

theorem Children.findSuperset_spec {children : Children κ ν} {lower : WithBot κ} (ordered : children.Ordered lower) (set : List κ) :
    Finds (children.findSuperset p set) (children.Has p fun found => set.Sublist found.tail) := by
  match children with
  | .nil =>
    rw [Children.findSuperset]
    apply Finds.never
    intro value ⟨_, _, _, _, found, _⟩
    cases found
  | .cons key child rest =>
    rw [Children.findSuperset]
    apply ((Node.findSuperset_spec ordered.2.1 set).or (Children.findSuperset_spec ordered.2.2.2 set)).congr
    intro value
    rw [Children.has_cons p ordered]
    rfl

theorem Children.findSupersetAt_spec {children : Children κ ν} {lower : WithBot κ}
    (ordered : children.Ordered lower) (elt : κ) (set : List κ) :
    Finds (children.findSupersetAt p elt set) (children.Has p fun found => ∃ rest, found = elt :: rest ∧ set.Sublist rest) := by
  match children with
  | .nil =>
    rw [Children.findSupersetAt]
    apply Finds.never
    intro value ⟨_, _, _, _, found, _⟩
    cases found
  | .cons key child rest =>
    rw [Children.findSupersetAt]
    split
    · rename_i same
      subst same
      apply (Node.findSuperset_spec ordered.2.1 set).congr
      intro value
      rw [Children.has_cons p ordered]
      constructor
      · intro ⟨found, inside, below⟩
        exact .inl ⟨found, ⟨found, rfl, inside⟩, below⟩
      · intro either
        cases either with
        | inl here =>
          obtain ⟨found, ⟨rest, same, inside⟩, below⟩ := here
          cases same
          exact ⟨found, inside, below⟩
        | inr there =>
          obtain ⟨key, found, child', ⟨rest', same, -⟩, atKey, -⟩ := there
          cases same
          exact absurd (Children.lt_of_find ordered.2.2.2 atKey).1 (lt_irrefl _)
    · rename_i differ
      apply (Children.findSupersetAt_spec ordered.2.2.2 elt set).congr
      intro value
      rw [Children.has_cons p ordered]
      constructor
      · exact .inr
      · intro either
        cases either with
        | inr there => exact there
        | inl here =>
          obtain ⟨found, ⟨rest, same, -⟩, -⟩ := here
          exact absurd (List.cons.inj same).1.symm differ

end

end Predicate

end NeuroMerge.MapOfSets
