import NeuroMerge.ADT.MapOfSets

/-!
# The order of the tree

The keys ascend along every path and from child to child, and no branch is without a set.
Insertion keeps this, and changes what is found for the inserted set only.
-/

namespace NeuroMerge.MapOfSets

variable {κ ν : Type}

@[elab_as_elim, induction_eliminator]
theorem Children.induction {motive : Children κ ν → Prop} (nil : motive .nil)
    (cons : ∀ key child rest, motive rest → motive (.cons key child rest)) :
    ∀ children, motive children
  | .nil => nil
  | .cons key child rest => cons key child rest (Children.induction nil cons rest)

def Node.HasSet (node : Node κ ν) : Prop := node.isEndOfSet = true ∨ node.children ≠ .nil

section Ordered

variable [LT κ]

mutual

def Node.Ordered : WithBot κ → Node κ ν → Prop
  | lower, .mk _ _ children => children.Ordered lower

def Children.Ordered : WithBot κ → Children κ ν → Prop
  | _, .nil => True
  | lower, .cons key child rest =>
    lower < key ∧ child.Ordered key ∧ child.HasSet ∧ rest.Ordered key

end

end Ordered

mutual

def Node.entries : Node κ ν → List (List κ × ν)
  | .mk value isEndOfSet children =>
    (if isEndOfSet then [([], value)] else []) ++ children.entries

def Children.entries : Children κ ν → List (List κ × ν)
  | .nil => []
  | .cons key child rest =>
    child.entries.map (fun entry => (key :: entry.1, entry.2)) ++ rest.entries

end

variable {children : Children κ ν} {node : Node κ ν} {key : κ} {set : List κ}

section Lookup

variable [LinearOrder κ] {lower : WithBot κ}

theorem Node.ordered_iff : node.Ordered lower ↔ node.children.Ordered lower := by
  cases node
  rfl

theorem Children.lt_of_find (ordered : children.Ordered lower) {child : Node κ ν}
    (found : children.find key = some child) : lower < key ∧ child.Ordered key ∧ child.HasSet := by
  induction children generalizing lower with
  | nil => cases found
  | cons other child' rest ih =>
    rw [Children.find] at found
    split at found
    · rename_i same
      subst same
      cases found
      exact ⟨ordered.1, ordered.2.1, ordered.2.2.1⟩
    · obtain ⟨lt, others⟩ := ih ordered.2.2.2 found
      exact ⟨ordered.1.trans lt, others⟩

theorem Children.find_eq_none (ordered : children.Ordered lower) (le : (key : WithBot κ) ≤ lower) : children.find key = none := by
  cases found : children.find key with
  | none => rfl
  | some child => exact absurd (Children.lt_of_find ordered found).1 (not_lt.mpr le)

theorem Children.find_cons_of_find {other : κ} {child other' : Node κ ν} {rest : Children κ ν}
    (ordered : rest.Ordered key) (found : rest.find other = some other') : (Children.cons key child rest).find other = some other' := by
  have differ : other ≠ key := by
    intro same
    have lt := (Children.lt_of_find ordered found).1
    rw [same] at lt
    exact lt_irrefl _ lt
  rw [Children.find, if_neg differ, found]

theorem Node.lookup_cons (node : Node κ ν) (key : κ) (set : List κ) :
    node.lookup (key :: set) = (node.children.find key).bind fun child => child.lookup set := by
  rw [Node.lookup]

theorem Node.pairwise_of_lookup {value : ν} (ordered : node.Ordered lower) (found : node.lookup set = some value) :
    set.Pairwise (· < ·) ∧ ∀ key ∈ set, lower < (key : WithBot κ) := by
  induction set generalizing node lower with
  | nil => simp
  | cons key set ih =>
    obtain ⟨child, atKey, below⟩ := Option.bind_eq_some_iff.mp found
    obtain ⟨lt, childOrdered, -⟩ := Children.lt_of_find (Node.ordered_iff.mp ordered) atKey
    obtain ⟨sorted, above⟩ := ih childOrdered below
    constructor
    · exact List.pairwise_cons.mpr ⟨fun other member => WithBot.coe_lt_coe.mp (above other member), sorted⟩
    · intro other member
      cases List.mem_cons.mp member with
      | inl same => exact same ▸ lt
      | inr later => exact lt.trans (above other later)

mutual

theorem Node.mem_entries {node : Node κ ν} {lower : WithBot κ} (ordered : node.Ordered lower)
    {set : List κ} {value : ν} : (set, value) ∈ node.entries ↔ node.lookup set = some value := by
  match node with
  | .mk stored isEndOfSet children =>
    have inChildren : (set, value) ∈ children.entries ↔ _ := Children.mem_entries ordered
    rw [Node.entries, List.mem_append, inChildren]
    cases set with
    | nil => cases isEndOfSet <;> simp [Node.lookup, Node.stored, eq_comm]
    | cons key set =>
      rw [Node.lookup_cons, Option.bind_eq_some_iff]
      cases isEndOfSet <;> simp [Node.children]

theorem Children.mem_entries {children : Children κ ν} {lower : WithBot κ} (ordered : children.Ordered lower) {set : List κ} {value : ν} :
    (set, value) ∈ children.entries ↔ ∃ key rest child, set = key :: rest ∧
      children.find key = some child ∧ child.lookup rest = some value := by
  match children with
  | .nil => simp [Children.entries, Children.find]
  | .cons key child rest =>
    have inChild : ∀ set, (set, value) ∈ child.entries ↔ child.lookup set = some value := fun _ => Node.mem_entries ordered.2.1
    have inRest : (set, value) ∈ rest.entries ↔ _ := Children.mem_entries ordered.2.2.2
    rw [Children.entries, List.mem_append, inRest, List.mem_map]
    constructor
    · intro either
      cases either with
      | inl here =>
        obtain ⟨entry, member, eq⟩ := here
        cases eq
        exact ⟨key, entry.1, child, rfl, if_pos rfl, (inChild entry.1).mp member⟩
      | inr there =>
        obtain ⟨other, set', child', same, found, below⟩ := there
        exact ⟨other, set', child', same, Children.find_cons_of_find ordered.2.2.2 found, below⟩
    · intro ⟨other, set', child', same, found, below⟩
      subst same
      rw [Children.find] at found
      split at found
      · rename_i same
        subst same
        cases found
        exact .inl ⟨(set', value), (inChild set').mpr below, rfl⟩
      · exact .inr ⟨other, set', child', rfl, found, below⟩

end

end Lookup

section Insert

variable [LinearOrder κ] [Inhabited ν] {lower : WithBot κ}

theorem Children.ordered_update (ordered : children.Ordered lower) (lt : lower < key)
    {change : Node κ ν → Node κ ν} (keeps : ∀ node : Node κ ν, node.Ordered (key : WithBot κ) →
      (change node).Ordered (key : WithBot κ) ∧ (change node).HasSet) : (children.update key change).Ordered lower := by
  have new : (change .empty).Ordered (key : WithBot κ) ∧ (change .empty).HasSet := keeps .empty trivial
  induction children generalizing lower with
  | nil => exact ⟨lt, new.1, new.2, trivial⟩
  | cons other child rest ih =>
    rw [Children.update]
    split
    · rename_i before
      exact ⟨lt, new.1, new.2, WithBot.coe_lt_coe.mpr before, ordered.2⟩
    · split
      · rename_i same
        subst same
        obtain ⟨childOrdered, hasSet⟩ := keeps child ordered.2.1
        exact ⟨lt, childOrdered, hasSet, ordered.2.2.2⟩
      · rename_i notBefore differ
        have behind : other < key := lt_of_le_of_ne (not_lt.mp notBefore) (Ne.symm differ)
        exact ⟨ordered.1, ordered.2.1, ordered.2.2.1, ih ordered.2.2.2 (WithBot.coe_lt_coe.mpr behind)⟩

theorem Children.find_update (ordered : children.Ordered lower) (key other : κ) (change : Node κ ν → Node κ ν) :
    (children.update key change).find other =
      if other = key then some (change ((children.find key).getD .empty)) else children.find other := by
  induction children generalizing lower with
  | nil => rfl
  | cons first child rest ih =>
    rw [Children.update]
    split
    · rename_i before
      have absent : (Children.cons first child rest).find key = none :=
        Children.find_eq_none (show Children.Ordered (key : WithBot κ) (.cons first child rest) from
            ⟨WithBot.coe_lt_coe.mpr before, ordered.2⟩) (le_refl _)
      rw [absent]
      rfl
    · split
      · rename_i same
        subst same
        by_cases here : other = key
        · simp [Children.find, here]
        · simp [Children.find, here]
      · rename_i differ
        by_cases here : other = first
        · subst here
          simp [Children.find, Ne.symm differ]
        · simp [Children.find, here, differ, ih ordered.2.2.2]

theorem Children.update_ne_nil (children : Children κ ν) (key : κ) (change : Node κ ν → Node κ ν) :
    children.update key change ≠ .nil := by
  cases children with
  | nil => simp [Children.update]
  | cons other child rest =>
    rw [Children.update]
    split_ifs <;> simp

theorem Node.hasSet_insert (value : ν) (set : List κ) (node : Node κ ν) : (node.insert value set).HasSet := by
  cases node with
  | mk old isEndOfSet children =>
    cases set with
    | nil => exact .inl rfl
    | cons element set => exact .inr (Children.update_ne_nil _ _ _)

theorem Node.ordered_insert (value : ν) (ordered : node.Ordered lower)
    (sorted : set.Pairwise (· < ·)) (above : ∀ key ∈ set, lower < (key : WithBot κ)) : (node.insert value set).Ordered lower := by
  induction set generalizing node lower with
  | nil =>
    cases node
    exact ordered
  | cons element set ih =>
    cases node with
    | mk old isEndOfSet children =>
      obtain ⟨least, rest⟩ := List.pairwise_cons.mp sorted
      apply Children.ordered_update ordered (above element List.mem_cons_self)
      intro child childOrdered
      exact ⟨ih childOrdered rest fun key member => WithBot.coe_lt_coe.mpr (least key member), Node.hasSet_insert value set child⟩

theorem Node.lookup_empty (set : List κ) : (Node.empty : Node κ ν).lookup set = none := by
  cases set <;> rfl

theorem Node.lookup_insert (value : ν) (ordered : node.Ordered lower) (other : List κ) :
    (node.insert value set).lookup other = if other = set then some value else node.lookup other := by
  induction set generalizing node lower other with
  | nil =>
    cases node with
    | mk old isEndOfSet children =>
      cases other with
      | nil => rfl
      | cons key other => rfl
  | cons element set ih =>
    cases node with
    | mk old isEndOfSet children =>
      cases other with
      | nil => rfl
      | cons key other =>
        rw [Node.lookup_cons, Node.lookup_cons, Node.insert]
        simp only [Node.children]
        rw [Children.find_update ordered]
        by_cases same : key = element
        · subst same
          cases found : children.find key with
          | none =>
            have empty : (Node.empty : Node κ ν).Ordered (⊥ : WithBot κ) := trivial
            simp [ih empty, Node.lookup_empty]
          | some child =>
            have childOrdered := (Children.lt_of_find ordered found).2.1
            simp [ih childOrdered]
        · simp [same]

end Insert

end NeuroMerge.MapOfSets
