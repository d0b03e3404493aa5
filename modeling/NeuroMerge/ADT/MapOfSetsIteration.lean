import NeuroMerge.ADT.MapOfSetsSearch

/-!
# Going through the tree

The stack of an iterator determines the sets that are still to come. A step takes the first
of them away.
-/

namespace NeuroMerge.MapOfSets

open Iterator

variable {κ ν : Type}

def pathOf (stack : List (Children κ ν)) : List κ := (stack.filterMap Children.key?).reverse

@[simp] theorem pathOf_nil : pathOf ([] : List (Children κ ν)) = [] := rfl

@[simp] theorem pathOf_cons (key : κ) (child : Node κ ν) (rest : Children κ ν) (stack : List (Children κ ν)) :
    pathOf (.cons key child rest :: stack) = pathOf stack ++ [key] := by
  simp [pathOf, Children.key?]

def prefixed (path : List κ) (entries : List (List κ × ν)) : List (List κ × ν) :=
  entries.map fun entry => (path ++ entry.1, entry.2)

@[simp] theorem prefixed_nil (entries : List (List κ × ν)) : prefixed [] entries = entries := by
  simp [prefixed]

theorem prefixed_cons (path : List κ) (key : κ) (child : Node κ ν) (rest : Children κ ν) :
    prefixed path (Children.cons key child rest).entries = prefixed (path ++ [key]) child.entries ++ prefixed path rest.entries := by
  simp [prefixed, Children.entries]

/-- The sets behind everything below the node that the stack leads to. -/
def pending : List (Children κ ν) → List (List κ × ν)
  | [] => []
  | .nil :: stack => pending stack
  | .cons _ _ rest :: stack => prefixed (pathOf stack) rest.entries ++ pending stack

def remaining (root : Node κ ν) (stack : List (Children κ ν)) : List (List κ × ν) :=
  prefixed (pathOf stack) (nodeAt root stack).entries ++ pending stack

theorem remaining_cons (root : Node κ ν) (key : κ) (child : Node κ ν) (rest : Children κ ν) (stack : List (Children κ ν)) :
    remaining root (.cons key child rest :: stack) = prefixed (pathOf stack) (Children.cons key child rest).entries ++ pending stack := by
  rw [remaining, pathOf_cons, pending, prefixed_cons, List.append_assoc]
  rfl

variable {stack : List (Children κ ν)} {lower : WithBot κ} {root : Node κ ν} {sets : List (List κ × ν)}

section Steps

variable [LT κ]

/-- Every place of the stack is one of a child, in a tree in order. -/
def StackOrdered (stack : List (Children κ ν)) : Prop :=
  ∀ place ∈ stack, place ≠ .nil ∧ ∃ lower : WithBot κ, place.Ordered lower

theorem StackOrdered.cons {key : κ} {child : Node κ ν} {rest : Children κ ν}
    (ordered : (Children.cons key child rest).Ordered lower) (stackOrdered : StackOrdered stack) :
    StackOrdered (.cons key child rest :: stack) := by
  intro place member
  cases List.mem_cons.mp member with
  | inl same => exact same ▸ ⟨by simp, lower, ordered⟩
  | inr later => exact stackOrdered place later

/-- A stack that leads to a set, before which none of the list is left out. -/
structure LeadsTo (root : Node κ ν) (stack : List (Children κ ν)) (sets : List (List κ × ν)) :
    Prop where
  isEndOfSet : (nodeAt root stack).isEndOfSet = true
  remaining : remaining root stack = sets
  ordered : StackOrdered stack

theorem Node.firstSet_spec (root : Node κ ν) {node : Node κ ν} {lower : WithBot κ}
    (ordered : node.Ordered lower) (hasSet : node.HasSet) {stack : List (Children κ ν)}
    (here : nodeAt root stack = node) (stackOrdered : StackOrdered stack) :
    ∃ stack', node.firstSet stack = some stack' ∧ LeadsTo root stack' (remaining root stack) := by
  match node with
  | .mk value true children => exact ⟨stack, rfl, by rw [here]; rfl, rfl, stackOrdered⟩
  | .mk value false .nil =>
    cases hasSet with
    | inl isEnd => cases isEnd
    | inr children => exact absurd rfl children
  | .mk value false (.cons key child rest) =>
    have next : StackOrdered (.cons key child rest :: stack) := stackOrdered.cons ordered
    have down : nodeAt root (.cons key child rest :: stack) = child := rfl
    obtain ⟨-, childOrdered, childHasSet, -⟩ := ordered
    obtain ⟨stack', found, leads⟩ := Node.firstSet_spec root childOrdered childHasSet down next
    refine ⟨stack', found, ?_⟩
    rw [remaining_cons] at leads
    rw [remaining, here]
    exact leads

theorem Node.descend_spec (root : Node κ ν) {node : Node κ ν} {lower : WithBot κ}
    (ordered : node.Ordered lower) {stack : List (Children κ ν)} (stackOrdered : StackOrdered stack) :
    (node.children = .nil ∧ node.descend stack = (false, stack)) ∨
      ∃ stack', node.descend stack = (true, stack') ∧
        LeadsTo root stack' (prefixed (pathOf stack) node.children.entries ++ pending stack) := by
  match node with
  | .mk value isEndOfSet .nil => exact .inl ⟨rfl, rfl⟩
  | .mk value isEndOfSet (.cons key child rest) =>
    right
    have next : StackOrdered (.cons key child rest :: stack) := stackOrdered.cons ordered
    rw [Node.descend, Node.children, ← remaining_cons root]
    split
    · rename_i isEnd
      exact ⟨_, rfl, isEnd, rfl, next⟩
    · rename_i notEnd
      obtain ⟨-, childOrdered, childHasSet, -⟩ := ordered
      cases Node.descend_spec root childOrdered next with
      | inl leaf =>
        cases childHasSet with
        | inl isEnd => exact absurd isEnd notEnd
        | inr children => exact absurd leaf.1 children
      | inr found =>
        obtain ⟨stack', down, leads⟩ := found
        refine ⟨stack', down, ?_⟩
        have entries : child.entries = child.children.entries := by
          cases child with
          | mk value isEndOfSet children =>
            have other : isEndOfSet = false := Bool.eq_false_iff.mpr notEnd
            rw [Node.entries, other]
            rfl
        rw [remaining, nodeAt, entries]
        exact leads

theorem climb_spec (root : Node κ ν) (stackOrdered : StackOrdered stack) :
    (pending stack = [] ∧ climb stack = some (false, [])) ∨
      ∃ stack', climb stack = some (true, stack') ∧ LeadsTo root stack' (pending stack) := by
  induction stack with
  | nil => exact .inl ⟨rfl, rfl⟩
  | cons place stack ih =>
    have others : StackOrdered stack := fun place member =>
      stackOrdered place (List.mem_cons_of_mem _ member)
    obtain ⟨some, lower, ordered⟩ := stackOrdered place List.mem_cons_self
    match place with
    | .nil => exact absurd rfl some
    | .cons first child .nil =>
      simpa [pending, climb, Children.entries, prefixed] using ih others
    | .cons first child (.cons key next rest) =>
      right
      obtain ⟨-, -, -, restOrdered⟩ := ordered
      have moved : StackOrdered (.cons key next rest :: stack) := others.cons restOrdered
      have there : nodeAt root (.cons key next rest :: stack) = next := rfl
      obtain ⟨-, nextOrdered, nextHasSet, -⟩ := restOrdered
      obtain ⟨stack', found, leads⟩ := Node.firstSet_spec root nextOrdered nextHasSet there moved
      rw [remaining_cons] at leads
      refine ⟨stack', ?_, leads⟩
      rw [climb, found]
      rfl

theorem ordered_nodeAt (ordered : root.Ordered lower) (stackOrdered : StackOrdered stack) :
    ∃ lower : WithBot κ, (nodeAt root stack).Ordered lower := by
  match stack with
  | [] => exact ⟨lower, ordered⟩
  | .nil :: stack => exact ⟨lower, ordered⟩
  | .cons key child rest :: stack =>
    obtain ⟨-, _, place⟩ := stackOrdered _ List.mem_cons_self
    exact ⟨key, place.2.1⟩

theorem Iterator.step_spec (ordered : root.Ordered lower) (stackOrdered : StackOrdered stack)

    (behind : prefixed (pathOf stack) (nodeAt root stack).children.entries ++ pending stack = sets) :
    (sets = [] ∧ (Iterator.mk root true stack).step = some ⟨root, false, []⟩) ∨
      ∃ stack', (Iterator.mk root true stack).step = some ⟨root, true, stack'⟩ ∧
        LeadsTo root stack' sets := by
  subst behind
  obtain ⟨_, nodeOrdered⟩ := ordered_nodeAt ordered stackOrdered
  cases Node.descend_spec root nodeOrdered stackOrdered with
  | inr below =>
    obtain ⟨stack', down, leads⟩ := below
    refine .inr ⟨stack', ?_, leads⟩
    simp [Iterator.step, down]
  | inl leaf =>
    obtain ⟨children, down⟩ := leaf
    have none : prefixed (pathOf stack) (nodeAt root stack).children.entries = [] := by
      rw [children]
      rfl
    rw [none, List.nil_append]
    cases climb_spec root stackOrdered with
    | inl spent => exact .inl ⟨spent.1, by simp [Iterator.step, down, spent.2]⟩
    | inr next =>
      obtain ⟨stack', up, leads⟩ := next
      exact .inr ⟨stack', by simp [Iterator.step, down, up], leads⟩

end Steps

section Whole

variable [LinearOrder κ]

def asSet (entry : List κ × ν) : Finset κ × ν := (entry.1.toFinset, entry.2)

theorem Iterator.collect_end (root : Node κ ν) (fuel : Nat) : (Iterator.mk root false []).collect (fuel + 1) = some [] := rfl

theorem LeadsTo.eq_cons (leads : LeadsTo root stack sets) :
    sets = (pathOf stack, (nodeAt root stack).value) ::
      (prefixed (pathOf stack) (nodeAt root stack).children.entries ++ pending stack) := by
  have isEnd := leads.isEndOfSet
  rw [← leads.remaining, MapOfSets.remaining]
  generalize nodeAt root stack = node at isEnd
  cases node with
  | mk value isEndOfSet children =>
    subst isEnd
    simp [Node.entries, Node.children, Node.value, prefixed]

theorem Iterator.collect_spec (ordered : root.Ordered lower) (leads : LeadsTo root stack sets)
    {fuel : Nat} (enough : sets.length < fuel) : (Iterator.mk root true stack).collect fuel = some (sets.map asSet) := by
  induction fuel generalizing stack sets with
  | zero => exact absurd enough (Nat.not_lt_zero _)
  | succ fuel ih =>
    have first : (Iterator.mk root true stack).deref = some (asSet (pathOf stack, (nodeAt root stack).value)) := by
      simp [deref, Iterator.isEnd, asSet, pathOf]
    have split := leads.eq_cons
    generalize behind : prefixed (pathOf stack) (nodeAt root stack).children.entries ++ pending stack = later at split
    subst split
    have fewer : later.length < fuel := by
      rw [List.length_cons] at enough
      omega
    rw [collect, if_neg (by simp [Iterator.isEnd]), first]
    cases step_spec ordered leads.ordered behind with
    | inl spent =>
      obtain ⟨fuel, rfl⟩ := Nat.exists_eq_succ_of_ne_zero (Nat.ne_of_gt (Nat.zero_lt_of_lt fewer))
      rw [spent.1, spent.2]
      rfl
    | inr next =>
      obtain ⟨stack', step, leads'⟩ := next
      rw [step]
      simp only [Option.bind_eq_bind, Option.bind_some, ih leads' fewer]
      rfl

theorem begin_spec (ordered : root.Ordered lower) :
    ∃ it, begin root = some it ∧ ∀ fuel, root.entries.length < fuel → it.collect fuel = some (root.entries.map asSet) := by
  have empty : StackOrdered ([] : List (Children κ ν)) := fun _ member => absurd member List.not_mem_nil
  cases isEnd : root.isEndOfSet with
  | true =>
    have leads : LeadsTo root [] root.entries := ⟨isEnd, by simp [remaining, nodeAt, pending], empty⟩
    refine ⟨⟨root, true, []⟩, by simp [begin, isEnd], ?_⟩
    exact fun fuel enough => collect_spec ordered leads enough
  | false =>
    have entries : root.entries = root.children.entries := by
      cases root with
      | mk value isEndOfSet children =>
        subst isEnd
        rfl
    have behind : prefixed (pathOf ([] : List (Children κ ν))) (nodeAt root []).children.entries ++ pending [] = root.entries := by
      simp [nodeAt, pending, entries]
    have begins : begin root = (Iterator.mk root true []).step := by
      simp [begin, isEnd]
    rw [begins]
    cases step_spec ordered empty behind with
    | inl spent =>
      refine ⟨_, spent.2, ?_⟩
      intro fuel enough
      rw [spent.1] at enough ⊢
      obtain ⟨fuel, rfl⟩ := Nat.exists_eq_succ_of_ne_zero (Nat.ne_of_gt (Nat.zero_lt_of_lt enough))
      exact collect_end root fuel
    | inr next =>
      obtain ⟨stack', step, leads⟩ := next
      exact ⟨_, step, fun fuel enough => collect_spec ordered leads enough⟩

end Whole

end NeuroMerge.MapOfSets
