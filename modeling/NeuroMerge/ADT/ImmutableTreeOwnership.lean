import Mathlib.Algebra.Ring.Nat
import NeuroMerge.ADT.ImmutableTree
import NeuroMerge.Foundations.BalancedTree

/-!
# Ownership of the nodes of persistent trees

Every node counts exactly the references to it: those that are held outside the
heap and those in the fields of other nodes, as long as the counters have room for
them. A node is then deleted only when nothing refers to it, so whatever can be
reached from a reference that is still held stays as it is.
-/

namespace NeuroMerge.ImmutableTree

open List

variable {ν : Type}

inductive Shape (ν : Type) where
  | terminator
  | node (n : Nat) (left : Shape ν) (value : ν) (right : Shape ν) (height : Nat)

variable {n : Nat} {left right : Shape ν} {value : ν}

namespace Shape

def ptr : Shape ν → Ptr
  | terminator => none
  | node n _ _ _ _ => some n

def tree : Shape ν → BalancedTree ν
  | terminator => .leaf
  | node _ left value right height => .node left.tree value right.tree height

def height : Shape ν → Nat
  | terminator => 0
  | node _ _ _ _ height => height

def size : Shape ν → Nat
  | terminator => 0
  | node _ left _ right _ => left.size + right.size + 1

@[simp] theorem ptr_terminator : (terminator : Shape ν).ptr = none := rfl

@[simp] theorem ptr_node (n height : Nat) (left right : Shape ν) (value : ν) : (node n left value right height).ptr = some n := rfl

@[simp] theorem height_node (n height : Nat) (left right : Shape ν) (value : ν) : (node n left value right height).height = height := rfl

/-- The number of nodes on the longest way down. -/
def levels : Shape ν → Nat
  | terminator => 0
  | node _ left _ right _ => max left.levels right.levels + 1

/-- At most so many increments take place while a path down the tree is copied. -/
def demand (shape : Shape ν) : Nat := 4 * shape.levels + 2

def branch (n : Nat) (left : Shape ν) (value : ν) (right : Shape ν) : Shape ν :=
  node n left value right (max left.height right.height + 1)

@[simp] theorem ptr_branch (n : Nat) (left right : Shape ν) (value : ν) : (branch n left value right).ptr = some n := rfl

theorem height_tree (shape : Shape ν) : shape.tree.height = shape.height := by
  cases shape <;> rfl

theorem tree_branch : (branch n left value right).tree = .branch left.tree value right.tree := by
  rw [branch, tree, BalancedTree.branch, left.height_tree, right.height_tree]

/-- `part` is the shape or lies below it. -/
inductive Part : Shape ν → Shape ν → Prop where
  | refl (shape : Shape ν) : Part shape shape
  | left {part left right : Shape ν} {n height : Nat} {value : ν} :
      Part part left → Part part (node n left value right height)
  | right {part left right : Shape ν} {n height : Nat} {value : ν} :
      Part part right → Part part (node n left value right height)

theorem Part.trans {first second third : Shape ν} (inner : Part first second) (outer : Part second third) : Part first third := by
  induction outer with
  | refl => exact inner
  | left _ ih => exact .left ih
  | right _ ih => exact .right ih

end Shape

/-- The heap holds the nodes of the shape, whatever their counters are. -/
def Holds (heap : Heap ν) : Shape ν → Prop
  | .terminator => True
  | .node n left value right height =>
    (∃ references, heap.nodes[n]? = some (some ⟨left.ptr, right.ptr, value, height, references⟩)) ∧
      Holds heap left ∧ Holds heap right

def fieldRefs (p : Ptr) : Option (Node ν) → Nat
  | none => 0
  | some node => (if node.left = p then 1 else 0) + if node.right = p then 1 else 0

def Heap.fieldCount (heap : Heap ν) (p : Ptr) : Nat := (heap.nodes.map (fieldRefs p)).sum

/-- The references that the constructor of a node counts besides. -/
def uncounted : Ptr → Nat
  | none => 3
  | some _ => 0

/-- The counters are right when `held` are the references held outside the heap, and there is
room for as many more to any node. -/
structure Owned (heap : Heap ν) (held : List Ptr) (room : Nat) : Prop where
  counted : ∀ n node, heap.nodes[n]? = some (some node) →
    node.references = held.count (some n) + heap.fieldCount (some n) ∧ 0 < node.references
  terminator : heap.terminatorReferences = 3 + held.count none + heap.fieldCount none
  bounded : ∀ p, uncounted p + held.count p + heap.fieldCount p + room < 2 ^ 32
  shaped : ∀ n node, heap.nodes[n]? = some (some node) →
    ∃ shape, shape.ptr = some n ∧ Holds heap shape
  holds : ∀ p ∈ held, ∃ shape, shape.ptr = p ∧ Holds heap shape

def Stable (heap after : Heap ν) (held : List Ptr) : Prop :=
  ∀ shape : Shape ν, shape.ptr ∈ held → Holds heap shape → Holds after shape

def Live (heap : Heap ν) (held : List Ptr) (shape : Shape ν) : Prop :=
  ∃ whole : Shape ν, whole.ptr ∈ held ∧ Holds heap whole ∧ Shape.Part shape whole

theorem Holds.part {heap : Heap ν} {part whole : Shape ν} (holds : Holds heap whole)
    (below : Shape.Part part whole) : Holds heap part := by
  induction below with
  | refl => exact holds
  | left _ ih => exact ih holds.2.1
  | right _ ih => exact ih holds.2.2

variable {other : List Ptr} {references room : Nat}

section Basics

variable {heap after : Heap ν} {held : List Ptr} {shape : Shape ν}

section

variable (live : Live heap held shape)
include live

theorem Live.holds : Holds heap shape := by
  obtain ⟨whole, _, holds, below⟩ := live
  exact holds.part below

theorem Live.part {part : Shape ν} (below : Shape.Part part shape) : Live heap held part := by
  obtain ⟨whole, member, holds, inside⟩ := live
  exact ⟨whole, member, holds, below.trans inside⟩

theorem Live.stable (stable : Stable heap after held) : Live after held shape := by
  obtain ⟨whole, member, holds, below⟩ := live
  exact ⟨whole, member, stable whole member holds, below⟩

theorem Live.mono {more : List Ptr} (all : held ⊆ more) : Live heap more shape := by
  obtain ⟨whole, member, holds, below⟩ := live
  exact ⟨whole, all member, holds, below⟩

end

theorem Stable.mono {fewer : List Ptr} (stable : Stable heap after held) (all : fewer ⊆ held) : Stable heap after fewer :=
  fun shape member holds => stable shape (all member) holds

theorem Stable.trans {last : Heap ν} (first : Stable heap after held) (second : Stable after last held) : Stable heap last held :=
  fun shape member holds => second shape member (first shape member holds)

theorem Owned.spend {less : Nat} (owned : Owned heap held room) (spent : less ≤ room) : Owned heap held less :=
  { owned with bounded := fun p => Nat.lt_of_le_of_lt (Nat.add_le_add_left spent _) (owned.bounded p) }

theorem Owned.perm (owned : Owned heap held room) (same : held.Perm other) : Owned heap other room := by
  refine ⟨fun n node found => ?_, ?_, fun p => same.count_eq p ▸ owned.bounded p, owned.shaped, fun p member => ?_⟩
  · rw [← same.count_eq]
    exact owned.counted n node found
  · rw [← same.count_eq]
    exact owned.terminator
  · exact owned.holds p (same.mem_iff.mpr member)

theorem initial_owned : Owned (Heap.initial : Heap ν) [] 0 := by
  refine ⟨by simp [Heap.initial], by simp [Heap.initial, Heap.fieldCount], fun p => ?_, by simp [Heap.initial], by simp⟩
  cases p <;> simp [Heap.initial, Heap.fieldCount, uncounted]

theorem sum_set_add {entries : List (Option (Node ν))} {old : Option (Node ν)}
    (found : entries[n]? = some old) (new : Option (Node ν)) (p : Ptr) :
    ((entries.set n new).map (fieldRefs p)).sum + fieldRefs p old = (entries.map (fieldRefs p)).sum + fieldRefs p new := by
  induction entries generalizing n with
  | nil => cases found
  | cons entry rest ih =>
    cases n with
    | zero =>
      obtain rfl : entry = old := by simpa using found
      simp only [set_cons_zero, map_cons, sum_cons]
      omega
    | succ n =>
      have later := ih (n := n) (by simpa using found)
      simp only [set_cons_succ, map_cons, sum_cons]
      omega

theorem fieldCount_store {old : Option (Node ν)} (found : heap.nodes[n]? = some old) (new : Option (Node ν)) (p : Ptr) :
    (heap.store n new).fieldCount p + fieldRefs p old = heap.fieldCount p + fieldRefs p new :=
  sum_set_add found new p

theorem nodes_store {m : Nat} {new : Option (Node ν)} (inside : n < heap.nodes.length) :
    (heap.store n new).nodes[m]? = if m = n then some new else heap.nodes[m]? := by
  by_cases same : m = n
  · subst same
    simp [Heap.store, inside]
  · simp [Heap.store, same, Ne.symm same]

theorem Holds.counter {node : Node ν} (found : heap.nodes[n]? = some (some node))
    (holds : Holds heap shape) : Holds (heap.store n (some { node with references })) shape := by
  have inside := (List.getElem?_eq_some_iff.mp found).1
  induction shape with
  | terminator => trivial
  | node m left value right height leftIH rightIH =>
    obtain ⟨⟨old, atNode⟩, leftHolds, rightHolds⟩ := holds
    refine ⟨?_, leftIH leftHolds, rightIH rightHolds⟩
    by_cases same : m = n
    · subst same
      refine ⟨references, ?_⟩
      rw [nodes_store inside, if_pos rfl]
      rw [found] at atNode
      obtain rfl := Option.some.inj (Option.some.inj atNode)
      rfl
    · exact ⟨old, by rw [nodes_store inside, if_neg same, atNode]⟩

theorem Holds.deref {height : Nat} (holds : Holds heap (.node n left value right height)) :
    ∃ references, heap.deref n = .ok ⟨left.ptr, right.ptr, value, height, references⟩ := by
  obtain ⟨⟨references, found⟩, _⟩ := holds
  exact ⟨references, by simp [Heap.deref, found, pure, Except.pure]⟩

theorem Holds.height (holds : Holds heap shape) : heap.height shape.ptr = .ok shape.height := by
  cases shape with
  | terminator => rfl
  | node n left value right height =>
    obtain ⟨references, found⟩ := holds.deref
    simp only [Shape.ptr_node, Heap.height, found]
    rfl

theorem Holds.allocated (holds : Holds heap shape) (its : shape.ptr = some n) : ∃ node, heap.nodes[n]? = some (some node) := by
  cases shape with
  | terminator => cases its
  | node m left value right height =>
    obtain rfl : m = n := Option.some.inj its
    obtain ⟨⟨references, found⟩, _⟩ := holds
    exact ⟨_, found⟩

theorem sum_eq_zero {entries : List (Option (Node ν))} {p : Ptr}
    (none_ : ∀ entry ∈ entries, fieldRefs p entry = 0) : (entries.map (fieldRefs p)).sum = 0 := by
  induction entries with
  | nil => rfl
  | cons entry rest ih =>
    rw [map_cons, sum_cons, none_ entry (by simp), ih fun other member => none_ other (by simp [member])]

theorem Owned.unreferenced (owned : Owned heap held room) (free : ∀ node, heap.nodes[n]? ≠ some (some node)) :
    held.count (some n) = 0 ∧ heap.fieldCount (some n) = 0 := by
  constructor
  · refine count_eq_zero.mpr fun member => ?_
    obtain ⟨shape, its, holds⟩ := owned.holds _ member
    obtain ⟨node, found⟩ := holds.allocated its
    exact free node found
  · refine sum_eq_zero fun entry member => ?_
    cases entry with
    | none => rfl
    | some node =>
      obtain ⟨m, found⟩ := mem_iff_getElem?.mp member
      obtain ⟨shape, its, holds⟩ := owned.shaped m node found
      cases shape with
      | terminator => cases its
      | node k left value right height =>
        obtain rfl : k = m := Option.some.inj its
        obtain ⟨⟨references, atNode⟩, leftHolds, rightHolds⟩ := holds
        rw [found] at atNode
        obtain rfl := Option.some.inj (Option.some.inj atNode)
        have notLeft : left.ptr ≠ some n := fun same => by
          obtain ⟨other, atOther⟩ := leftHolds.allocated same
          exact free other atOther
        have notRight : right.ptr ≠ some n := fun same => by
          obtain ⟨other, atOther⟩ := rightHolds.allocated same
          exact free other atOther
        simp [fieldRefs, notLeft, notRight]

end Basics

section Operations

variable {heap : Heap ν} {held : List Ptr} {shape : Shape ν}

theorem Owned.counter {node : Node ν} {less : Nat} (references : Nat) (owned : Owned heap held room) (found : heap.nodes[n]? = some (some node))
    (counted : references = other.count (some n) + heap.fieldCount (some n))
    (positive : 0 < references) (bounded : references + less < 2 ^ 32) (spent : less ≤ room)
    (elsewhere : ∀ p, p ≠ some n → other.count p = held.count p) (holds : ∀ p ∈ other, p ≠ some n → p ∈ held) :
    Owned (heap.store n (some { node with references })) other less := by
  have inside := (List.getElem?_eq_some_iff.mp found).1
  have fields : ∀ p, (heap.store n (some { node with references })).fieldCount p =
      heap.fieldCount p := by
    intro p
    have sums := fieldCount_store found (some { node with references }) p
    simp only [fieldRefs] at sums
    omega
  have kept : ∀ shape : Shape ν, Holds heap shape →
      Holds (heap.store n (some { node with references })) shape :=
    fun shape holds => holds.counter found
  refine ⟨?_, ?_, ?_, ?_, ?_⟩
  · intro m current atCurrent
    rw [nodes_store inside] at atCurrent
    rw [fields]
    split at atCurrent
    · rename_i same
      subst same
      obtain rfl := Option.some.inj (Option.some.inj atCurrent)
      exact ⟨counted, positive⟩
    · rename_i different
      rw [elsewhere (some m) (by simpa using different)]
      exact owned.counted m current atCurrent
  · rw [fields, elsewhere none nofun]
    exact owned.terminator
  · intro p
    rw [fields]
    by_cases same : p = some n
    · subst same
      rw [uncounted]
      omega
    · rw [elsewhere p same]
      exact Nat.lt_of_le_of_lt (Nat.add_le_add_left spent _) (owned.bounded p)
  · intro m current atCurrent
    rw [nodes_store inside] at atCurrent
    split at atCurrent
    · rename_i same
      subst same
      obtain ⟨shape, its, holds⟩ := owned.shaped m node found
      exact ⟨shape, its, kept shape holds⟩
    · obtain ⟨shape, its, holds⟩ := owned.shaped m current atCurrent
      exact ⟨shape, its, kept shape holds⟩
  · intro p member
    by_cases same : p = some n
    · subst same
      obtain ⟨shape, its, holds⟩ := owned.shaped n node found
      exact ⟨shape, its, kept shape holds⟩
    · obtain ⟨shape, its, itsHolds⟩ := owned.holds p (holds p member same)
      exact ⟨shape, its, kept shape itsHolds⟩

theorem Owned.terminatorCounter {less : Nat} (owned : Owned heap held room) (counted : references = 3 + other.count none + heap.fieldCount none)
    (bounded : references + less < 2 ^ 32) (spent : less ≤ room)
    (elsewhere : ∀ n, other.count (some n) = held.count (some n)) (holds : ∀ n, some n ∈ other → some n ∈ held) :
    Owned { heap with terminatorReferences := references } other less := by
  have kept : ∀ shape : Shape ν, Holds heap shape → Holds { heap with terminatorReferences := references } shape := by
    intro shape holds
    induction shape with
    | terminator => trivial
    | node n left value right height leftIH rightIH =>
      exact ⟨holds.1, leftIH holds.2.1, rightIH holds.2.2⟩
  refine ⟨?_, counted, ?_, ?_, ?_⟩
  · intro n node found
    rw [elsewhere]
    exact owned.counted n node found
  · intro p
    cases p with
    | none =>
      rw [uncounted]
      exact counted ▸ bounded
    | some n =>
      rw [elsewhere]
      exact Nat.lt_of_le_of_lt (Nat.add_le_add_left spent _) (owned.bounded (some n))
  · intro n node found
    obtain ⟨shape, its, holds⟩ := owned.shaped n node found
    exact ⟨shape, its, kept shape holds⟩
  · intro p member
    cases p with
    | none => exact ⟨.terminator, rfl, trivial⟩
    | some n =>
      obtain ⟨shape, its, itsHolds⟩ := owned.holds _ (holds n member)
      exact ⟨shape, its, kept shape itsHolds⟩

theorem Holds.terminatorCounter (holds : Holds heap shape) : Holds { heap with terminatorReferences := references } shape := by
  induction shape with
  | terminator => trivial
  | node n left value right height leftIH rightIH =>
    exact ⟨holds.1, leftIH holds.2.1, rightIH holds.2.2⟩

theorem incref_spec (owned : Owned heap held (room + 1)) (holds : Holds heap shape) :
    ∃ after, heap.incref shape.ptr = .ok after ∧ Owned after (shape.ptr :: held) room ∧
      ∀ other : Shape ν, Holds heap other → Holds after other := by
  cases shape with
  | terminator =>
    have before := owned.terminator
    have bounded := owned.bounded none
    rw [uncounted] at bounded
    refine ⟨_, rfl, ?_, fun other otherHolds => otherHolds.terminatorCounter⟩
    refine owned.terminatorCounter ?_ (by omega) (Nat.le_succ room) (fun n => by simp [Shape.ptr_terminator])
      fun n member => by simpa [Shape.ptr_terminator] using member
    simp only [Shape.ptr_terminator, count_cons_self]
    omega
  | node n left value right height =>
    obtain ⟨⟨references, found⟩, _⟩ := id holds
    have counted : references = _ ∧ 0 < references := owned.counted n _ found
    have bounded := owned.bounded (some n)
    rw [uncounted] at bounded
    have fits : (references + 1) % 2 ^ 32 = references + 1 := Nat.mod_eq_of_lt (by omega)
    refine ⟨_, ?_, owned.counter (references + 1) found ?_ (Nat.succ_pos _) (by omega) (Nat.le_succ room) ?_ ?_,
      fun other otherHolds => otherHolds.counter found⟩
    · have deref : heap.deref n = .ok ⟨left.ptr, right.ptr, value, height, references⟩ := by
        simp [Heap.deref, found, pure, Except.pure]
      simp only [Shape.ptr_node, Heap.incref, deref, ok_bind]
      rw [fits]
      rfl
    · simp only [Shape.ptr_node, count_cons_self]
      omega
    · intro p different
      exact count_cons_of_ne (Ne.symm different)
    · intro p member different
      cases List.mem_cons.mp member with
      | inl same => exact absurd same different
      | inr old => exact old

theorem newNode_spec (value : ν) (owned : Owned heap (left.ptr :: right.ptr :: held) room)
    (leftHolds : Holds heap left) (rightHolds : Holds heap right) :
    ∃ n after, heap.newNode left.ptr right.ptr value =
        .ok ((Shape.branch n left value right).ptr, after) ∧
      Owned after ((Shape.branch n left value right).ptr :: held) room ∧
      (∀ other : Shape ν, Holds heap other → Holds after other) ∧ Holds after (.branch n left value right) := by
  have free : ∀ node, heap.nodes[heap.nodes.length]? ≠ some (some node) := by simp
  obtain ⟨notHeld, notField⟩ := owned.unreferenced free
  let made : Node ν := ⟨left.ptr, right.ptr, value, max left.height right.height + 1, 1⟩
  have kept : ∀ shape : Shape ν, Holds heap shape → Holds { heap with nodes := heap.nodes ++ [some made] } shape := by
    intro shape holds
    induction shape with
    | terminator => trivial
    | node m l v r h leftIH rightIH =>
      obtain ⟨⟨references, found⟩, lHolds, rHolds⟩ := holds
      refine ⟨⟨references, ?_⟩, leftIH lHolds, rightIH rHolds⟩
      exact (getElem?_append_left (List.getElem?_eq_some_iff.mp found).1).trans found
  have fields : ∀ p, Heap.fieldCount { heap with nodes := heap.nodes ++ [some made] } p =
      heap.fieldCount p + fieldRefs p (some made) := by
    intro p
    simp [Heap.fieldCount]
  have counts : ∀ p, (left.ptr :: right.ptr :: held).count p = held.count p + fieldRefs p (some made) := by
    intro p
    simp only [count_cons, fieldRefs, made, beq_iff_eq]
    omega
  have newHolds : Holds { heap with nodes := heap.nodes ++ [some made] }
      (.node heap.nodes.length left value right (max left.height right.height + 1)) :=
    ⟨⟨1, by simp [made]⟩, kept left leftHolds, kept right rightHolds⟩
  have cases_ : ∀ m node, (heap.nodes ++ [some made])[m]? = some (some node) →
      heap.nodes[m]? = some (some node) ∧ m ≠ heap.nodes.length ∨ m = heap.nodes.length ∧ node = made := by
    intro m node found
    by_cases old : m < heap.nodes.length
    · rw [getElem?_append_left old] at found
      exact .inl ⟨found, Nat.ne_of_lt old⟩
    · have same : m = heap.nodes.length := by
        have inside := (List.getElem?_eq_some_iff.mp found).1
        simp only [length_append, length_cons, length_nil] at inside
        omega
      subst same
      simp only [getElem?_concat_length, Option.some.injEq] at found
      exact .inr ⟨rfl, found.symm⟩
  refine ⟨heap.nodes.length, _, ?_, ⟨?_, ?_, ?_, ?_, ?_⟩, kept, newHolds⟩
  · simp only [Heap.newNode, leftHolds.height, rightHolds.height]
    rfl
  · intro m node found
    rw [fields]
    rcases cases_ m node found with ⟨old, different⟩ | ⟨rfl, rfl⟩
    · have before := owned.counted m node old
      rw [counts] at before
      rw [Shape.ptr_branch, count_cons_of_ne (by simpa using Ne.symm different)]
      omega
    · rw [counts] at notHeld
      rw [Shape.ptr_branch, count_cons_self]
      show 1 = _ ∧ 0 < 1
      omega
  · have different : (some heap.nodes.length : Ptr) ≠ none := nofun
    rw [fields, Shape.ptr_branch, count_cons_of_ne different]
    have before := owned.terminator
    rw [counts] at before
    show heap.terminatorReferences = _
    omega
  · intro p
    rw [fields]
    by_cases same : p = some heap.nodes.length
    · subst same
      have bounded := owned.bounded left.ptr
      rw [counts] at notHeld
      rw [count_cons_self] at bounded
      rw [Shape.ptr_branch, count_cons_self, uncounted]
      omega
    · have bounded := owned.bounded p
      rw [counts] at bounded
      rw [Shape.ptr_branch, count_cons_of_ne (Ne.symm same)]
      omega
  · intro m node found
    rcases cases_ m node found with ⟨old, _⟩ | ⟨rfl, _⟩
    · obtain ⟨shape, its, holds⟩ := owned.shaped m node old
      exact ⟨shape, its, kept shape holds⟩
    · exact ⟨_, rfl, newHolds⟩
  · intro p member
    cases List.mem_cons.mp member with
    | inl same =>
      exact ⟨.node heap.nodes.length left value right _, same.symm, newHolds⟩
    | inr old =>
      obtain ⟨shape, its, holds⟩ := owned.holds p (by simp [old])
      exact ⟨shape, its, kept shape holds⟩

/-- Deleting a node to which nothing else refers hands its references to its children
over to whoever deletes it. -/
theorem Owned.delete {height : Nat} (owned : Owned heap (some n :: held) room) (holds : Holds heap (.node n left value right height))
    (found : heap.nodes[n]? = some (some ⟨left.ptr, right.ptr, value, height, references⟩)) (last : references = 1) :
    Owned (heap.store n none) (left.ptr :: right.ptr :: held) room ∧
      Stable heap (heap.store n none) held ∧ Holds (heap.store n none) left ∧ Holds (heap.store n none) right := by
  subst last
  have inside := (List.getElem?_eq_some_iff.mp found).1
  have alone : 1 = _ ∧ 0 < 1 := owned.counted n _ found
  rw [count_cons_self] at alone
  have notHeld : some n ∉ held := count_eq_zero.mp (by omega)
  have notField : heap.fieldCount (some n) = 0 := by omega
  have noParent : ∀ (m : Nat) (node : Node ν), heap.nodes[m]? = some (some node) → node.left ≠ some n ∧ node.right ≠ some n := by
    intro m node atNode
    have part : fieldRefs (some n) (some node) = 0 := by
      have before := fieldCount_store atNode none (some n)
      simp only [fieldRefs] at before ⊢
      omega
    simp only [fieldRefs] at part
    constructor
    · intro same
      simp [same] at part
    · intro same
      simp [same] at part
  have kept : ∀ shape : Shape ν, shape.ptr ≠ some n → Holds heap shape → Holds (heap.store n none) shape := by
    intro shape different holds
    induction shape with
    | terminator => trivial
    | node m l v r h leftIH rightIH =>
      obtain ⟨⟨count, atNode⟩, lHolds, rHolds⟩ := holds
      obtain ⟨notLeft, notRight⟩ := noParent m _ atNode
      refine ⟨⟨count, ?_⟩, leftIH notLeft lHolds, rightIH notRight rHolds⟩
      rw [nodes_store inside, if_neg (fun same => different (congrArg some same)), atNode]
  obtain ⟨notLeft, notRight⟩ := noParent n _ found
  have fields : ∀ p, (heap.store n none).fieldCount p +
      ((if left.ptr = p then 1 else 0) + if right.ptr = p then 1 else 0) = heap.fieldCount p := by
    intro p
    simpa only [fieldRefs, Nat.add_zero] using fieldCount_store found none p
  have counts : ∀ p, (left.ptr :: right.ptr :: held).count p = held.count p +
      ((if left.ptr = p then 1 else 0) + if right.ptr = p then 1 else 0) := by
    intro p
    simp only [count_cons, beq_iff_eq]
    omega
  refine ⟨⟨?_, ?_, ?_, ?_, ?_⟩, fun shape member => kept shape fun same => notHeld (same ▸ member),
    kept left notLeft holds.2.1, kept right notRight holds.2.2⟩
  · intro m node atNode
    rw [nodes_store inside] at atNode
    split at atNode
    · cases atNode
    · rename_i different
      have before := owned.counted m node atNode
      have sums := fields (some m)
      rw [count_cons_of_ne (by simpa using Ne.symm different)] at before
      rw [counts]
      omega
  · have before := owned.terminator
    have sums := fields none
    have different : (some n : Ptr) ≠ none := nofun
    rw [count_cons_of_ne different] at before
    rw [counts]
    show heap.terminatorReferences = _
    omega
  · intro p
    have bounded := owned.bounded p
    have sums := fields p
    have fewer : held.count p ≤ (some n :: held).count p := (sublist_cons_self _ held).count_le p
    rw [counts]
    omega
  · intro m node atNode
    rw [nodes_store inside] at atNode
    split at atNode
    · cases atNode
    · rename_i different
      obtain ⟨shape, its, itsHolds⟩ := owned.shaped m node atNode
      exact ⟨shape, its, kept shape (by simpa [its] using different) itsHolds⟩
  · intro p member
    simp only [mem_cons] at member
    rcases member with rfl | rfl | old
    · exact ⟨left, rfl, kept left notLeft holds.2.1⟩
    · exact ⟨right, rfl, kept right notRight holds.2.2⟩
    · obtain ⟨shape, its, itsHolds⟩ := owned.holds p (by simp [old])
      exact ⟨shape, its, kept shape (fun same => notHeld (same ▸ its ▸ old)) itsHolds⟩

theorem decref_spec (owned : Owned heap (shape.ptr :: held) room) (holds : Holds heap shape) :
    ∃ after, (∀ fuel, shape.size < fuel → Heap.decref fuel heap shape.ptr = .ok after) ∧ Owned after held room ∧ Stable heap after held := by
  induction shape generalizing heap held with
  | terminator =>
    have before := owned.terminator
    have bounded := owned.bounded none
    simp only [Shape.ptr_terminator, count_cons_self, uncounted] at before bounded
    refine ⟨{ heap with terminatorReferences := (heap.terminatorReferences + (2 ^ 32 - 1)) % 2 ^ 32 }, ?_, ?_,
      fun other _ otherHolds => otherHolds.terminatorCounter⟩
    · intro fuel enough
      cases fuel with
      | zero => exact absurd enough (Nat.not_lt_zero _)
      | succ fuel =>
        rw [Shape.ptr_terminator, Heap.decref, if_neg (by omega)]
        rfl
    · refine owned.terminatorCounter (by omega) (by omega) le_rfl (fun n => by simp [Shape.ptr_terminator])
        fun n member => by simpa [Shape.ptr_terminator] using member
  | node n left value right height leftIH rightIH =>
    obtain ⟨⟨references, found⟩, leftHolds, rightHolds⟩ := id holds
    have deref : heap.deref n = .ok ⟨left.ptr, right.ptr, value, height, references⟩ := by
      simp [Heap.deref, found, pure, Except.pure]
    by_cases last : references = 1
    · obtain ⟨deleted, stable, leftStays, rightStays⟩ := owned.delete holds found last
      obtain ⟨middle, leftReturns, leftOwned, leftStable⟩ := leftIH deleted leftStays
      obtain ⟨after, rightReturns, rightOwned, rightStable⟩ := rightIH leftOwned (leftStable right (by simp) rightStays)
      refine ⟨after, ?_, rightOwned, (stable.trans (leftStable.mono (by simp))).trans rightStable⟩
      intro fuel enough
      rw [Shape.size] at enough
      cases fuel with
      | zero => exact absurd enough (Nat.not_lt_zero _)
      | succ fuel =>
        simp only [Shape.ptr_node, Heap.decref, deref, bind, Except.bind]
        rw [if_pos last, leftReturns fuel (by omega)]
        exact rightReturns fuel (by omega)
    · have counted : references = _ ∧ 0 < references := owned.counted n _ found
      have bounded := owned.bounded (some n)
      simp only [Shape.ptr_node, count_cons_self, uncounted] at counted bounded
      have fits : (references + (2 ^ 32 - 1)) % 2 ^ 32 = references - 1 := by omega
      refine ⟨_, ?_, owned.counter (references - 1) found (by omega) (by omega) (by omega) le_rfl ?_ ?_,
        fun other _ otherHolds => otherHolds.counter found⟩
      · intro fuel enough
        cases fuel with
        | zero => exact absurd enough (Nat.not_lt_zero _)
        | succ fuel =>
          simp only [Shape.ptr_node, Heap.decref, deref, bind, Except.bind]
          rw [if_neg last, fits]
          rfl
      · intro p different
        exact (count_cons_of_ne (Ne.symm different)).symm
      · exact fun p member _ => mem_cons_of_mem _ member

end Operations

end NeuroMerge.ImmutableTree
