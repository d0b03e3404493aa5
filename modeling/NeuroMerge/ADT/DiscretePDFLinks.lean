import Mathlib.Tactic.Ring
import NeuroMerge.ADT.DiscretePDF

/-!
# The tree behind the links

The nodes that can be reached from the root are those of a tree. The tree is
taken apart at the node that an operation works on: the subtree of that node, and
the frames on the way up to the root. A rotation changes the frames next to the
node; it keeps the items in their order.
-/

namespace NeuroMerge.DiscretePDF

open List

variable {τ : Type}

inductive Tree (τ : Type) where
  | leaf
  | node (id : Nat) (left : Tree τ) (key : τ) (weight sum : ℚ) (right : Tree τ)

inductive Side where
  | left
  | right
  deriving DecidableEq

structure Frame (τ : Type) where
  side : Side
  id : Nat
  key : τ
  weight : ℚ
  sum : ℚ
  other : Tree τ

abbrev Entry (τ : Type) := Nat × τ × ℚ

variable {left right : Tree τ} {key : τ} {weight : ℚ}

namespace Tree

def ptr : Tree τ → Ptr
  | leaf => none
  | node id _ _ _ _ _ => some id

def sum : Tree τ → ℚ
  | leaf => 0
  | node _ _ _ _ sum _ => sum

def size : Tree τ → Nat
  | leaf => 0
  | node _ left _ _ _ right => left.size + right.size + 1

def entries : Tree τ → List (Entry τ)
  | leaf => []
  | node id left key weight _ right => left.entries ++ (id, key, weight) :: right.entries

def Summed : Tree τ → Prop
  | leaf => True
  | node _ left _ weight sum right =>
    sum = weight + left.sum + right.sum ∧ left.Summed ∧ right.Summed

@[simp] theorem ptr_leaf : (leaf : Tree τ).ptr = none := rfl

@[simp] theorem ptr_node {id : Nat} {sum : ℚ} : (node id left key weight sum right).ptr = some id := rfl

@[simp] theorem sum_leaf : (leaf : Tree τ).sum = 0 := rfl

@[simp] theorem sum_node {id : Nat} {sum : ℚ} : (node id left key weight sum right).sum = sum := rfl

end Tree

namespace Frame

def plug (frame : Frame τ) (tree : Tree τ) : Tree τ :=
  match frame.side with
  | .left => .node frame.id tree frame.key frame.weight frame.sum frame.other
  | .right => .node frame.id frame.other frame.key frame.weight frame.sum tree

def before (frame : Frame τ) : List (Entry τ) :=
  match frame.side with
  | .left => []
  | .right => frame.other.entries ++ [(frame.id, frame.key, frame.weight)]

def after (frame : Frame τ) : List (Entry τ) :=
  match frame.side with
  | .left => (frame.id, frame.key, frame.weight) :: frame.other.entries
  | .right => []

/-- The child pointer on the side of the hole, and the other one. -/
def leftPtr (frame : Frame τ) (hole : Ptr) : Ptr :=
  match frame.side with
  | .left => hole
  | .right => frame.other.ptr

def rightPtr (frame : Frame τ) (hole : Ptr) : Ptr :=
  match frame.side with
  | .left => frame.other.ptr
  | .right => hole

end Frame

abbrev Path (τ : Type) := List (Frame τ)

namespace Path

def plug : Path τ → Tree τ → Tree τ
  | [], tree => tree
  | frame :: path, tree => plug path (frame.plug tree)

def before : Path τ → List (Entry τ)
  | [] => []
  | frame :: path => before path ++ frame.before

def after : Path τ → List (Entry τ)
  | [] => []
  | frame :: path => frame.after ++ after path

def parent : Path τ → Ptr
  | [] => none
  | frame :: _ => some frame.id

def Summed (path : Path τ) : Prop := ∀ frame ∈ path, frame.other.Summed

end Path

theorem entries_frame (frame : Frame τ) (tree : Tree τ) : (frame.plug tree).entries = frame.before ++ tree.entries ++ frame.after := by
  obtain ⟨side, id, key, weight, sum, other⟩ := frame
  cases side with
  | left => simp [Frame.plug, Frame.before, Frame.after, Tree.entries]
  | right => simp [Frame.plug, Frame.before, Frame.after, Tree.entries]

theorem entries_plug (path : Path τ) (tree : Tree τ) : (path.plug tree).entries = path.before ++ tree.entries ++ path.after := by
  induction path generalizing tree with
  | nil => simp [Path.plug, Path.before, Path.after]
  | cons frame path ih =>
    rw [Path.plug, ih, entries_frame]
    simp only [Path.before, Path.after, append_assoc]

/-- The nodes of the tree are linked as it says; `parent` is the node above. -/
def Holds (pdf : PDF τ) (marks : Nat → Bool) (parent : Ptr) : Tree τ → Prop
  | .leaf => True
  | .node id left key weight sum right =>
    pdf.nodes id = some ⟨marks id, parent, left.ptr, right.ptr, key, weight, sum⟩ ∧
      Holds pdf marks (some id) left ∧ Holds pdf marks (some id) right

/-- The nodes beside a subtree whose root is `hole`. -/
def HoldsPath (pdf : PDF τ) (marks : Nat → Bool) : Path τ → Ptr → Prop
  | [], hole => pdf.root = hole
  | frame :: path, hole =>
    pdf.nodes frame.id = some ⟨marks frame.id, Path.parent path, frame.leftPtr hole,
      frame.rightPtr hole, frame.key, frame.weight, frame.sum⟩ ∧
    Holds pdf marks (some frame.id) frame.other ∧ HoldsPath pdf marks path (some frame.id)

def idsOf (entries : List (Entry τ)) : List Nat := entries.map Prod.fst

@[simp, grind =] theorem idsOf_nil : idsOf ([] : List (Entry τ)) = [] := rfl

@[simp, grind =] theorem idsOf_append {first second : List (Entry τ)} :
    idsOf (first ++ second) = idsOf first ++ idsOf second := map_append

@[simp, grind =] theorem idsOf_cons {entry : Entry τ} {rest : List (Entry τ)} : idsOf (entry :: rest) = entry.1 :: idsOf rest := rfl

theorem perm_frame (frame : Frame τ) (path : Path τ) (entries : List (Entry τ)) :
    (idsOf (Path.before (frame :: path) ++ entries ++ Path.after (frame :: path))).Perm
      (frame.id :: (idsOf frame.other.entries ++ idsOf (path.before ++ entries ++ path.after))) := by
  obtain ⟨side, id, key, weight, sum, other⟩ := frame
  refine perm_iff_count.mpr fun n => ?_
  cases side with
  | left =>
    simp [Path.before, Path.after, Frame.before, Frame.after, count_append, count_cons]
    omega
  | right =>
    simp [Path.before, Path.after, Frame.before, Frame.after, count_append, count_cons]
    omega

theorem path_nodes (frame : Frame τ) (path : Path τ) (m : Nat) :
    m ∈ idsOf (Path.before (frame :: path) ++ Path.after (frame :: path)) ↔
    m = frame.id ∨ m ∈ idsOf frame.other.entries ∨ m ∈ idsOf (Path.before path ++ Path.after path) := by
  simpa using (perm_frame frame path []).mem_iff (a := m)

structure At (pdf : PDF τ) (marks : Nat → Bool) (path : Path τ) (tree : Tree τ) : Prop where
  above : HoldsPath pdf marks path tree.ptr
  below : Holds pdf marks path.parent tree
  distinct : (idsOf (path.before ++ tree.entries ++ path.after)).Nodup
  allocated : ∀ id ∈ idsOf (path.before ++ tree.entries ++ path.after), id < pdf.allocated

section Moves

variable {pdf : PDF τ} {marks : Nat → Bool} {path : Path τ} {frame : Frame τ} {tree : Tree τ}

theorem entries_up : Path.before (frame :: path) ++ tree.entries ++ Path.after (frame :: path) =
    path.before ++ (frame.plug tree).entries ++ path.after := by
  rw [entries_frame]
  simp only [Path.before, Path.after, append_assoc]

theorem holds_frame : Holds pdf marks path.parent (frame.plug tree) ↔
    pdf.nodes frame.id = some ⟨marks frame.id, Path.parent path, frame.leftPtr tree.ptr,
      frame.rightPtr tree.ptr, frame.key, frame.weight, frame.sum⟩ ∧
    Holds pdf marks (some frame.id) frame.other ∧ Holds pdf marks (some frame.id) tree := by
  obtain ⟨side, id, key, weight, sum, other⟩ := frame
  cases side with
  | left => exact and_congr_right fun _ => and_comm
  | right => exact Iff.rfl

theorem ptr_frame : (frame.plug tree).ptr = some frame.id := by
  obtain ⟨side, id, key, weight, sum, other⟩ := frame
  cases side with
  | left => rfl
  | right => rfl

theorem at_frame : At pdf marks (frame :: path) tree ↔ At pdf marks path (frame.plug tree) := by
  constructor
  · rintro ⟨⟨node, other, above⟩, below, distinct, allocated⟩
    rw [entries_up] at distinct allocated
    exact ⟨ptr_frame ▸ above, holds_frame.mpr ⟨node, other, below⟩, distinct, allocated⟩
  · rintro ⟨above, whole, distinct, allocated⟩
    rw [ptr_frame] at above
    obtain ⟨node, other, below⟩ := holds_frame.mp whole
    rw [← entries_up] at distinct allocated
    exact ⟨⟨node, other, above⟩, below, distinct, allocated⟩

theorem at_plug {first : Path τ} : At pdf marks (first ++ path) tree ↔ At pdf marks path (first.plug tree) := by
  induction first generalizing tree with
  | nil => exact Iff.rfl
  | cons frame first ih => exact at_frame.trans ih

end Moves

/-! ## Changes of single nodes -/

variable {value : Option (Node τ)}

section Nodes

variable {pdf after : PDF τ} {marks newMarks : Nat → Bool} {path : Path τ} {tree : Tree τ}
  {parent hole : Ptr} {n m : Nat} {node : Node τ}

@[simp] theorem set_nodes : (pdf.set n value).nodes m = if m = n then value else pdf.nodes m := rfl

@[simp] theorem set_root : (pdf.set n value).root = pdf.root := rfl

@[simp] theorem set_allocated : (pdf.set n value).allocated = pdf.allocated := rfl

theorem get_eq (found : pdf.nodes n = some node) : pdf.get n = .ok node := by
  rw [PDF.get, found]
  rfl

theorem modify_eq {change : Node τ → Node τ} (found : pdf.nodes n = some node) :
    pdf.modify n change = .ok (pdf.set n (some (change node))) := by
  rw [PDF.modify, get_eq found]
  rfl

theorem Holds.congr (holds : Holds pdf marks parent tree) (same : ∀ id ∈ idsOf tree.entries, after.nodes id = pdf.nodes id) :
    Holds after marks parent tree := by
  induction tree generalizing parent with
  | leaf => trivial
  | node id left key weight sum right leftIH rightIH =>
    simp only [Tree.entries, idsOf_append, idsOf_cons] at same
    exact ⟨(same id (by simp)).trans holds.1, leftIH holds.2.1 fun other member => same other (by simp [member]),
      rightIH holds.2.2 fun other member => same other (by simp [member])⟩

theorem HoldsPath.congr (holds : HoldsPath pdf marks path hole) (root : after.root = pdf.root)
    (same : ∀ id ∈ idsOf (path.before ++ path.after), after.nodes id = pdf.nodes id) : HoldsPath after marks path hole := by
  induction path generalizing hole with
  | nil => exact root.trans holds
  | cons frame path ih =>
    have member := fun m its => same m ((path_nodes frame path m).mpr its)
    exact ⟨(member frame.id (.inl rfl)).trans holds.1, holds.2.1.congr fun m its => member m (.inr (.inl its)),
      ih holds.2.2 fun m its => member m (.inr (.inr its))⟩

def Recoloured (pdf after : PDF τ) (marks newMarks : Nat → Bool) : Prop :=
  after.root = pdf.root ∧ after.allocated = pdf.allocated ∧
    ∀ id node, pdf.nodes id = some node → node.mark = marks id →
      after.nodes id = some { node with mark := newMarks id }

theorem Holds.recolour (holds : Holds pdf marks parent tree)
    (coloured : Recoloured pdf after marks newMarks) : Holds after newMarks parent tree := by
  induction tree generalizing parent with
  | leaf => trivial
  | node id left key weight sum right leftIH rightIH =>
    exact ⟨coloured.2.2 id _ holds.1 rfl, leftIH holds.2.1, rightIH holds.2.2⟩

theorem HoldsPath.recolour (holds : HoldsPath pdf marks path hole)
    (coloured : Recoloured pdf after marks newMarks) : HoldsPath after newMarks path hole := by
  induction path generalizing hole with
  | nil => exact coloured.1.trans holds
  | cons frame path ih =>
    exact ⟨coloured.2.2 frame.id _ holds.1 rfl, holds.2.1.recolour coloured, ih holds.2.2⟩

theorem At.recolour (its : At pdf marks path tree) (coloured : Recoloured pdf after marks newMarks) : At after newMarks path tree :=
  ⟨its.above.recolour coloured, its.below.recolour coloured, its.distinct, coloured.2.1 ▸ its.allocated⟩

theorem Holds.found (holds : Holds pdf marks parent tree) (member : n ∈ idsOf tree.entries) :
    ∃ node, pdf.nodes n = some node ∧ node.mark = marks n := by
  induction tree generalizing parent with
  | leaf => cases member
  | node id left key weight sum right leftIH rightIH =>
    rw [Tree.entries, idsOf_append, idsOf_cons, mem_append, mem_cons] at member
    rcases member with inLeft | rfl | inRight
    · exact leftIH holds.2.1 inLeft
    · exact ⟨_, holds.1, rfl⟩
    · exact rightIH holds.2.2 inRight

theorem HoldsPath.found (holds : HoldsPath pdf marks path hole) (member : n ∈ idsOf (path.before ++ path.after)) :
    ∃ node, pdf.nodes n = some node ∧ node.mark = marks n := by
  induction path generalizing hole with
  | nil => cases member
  | cons frame path ih =>
    rcases (path_nodes frame path n).mp member with rfl | inOther | inPath
    · exact ⟨_, holds.1, rfl⟩
    · exact holds.2.1.found inOther
    · exact ih holds.2.2 inPath

theorem At.found (its : At pdf marks path tree) (member : n ∈ idsOf (path.before ++ tree.entries ++ path.after)) :
    ∃ node, pdf.nodes n = some node ∧ node.mark = marks n := by
  simp only [idsOf_append, mem_append] at member
  rcases member with (inBefore | inTree) | inAfter
  · exact its.above.found (by simp [inBefore])
  · exact its.below.found inTree
  · exact its.above.found (by simp [inAfter])

theorem setMark_spec (red : Bool) (its : At pdf marks path tree) (member : n ∈ idsOf (path.before ++ tree.entries ++ path.after)) :
    ∃ after, pdf.setMark (some n) red = .ok after ∧ At after (Function.update marks n red) path tree := by
  obtain ⟨node, found, colour⟩ := its.found member
  refine ⟨pdf.set n (some { node with mark := red }), ?_, its.recolour ⟨rfl, rfl, ?_⟩⟩
  · rw [PDF.setMark, pointee]
    exact modify_eq found
  · intro id other otherFound otherColour
    rw [set_nodes]
    by_cases same : id = n
    · subst same
      rw [if_pos rfl, Function.update_self]
      rw [found] at otherFound
      rw [Option.some.inj otherFound]
    · rw [if_neg same, Function.update_of_ne same, ← otherColour]
      exact otherFound

end Nodes

/-! ## Rotations -/

section Rotations

variable {pdf after : PDF τ} {marks : Nat → Bool} {path : Path τ} {tree : Tree τ} {parent hole : Ptr} {n p : Nat}

theorem mem_of_ptr (root : tree.ptr = some n) : n ∈ idsOf tree.entries := by
  cases tree with
  | leaf => cases root
  | node id left key weight sum right =>
    obtain rfl := Option.some.inj root
    simp [Tree.entries]

theorem sumOf_eq (holds : Holds pdf marks parent tree) : pdf.sumOf tree.ptr = .ok tree.sum := by
  cases tree with
  | leaf => rfl
  | node id left key weight sum right =>
    rw [Tree.ptr_node, PDF.sumOf, get_eq holds.1]
    rfl

theorem setSum_eq {node : Node τ} {leftSum rightSum : ℚ} (found : pdf.nodes n = some node)
    (left : pdf.sumOf node.left = .ok leftSum) (right : pdf.sumOf node.right = .ok rightSum) :
    pdf.setSum n = .ok (pdf.set n (some { node with sumWeights := node.weight + leftSum + rightSum })) := by
  rw [PDF.setSum, get_eq found]
  simp only [bind, Except.bind, left, right]
  rfl

theorem setParent_spec (newParent : Ptr) (holds : Holds pdf marks parent tree) (distinct : (idsOf tree.entries).Nodup) :
    ∃ after, pdf.setParent tree.ptr newParent = .ok after ∧ Holds after marks newParent tree ∧
      after.root = pdf.root ∧ after.allocated = pdf.allocated ∧ ∀ m, m ∉ idsOf tree.entries → after.nodes m = pdf.nodes m := by
  cases tree with
  | leaf => exact ⟨pdf, rfl, trivial, rfl, rfl, fun _ _ => rfl⟩
  | node id left key weight sum right =>
    obtain ⟨found, leftHolds, rightHolds⟩ := holds
    rw [Tree.entries] at distinct
    refine ⟨_, modify_eq found, ⟨?_, leftHolds.congr ?_, rightHolds.congr ?_⟩, rfl, rfl, ?_⟩
    · simp
    · intro m member
      rw [set_nodes, if_neg (by grind)]
    · intro m member
      rw [set_nodes, if_neg (by grind)]
    · intro m absent
      rw [set_nodes, if_neg (by rintro rfl; simp [Tree.entries] at absent)]

def Path.place : Path τ → Place
  | [] => .root
  | frame :: _ =>
    match frame.side with
    | .left => .left frame.id
    | .right => .right frame.id

theorem frame_apart {frame : Frame τ} (distinct : (idsOf (Path.before (frame :: path) ++ Path.after (frame :: path))).Nodup) :
    frame.id ∉ idsOf frame.other.entries ∧ frame.id ∉ idsOf (path.before ++ path.after) := by
  have apart := (perm_frame frame path []).nodup_iff.mp (by simpa using distinct)
  grind

theorem write_spec (newHole : Ptr) (holds : HoldsPath pdf marks path hole) (distinct : (idsOf (path.before ++ path.after)).Nodup) :
    ∃ after, pdf.write newHole path.place = .ok after ∧ HoldsPath after marks path newHole ∧
      after.allocated = pdf.allocated ∧ ∀ m, m ∉ idsOf (path.before ++ path.after) → after.nodes m = pdf.nodes m := by
  cases path with
  | nil => exact ⟨_, rfl, rfl, rfl, fun _ _ => rfl⟩
  | cons frame path =>
    obtain ⟨found, otherHolds, above⟩ := holds
    obtain ⟨beside, beyond⟩ := frame_apart distinct
    refine ⟨pdf.set frame.id (some ⟨marks frame.id, Path.parent path, frame.leftPtr newHole,
      frame.rightPtr newHole, frame.key, frame.weight, frame.sum⟩), ?_,
      ⟨set_nodes.trans (if_pos rfl), otherHolds.congr fun m member => if_neg ?_,
        above.congr rfl fun m member => if_neg ?_⟩, rfl, fun m absent => if_neg ?_⟩
    · obtain ⟨side, id, key, weight, sum, other⟩ := frame
      cases side with
      | left => exact modify_eq found
      | right => exact modify_eq found
    · exact fun same => beside (same ▸ member)
    · exact fun same => beyond (same ▸ member)
    · exact fun same => absent ((path_nodes frame path m).mpr (.inl same))

theorem replaceChild_eq (holds : HoldsPath pdf marks path (some p)) (outside : p ∉ idsOf (path.before ++ path.after)) :
    pdf.replaceChild path.parent p n = pdf.write (some n) path.place := by
  cases path with
  | nil => rfl
  | cons frame path =>
    have different : frame.other.ptr ≠ some p := fun same =>
      outside ((path_nodes frame path p).mpr (.inr (.inl (mem_of_ptr same))))
    rw [Path.parent, PDF.replaceChild, get_eq holds.1]
    obtain ⟨side, id, key, weight, sum, other⟩ := frame
    cases side with
    | left => exact if_pos rfl
    | right => exact if_neg different

/-- What is stored for the node of a frame. -/
abbrev Frame.node (frame : Frame τ) (marks : Nat → Bool) (parent hole : Ptr) : Node τ :=
  ⟨marks frame.id, parent, frame.leftPtr hole, frame.rightPtr hole, frame.key, frame.weight,
    frame.sum⟩

def Frame.resum (frame : Frame τ) (holeSum : ℚ) : Frame τ :=
  { frame with
    sum := match frame.side with
      | .left => frame.weight + holeSum + frame.other.sum
      | .right => frame.weight + frame.other.sum + holeSum }

theorem setSum_frame {frame : Frame τ} {holeSum : ℚ} (found : pdf.nodes frame.id = some (frame.node marks parent hole))
    (holds : Holds pdf marks (some frame.id) frame.other) (summed : pdf.sumOf hole = .ok holeSum) :
    pdf.setSum frame.id = .ok (pdf.set frame.id (some ((frame.resum holeSum).node marks parent hole))) := by
  have other := sumOf_eq holds
  obtain ⟨side, id, key, weight, sum, tree⟩ := frame
  cases side with
  | left => exact setSum_eq found summed other
  | right => exact setSum_eq found other summed

theorem moveChild_eq (marks : Nat → Bool) (parent hole : Ptr) {lower upper : Frame τ} (sides : lower.side ≠ upper.side)
    (found : pdf.nodes lower.id = some (lower.node marks parent hole))
    (parentFound : pdf.nodes upper.id = some (upper.node marks (some lower.id) (some lower.id)))
    (apart : lower.id ≠ upper.id) (notOther : upper.other.ptr ≠ some lower.id) :
    pdf.moveChild lower.id upper.id =
      ((pdf.set upper.id (some (upper.node marks (some lower.id) hole))).set lower.id
        (some (lower.node marks parent (some upper.id)))).setParent hole (some upper.id) := by
  rw [PDF.moveChild, get_eq found, get_eq parentFound]
  have stays (value) : (pdf.set upper.id value).nodes lower.id = some (lower.node marks parent hole) := (if_neg apart).trans found
  obtain ⟨side, n, key, weight, sum, other⟩ := lower
  obtain ⟨upperSide, p, upperKey, upperWeight, upperSum, upperOther⟩ := upper
  cases side with
  | left =>
    cases upperSide with
    | left => exact absurd rfl sides
    | right =>
      simp only [bind, Except.bind, Frame.leftPtr, Frame.rightPtr, if_neg notOther, modify_eq parentFound, modify_eq (stays _)]
      rfl
  | right =>
    cases upperSide with
    | left =>
      simp only [bind, Except.bind, Frame.leftPtr, Frame.rightPtr, if_true, modify_eq parentFound, modify_eq (stays _)]
      rfl
    | right => exact absurd rfl sides

theorem perm_frames (lower upper : Frame τ) (path : Path τ) (entries : List (Entry τ)) :
    (idsOf (Path.before (lower :: upper :: path) ++ entries ++
      Path.after (lower :: upper :: path))).Perm
      (lower.id :: (idsOf lower.other.entries ++ upper.id :: (idsOf upper.other.entries ++
        idsOf (path.before ++ entries ++ path.after)))) :=
  (perm_frame lower (upper :: path) entries).trans (((perm_frame upper path entries).append_left _).cons _)

theorem perm_swap (lower upper : Frame τ) (path : Path τ) (entries : List (Entry τ)) (first second : ℚ) :
    (idsOf (Path.before (upper.resum first :: lower.resum second :: path) ++ entries ++
      Path.after (upper.resum first :: lower.resum second :: path))).Perm
      (idsOf (Path.before (lower :: upper :: path) ++ entries ++ Path.after (lower :: upper :: path))) := by
  refine ((perm_frames _ _ path entries).trans (perm_iff_count.mpr fun n => ?_)).trans (perm_frames lower upper path entries).symm
  simp [Frame.resum, count_append, count_cons]
  omega

/-- A rotation swaps two frames of different sides; the sum of the node that rises is taken
from the old sum of the other. -/
theorem rotate_spec {lower upper : Frame τ} (its : At pdf marks (lower :: upper :: path) tree) (sides : lower.side ≠ upper.side) :
    ∃ after, pdf.rotate lower.id = .ok after ∧ At after marks (upper.resum tree.sum :: lower.resum upper.sum :: path) tree := by
  have swapped := perm_swap lower upper path tree.entries tree.sum upper.sum
  have distinct := (perm_frames lower upper path tree.entries).nodup_iff.mp its.distinct
  obtain ⟨found, lowerHolds, parentFound, upperHolds, above⟩ := its.above
  have below := its.below
  have apart : lower.id ≠ upper.id := by grind
  have outside : ∀ m ∈ idsOf lower.other.entries ++ idsOf upper.other.entries ++
      idsOf (path.before ++ path.after), m ∉ idsOf tree.entries ∧ m ≠ lower.id ∧ m ≠ upper.id := by
    grind
  have belowApart : ∀ m ∈ idsOf tree.entries, m ≠ lower.id ∧ m ≠ upper.id := by grind
  have ends : lower.id ∉ idsOf tree.entries ∧ upper.id ∉ idsOf tree.entries := by grind
  have up : pdf.parentOf lower.id = .ok upper.id := by
    rw [PDF.parentOf, get_eq found]
    rfl
  let raised := pdf.set lower.id (some (lower.node marks (Path.parent path) tree.ptr))
  have raises : pdf.modify lower.id ({ · with parent := Path.parent path }) = .ok raised :=
    modify_eq found
  let lowered := raised.set upper.id (some (upper.node marks (some lower.id) (some lower.id)))
  have parentRaised : raised.nodes upper.id =
      some (upper.node marks (Path.parent path) (some lower.id)) :=
    (if_neg apart.symm).trans parentFound
  have lowers : raised.modify upper.id ({ · with parent := some lower.id }) = .ok lowered :=
    modify_eq parentRaised
  have moves : lowered.moveChild lower.id upper.id = _ := moveChild_eq marks (Path.parent path)
    tree.ptr sides (by simp [lowered, raised, apart]) (by simp [lowered]) apart fun same => by
      have member := mem_of_ptr same
      grind
  let linked := (lowered.set upper.id (some (upper.node marks (some lower.id) tree.ptr))).set
    lower.id (some (lower.node marks (Path.parent path) (some upper.id)))
  have belowLinked : Holds linked marks (some lower.id) tree := below.congr fun m member => by
    simp [linked, lowered, raised, belowApart m member]
  obtain ⟨moved, moving, belowMoved, rootMoved, allocatedMoved, untouched⟩ := setParent_spec (some upper.id) belowLinked (by grind)
  rw [moving] at moves
  have same : ∀ m, m ∉ idsOf tree.entries → m ≠ lower.id → m ≠ upper.id → moved.nodes m = pdf.nodes m := by
    intro m notBelow notLower notUpper
    rw [untouched m notBelow]
    simp [linked, lowered, raised, notLower, notUpper]
  have kept : ∀ m ∈ idsOf lower.other.entries ++ idsOf upper.other.entries ++
      idsOf (path.before ++ path.after), moved.nodes m = pdf.nodes m := fun m member =>
    same m (outside m member).1 (outside m member).2.1 (outside m member).2.2
  have foundMoved : moved.nodes lower.id =
      some (lower.node marks (Path.parent path) (some upper.id)) :=
    (untouched _ ends.1).trans (if_pos rfl)
  have parentMoved : moved.nodes upper.id = some (upper.node marks (some lower.id) tree.ptr) := by
    rw [untouched _ ends.2]
    simp [linked, apart.symm]
  let higher := lower.resum upper.sum
  let summed := moved.set lower.id (some (higher.node marks (Path.parent path) (some upper.id)))
  have sets : moved.setSum lower.id = .ok summed :=
    setSum_frame foundMoved (lowerHolds.congr fun m member => kept m (by grind)) (by rw [PDF.sumOf, get_eq parentMoved]; rfl)
  have sameSummed : ∀ m, m ≠ lower.id → summed.nodes m = moved.nodes m := fun m other => if_neg other
  have upperSummed : Holds summed marks (some upper.id) upper.other := upperHolds.congr
    fun m member => (sameSummed m (outside m (by grind)).2.1).trans (kept m (by grind))
  have belowSummed : Holds summed marks (some upper.id) tree := belowMoved.congr fun m member => sameSummed m (belowApart m member).1
  have setsUpper := setSum_frame ((sameSummed _ apart.symm).trans parentMoved) upperSummed (sumOf_eq belowSummed)
  let final := summed.set upper.id (some ((upper.resum tree.sum).node marks (some lower.id) tree.ptr))
  have sameFinal : ∀ m, m ≠ upper.id → final.nodes m = summed.nodes m := fun m other => if_neg other
  have aboveFinal : HoldsPath final marks path (some upper.id) := above.congr rootMoved fun m member => by
      obtain ⟨_, notLower, notUpper⟩ := outside m (by grind)
      rw [sameFinal m notUpper, sameSummed m notLower, kept m (by grind)]
  obtain ⟨after, replaces, aboveAfter, afterAllocated, afterSame⟩ := write_spec (some lower.id) aboveFinal (by grind)
  rw [← replaceChild_eq aboveFinal fun member => (outside _ (by grind)).2.2 rfl] at replaces
  refine ⟨after, ?_, ⟨(afterSame upper.id ?_).trans (if_pos rfl), upperSummed.congr ?_,
    ((afterSame lower.id ?_).trans (sameFinal _ apart)).trans (if_pos rfl), lowerHolds.congr ?_,
    aboveAfter⟩, belowSummed.congr ?_, swapped.nodup_iff.mpr its.distinct, fun m member => ?_⟩
  · rw [PDF.rotate, up, ← replaces]
    simp only [bind, Except.bind, get_eq parentFound, raises, lowers, moves, sets, setsUpper]
    rfl
  · grind
  · intro m member
    rw [afterSame m (by grind), sameFinal m (outside m (by grind)).2.2]
  · grind
  · intro m member
    obtain ⟨_, notLower, notUpper⟩ := outside m (by grind)
    rw [afterSame m (by grind), sameFinal m notUpper, sameSummed m notLower, kept m (by grind)]
  · intro m member
    rw [afterSame m (by grind), sameFinal m (belowApart m member).2]
  · rw [afterAllocated]
    exact allocatedMoved ▸ its.allocated m (swapped.mem_iff.mp member)

end Rotations

end NeuroMerge.DiscretePDF
