import Mathlib.Data.Set.Function
import NeuroMerge.Execution.ProcessTree

/-!
# The process tree mirrors the live states

The links of the process tree agree, its leaves are the nodes of the states that
are not yet removed, and every other node leads to one of them. While a removal
climbs, one childless node stands for no state; at the end there is such a node
only when no state is left, and then it is the root.
-/

namespace NeuroMerge.ProcessTree

/-- Parent and child links agree, and a child is younger than its parent. -/
structure Linked (tree : PTree) : Prop where
  root : ∃ node, tree.nodes tree.root = some node ∧ node.parent = none
  parent : ∀ (n : Nat) node (p : Nat), tree.nodes n = some node → node.parent = some p →
    ∃ up, tree.nodes p = some up ∧ (up.left = some n ∨ up.right = some n)
  orphan : ∀ (n : Nat) node, tree.nodes n = some node → node.parent = none → n = tree.root
  child : ∀ (p : Nat) up (n : Nat), tree.nodes p = some up → up.left = some n ∨ up.right = some n →
    p < n ∧ ∃ node, tree.nodes n = some node ∧ node.parent = some p
  apart : ∀ (p : Nat) up (n : Nat), tree.nodes p = some up → up.left = some n → up.right ≠ some n
  bound : ∀ (n : Nat) node, tree.nodes n = some node → n < tree.allocated

/-- The leaves are the nodes of the live states, and a node without a state has a child.
The childless node `hole`, if there is one, is not counted. -/
structure Mirrors (tree : PTree) (live : List StateId) (hole : Option Nat) : Prop where
  placed : ∀ s ∈ live, ∃ n node, tree.ptreeNode s = some n ∧ tree.nodes n = some node ∧
    node.state = some s ∧ hole ≠ some n
  leaf : ∀ n node s, tree.nodes n = some node → node.state = some s → node.Childless
  owned : ∀ n node s, tree.nodes n = some node → node.state = some s → hole ≠ some n →
    s ∈ live ∧ tree.ptreeNode s = some n
  inner : ∀ n node, tree.nodes n = some node → node.state = none → hole ≠ some n → ¬ node.Childless

structure Mirroring (tree : PTree) (live : List StateId) : Prop where
  linked : Linked tree
  mirrors : ∃ hole, Mirrors tree live hole ∧
    ∀ n, hole = some n → live = [] ∧ ∀ m node, tree.nodes m = some node → m = tree.root

structure System.Valid (system : System) : Prop where
  mirroring : Mirroring system.tree system.live
  distinct : system.live.Nodup
  known : ∀ s ∈ system.live, s ∈ system.known

section Heap

variable {tree : PTree} {n m : Nat} {node : PTreeNode} {s : StateId}

@[simp] theorem deref_eq_ok : tree.deref n = .ok node ↔ tree.nodes n = some node := by
  unfold PTree.deref
  cases tree.nodes n with
  | none => simp
  | some found => simp [pure, Except.pure]

@[simp] theorem store_nodes : (tree.store n node).nodes m = if m = n then some node else tree.nodes m := rfl

@[simp] theorem store_root : (tree.store n node).root = tree.root := rfl

@[simp] theorem store_allocated : (tree.store n node).allocated = tree.allocated := rfl

@[simp] theorem store_ptreeNode : (tree.store n node).ptreeNode = tree.ptreeNode := rfl

@[simp] theorem free_nodes : (tree.free n).nodes m = if m = n then none else tree.nodes m := rfl

@[simp] theorem free_root : (tree.free n).root = tree.root := rfl

@[simp] theorem free_allocated : (tree.free n).allocated = tree.allocated := rfl

@[simp] theorem free_ptreeNode : (tree.free n).ptreeNode = tree.ptreeNode := rfl

end Heap

theorem initial_mirroring (s : StateId) : Mirroring (PTree.initial s) [s] := by
  refine ⟨⟨?_, ?_, ?_, ?_, ?_, ?_⟩, none, ⟨?_, ?_, ?_, ?_⟩, nofun⟩ <;>
    simp [PTree.initial, PTree.make, PTreeNode.Childless] <;> grind

theorem System.initial_valid (s : StateId) : (System.initial s).Valid :=
  ⟨initial_mirroring s, by simp [System.initial], by simp [System.initial]⟩

/-- What attaching leaves: the leaf has become the parent of two new leaves. -/
def PTree.attached (tree : PTree) (n : Nat) (node : PTreeNode)
    (leftState rightState : StateId) : PTree where
  root := tree.root
  nodes := fun m =>
    if m = n then some ⟨node.parent, some tree.allocated, some (tree.allocated + 1), none⟩
    else if m = tree.allocated + 1 then some ⟨some n, none, none, some rightState⟩
    else if m = tree.allocated then some ⟨some n, none, none, some leftState⟩
    else tree.nodes m
  allocated := tree.allocated + 2
  ptreeNode := fun s =>
    if s = rightState then some (tree.allocated + 1)
    else if s = leftState then some tree.allocated else tree.ptreeNode s

variable {current : PTreeNode}

section Attach

variable {tree : PTree} {live : List StateId} {n : Nat} {node : PTreeNode} {s created : StateId}

theorem attach_eq (found : tree.nodes n = some node) (childless : node.Childless) :
    tree.attach n created s = .ok (tree.attached n node created s) := by
  rw [PTree.attach, deref_eq_ok.mpr found]
  simp only [bind, Except.bind, if_pos childless]
  rfl

@[simp] theorem attached_self : (tree.attached n node created s).nodes n =
    some ⟨node.parent, some tree.allocated, some (tree.allocated + 1), none⟩ := by
  simp [PTree.attached]

theorem attached_left (old : n < tree.allocated) :
    (tree.attached n node created s).nodes tree.allocated = some ⟨some n, none, none, some created⟩ := by
  simp [PTree.attached, Nat.ne_of_gt old]

theorem attached_right (old : n < tree.allocated) :
    (tree.attached n node created s).nodes (tree.allocated + 1) = some ⟨some n, none, none, some s⟩ := by
  have different : tree.allocated + 1 ≠ n := by omega
  simp [PTree.attached, different]

theorem attached_other {m : Nat} (different : m ≠ n) (known : m < tree.allocated) :
    (tree.attached n node created s).nodes m = tree.nodes m := by
  simp [PTree.attached, different, Nat.ne_of_lt known, Nat.ne_of_lt (Nat.lt_succ_of_lt known)]

theorem attached_cases (linked : Linked tree) {m : Nat} (atCurrent : (tree.attached n node created s).nodes m = some current) :
    (m = n ∧ current = ⟨node.parent, some tree.allocated, some (tree.allocated + 1), none⟩) ∨
    (m = tree.allocated + 1 ∧ current = ⟨some n, none, none, some s⟩) ∨
    (m = tree.allocated ∧ current = ⟨some n, none, none, some created⟩) ∨ (m ≠ n ∧ m < tree.allocated ∧ tree.nodes m = some current) := by
  simp only [PTree.attached] at atCurrent
  split at atCurrent
  · rename_i same
    exact .inl ⟨same, (Option.some.inj atCurrent).symm⟩
  · rename_i different
    split at atCurrent
    · rename_i same
      exact .inr (.inl ⟨same, (Option.some.inj atCurrent).symm⟩)
    · split at atCurrent
      · rename_i same
        exact .inr (.inr (.inl ⟨same, (Option.some.inj atCurrent).symm⟩))
      · exact .inr (.inr (.inr ⟨different, linked.bound m current atCurrent, atCurrent⟩))

theorem attached_parent (linked : Linked tree) (found : tree.nodes n = some node)
    (childless : node.Childless) {m p : Nat} (atCurrent : tree.nodes m = some current) (parent : current.parent = some p) :
    ∃ up, (tree.attached n node created s).nodes p = some up ∧ (up.left = some m ∨ up.right = some m) := by
  obtain ⟨up, atUp, below⟩ := linked.parent m current p atCurrent parent
  have different : p ≠ n := by
    rintro rfl
    obtain rfl : node = up := Option.some.inj (found.symm.trans atUp)
    rw [childless.1, childless.2] at below
    simp at below
  exact ⟨up, by rw [attached_other different (linked.bound p up atUp), atUp], below⟩

theorem Linked.attached (linked : Linked tree) (found : tree.nodes n = some node)
    (childless : node.Childless) : Linked (tree.attached n node created s) := by
  have old := linked.bound n node found
  refine ⟨?_, ?_, ?_, ?_, ?_, ?_⟩
  · obtain ⟨rootNode, rootFound, rootParent⟩ := linked.root
    by_cases same : tree.root = n
    · subst same
      obtain rfl : node = rootNode := Option.some.inj (found.symm.trans rootFound)
      exact ⟨_, attached_self, rootParent⟩
    · refine ⟨rootNode, ?_, rootParent⟩
      exact (attached_other same (linked.bound _ _ rootFound)).trans rootFound
  · intro m current p atCurrent parent
    rcases attached_cases linked atCurrent with ⟨rfl, rfl⟩ | ⟨rfl, rfl⟩ | ⟨rfl, rfl⟩ | ⟨_, _, before⟩
    · exact attached_parent linked found childless found parent
    · obtain rfl : n = p := Option.some.inj parent
      exact ⟨_, attached_self, .inr rfl⟩
    · obtain rfl : n = p := Option.some.inj parent
      exact ⟨_, attached_self, .inl rfl⟩
    · exact attached_parent linked found childless before parent
  · intro m current atCurrent parent
    rcases attached_cases linked atCurrent with ⟨rfl, rfl⟩ | ⟨rfl, rfl⟩ | ⟨rfl, rfl⟩ | ⟨_, _, before⟩
    · exact linked.orphan m node found parent
    · cases parent
    · cases parent
    · exact linked.orphan m current before parent
  · intro p up m atUp below
    rcases attached_cases linked atUp with ⟨rfl, rfl⟩ | ⟨rfl, rfl⟩ | ⟨rfl, rfl⟩ | ⟨_, _, before⟩
    · cases below with
      | inl left =>
        obtain rfl : tree.allocated = m := Option.some.inj left
        exact ⟨old, _, attached_left old, rfl⟩
      | inr right =>
        obtain rfl : tree.allocated + 1 = m := Option.some.inj right
        exact ⟨by omega, _, attached_right old, rfl⟩
    · simp at below
    · simp at below
    · obtain ⟨younger, current, atCurrent, parent⟩ := linked.child p up m before below
      by_cases same : m = n
      · subst same
        obtain rfl : node = current := Option.some.inj (found.symm.trans atCurrent)
        exact ⟨younger, _, attached_self, parent⟩
      · exact ⟨younger, current, (attached_other same (linked.bound m current atCurrent)).trans atCurrent, parent⟩
  · intro p up m atUp left right
    rcases attached_cases linked atUp with ⟨rfl, rfl⟩ | ⟨rfl, rfl⟩ | ⟨rfl, rfl⟩ | ⟨_, _, before⟩
    · have same : tree.allocated = tree.allocated + 1 := Option.some.inj (left.trans right.symm)
      omega
    · cases left
    · cases left
    · exact linked.apart p up m before left right
  · intro m current atCurrent
    show m < tree.allocated + 2
    rcases attached_cases linked atCurrent with ⟨rfl, _⟩ | ⟨rfl, _⟩ | ⟨rfl, _⟩ | ⟨_, known, _⟩ <;> omega

theorem Mirrors.attached (linked : Linked tree) (mirrors : Mirrors tree live none)
    (found : tree.nodes n = some node) (state : node.state = some s) (fresh : created ∉ live) :
    Mirrors (tree.attached n node created s) (created :: live) none := by
  have old := linked.bound n node found
  obtain ⟨isLive, atNode⟩ := mirrors.owned n node s found state nofun
  have different : created ≠ s := fun same => fresh (same ▸ isLive)
  have moved : ∀ other, (tree.attached n node created s).ptreeNode other =
      if other = s then some (tree.allocated + 1)
      else if other = created then some tree.allocated else tree.ptreeNode other := fun _ => rfl
  refine ⟨?_, ?_, ?_, ?_⟩
  · intro other member
    by_cases same : other = s
    · subst same
      exact ⟨_, _, by simp [moved], attached_right old, rfl, nofun⟩
    · by_cases new : other = created
      · subst new
        exact ⟨_, _, by simp [moved, same], attached_left old, rfl, nofun⟩
      · obtain ⟨m, current, atCurrent, foundCurrent, its, _⟩ := mirrors.placed other (by simpa [new] using member)
        have apart : m ≠ n := by
          rintro rfl
          obtain rfl : node = current := Option.some.inj (found.symm.trans foundCurrent)
          exact same (Option.some.inj (its.symm.trans state))
        exact ⟨m, current, by simp [moved, same, new, atCurrent],
          (attached_other apart (linked.bound m current foundCurrent)).trans foundCurrent,
          its, nofun⟩
  · intro m current other atCurrent its
    rcases attached_cases linked atCurrent with ⟨rfl, rfl⟩ | ⟨rfl, rfl⟩ | ⟨rfl, rfl⟩ | ⟨_, _, before⟩
    · cases its
    · exact ⟨rfl, rfl⟩
    · exact ⟨rfl, rfl⟩
    · exact mirrors.leaf m current other before its
  · intro m current other atCurrent its _
    rcases attached_cases linked atCurrent with ⟨rfl, rfl⟩ | ⟨rfl, rfl⟩ | ⟨rfl, rfl⟩ | ⟨apart, _, before⟩
    · cases its
    · obtain rfl : s = other := Option.some.inj its
      exact ⟨by simp [isLive], by simp [moved]⟩
    · obtain rfl : created = other := Option.some.inj its
      exact ⟨by simp, by simp [moved, different]⟩
    · obtain ⟨member, itsNode⟩ := mirrors.owned m current other before its nofun
      have notSame : other ≠ s := by
        rintro rfl
        exact apart (Option.some.inj (itsNode.symm.trans atNode))
      have notNew : other ≠ created := fun same => fresh (same ▸ member)
      exact ⟨by simp [member], by simp [moved, notSame, notNew, itsNode]⟩
  · intro m current atCurrent nobody _ barren
    rcases attached_cases linked atCurrent with ⟨rfl, rfl⟩ | ⟨rfl, rfl⟩ | ⟨rfl, rfl⟩ | ⟨_, _, before⟩
    · exact nomatch barren.1
    · cases nobody
    · cases nobody
    · exact mirrors.inner m current before nobody nofun barren

theorem Mirroring.noHole (mirroring : Mirroring tree live) (isLive : s ∈ live) : Mirrors tree live none := by
  obtain ⟨hole, mirrors, leftOver⟩ := mirroring.mirrors
  cases hole with
  | none => exact mirrors
  | some n =>
    rw [(leftOver n rfl).1] at isLive
    cases isLive

theorem attach_mirroring (mirroring : Mirroring tree live) (isLive : s ∈ live) (fresh : created ∉ live) :
    ∃ n result, tree.ptreeNode s = some n ∧ tree.attach n created s = .ok result ∧ Mirroring result (created :: live) := by
  have linked := mirroring.linked
  have mirrors := mirroring.noHole isLive
  obtain ⟨n, node, atNode, found, state, _⟩ := mirrors.placed s isLive
  have childless := mirrors.leaf n node s found state
  exact ⟨n, _, atNode, attach_eq found childless, linked.attached found childless, none, mirrors.attached linked found state fresh, nofun⟩

end Attach

structure CutFrom (up after : PTreeNode) (n : Nat) : Prop where
  parent : after.parent = up.parent
  state : after.state = up.state
  left : ∀ c : Nat, after.left = some c → up.left = some c
  right : ∀ c : Nat, after.right = some c → up.right = some c
  children : ∀ c : Nat, after.left = some c ∨ after.right = some c ↔
    (up.left = some c ∨ up.right = some c) ∧ c ≠ n

section Remove

variable {tree : PTree} {live : List StateId} {n p : Nat} {node up after : PTreeNode} {s : StateId}

def PTree.unlinked (tree : PTree) (p : Nat) (after : PTreeNode) (n : Nat) : PTree :=
  (tree.store p after).free n

theorem unlinked_nodes {m : Nat} : (tree.unlinked p after n).nodes m =
    if m = n then none else if m = p then some after else tree.nodes m := rfl

theorem unlinked_parent (different : p ≠ n) : (tree.unlinked p after n).nodes p = some after := by
  simp [unlinked_nodes, different]

theorem unlinked_other {m : Nat} (notGone : m ≠ n) (notUp : m ≠ p) : (tree.unlinked p after n).nodes m = tree.nodes m := by
  simp [unlinked_nodes, notGone, notUp]

theorem unlinked_cases {m : Nat} (atCurrent : (tree.unlinked p after n).nodes m = some current) :
    (m = p ∧ m ≠ n ∧ current = after) ∨ (m ≠ p ∧ m ≠ n ∧ tree.nodes m = some current) := by
  rw [unlinked_nodes] at atCurrent
  split at atCurrent
  · cases atCurrent
  · rename_i notGone
    split at atCurrent
    · rename_i same
      exact .inl ⟨same, notGone, (Option.some.inj atCurrent).symm⟩
    · rename_i different
      exact .inr ⟨different, notGone, atCurrent⟩

theorem unlink_eq (linked : Linked tree) (atUp : tree.nodes p = some up) (below : up.left = some n ∨ up.right = some n) :
    ∃ after, tree.unlink p n = .ok (tree.unlinked p after n) ∧ CutFrom up after n := by
  have apart := linked.apart p up
  by_cases left : up.left = some n
  · refine ⟨{ up with left := none }, ?_, rfl, rfl, nofun, fun _ same => same, fun c => ?_⟩
    · rw [PTree.unlink, deref_eq_ok.mpr atUp]
      simp only [bind, Except.bind, if_pos left]
      rfl
    · constructor
      · intro right
        have right : up.right = some c := by simpa using right
        refine ⟨.inr right, ?_⟩
        rintro rfl
        exact apart c atUp left right
      · rintro ⟨child, different⟩
        cases child with
        | inl same => exact absurd (Option.some.inj (same.symm.trans left)) different
        | inr right => exact .inr right
  · have right := below.resolve_left left
    refine ⟨{ up with right := none }, ?_, rfl, rfl, fun _ same => same, nofun, fun c => ?_⟩
    · rw [PTree.unlink, deref_eq_ok.mpr atUp]
      simp only [bind, Except.bind, if_neg left, if_pos right]
      rfl
    · constructor
      · intro child
        have child : up.left = some c := by simpa using child
        refine ⟨.inl child, ?_⟩
        rintro rfl
        exact left child
      · rintro ⟨child, different⟩
        cases child with
        | inl left => exact .inl left
        | inr same => exact absurd (Option.some.inj (same.symm.trans right)) different

theorem Linked.unlinked (linked : Linked tree) (found : tree.nodes n = some node)
    (parent : node.parent = some p) (childless : node.Childless)
    (atUp : tree.nodes p = some up) (younger : p < n) (cut : CutFrom up after n) : Linked (tree.unlinked p after n) := by
  have different : p ≠ n := by omega
  refine ⟨?_, ?_, ?_, ?_, ?_, ?_⟩
  · obtain ⟨rootNode, rootFound, rootParent⟩ := linked.root
    by_cases same : tree.root = p
    · refine ⟨after, (congrArg _ same).trans (unlinked_parent different), ?_⟩
      obtain rfl : rootNode = up := Option.some.inj (rootFound.symm.trans (same ▸ atUp))
      rw [cut.parent, rootParent]
    · refine ⟨rootNode, ?_, rootParent⟩
      refine (unlinked_other ?_ same).trans rootFound
      intro gone
      obtain rfl : rootNode = node := Option.some.inj (rootFound.symm.trans (gone ▸ found))
      rw [rootParent] at parent
      cases parent
  · intro m current q atCurrent itsParent
    have before : ∃ old, tree.nodes m = some old ∧ old.parent = some q ∧ m ≠ n := by
      rcases unlinked_cases atCurrent with ⟨rfl, notGone, rfl⟩ | ⟨_, notGone, before⟩
      · exact ⟨up, atUp, cut.parent ▸ itsParent, notGone⟩
      · exact ⟨current, before, itsParent, notGone⟩
    obtain ⟨old, atOld, oldParent, notGone⟩ := before
    obtain ⟨above, atAbove, below⟩ := linked.parent m old q atOld oldParent
    by_cases same : q = p
    · subst same
      obtain rfl : above = up := Option.some.inj (atAbove.symm.trans atUp)
      exact ⟨after, unlinked_parent different, (cut.children m).mpr ⟨below, notGone⟩⟩
    · refine ⟨above, (unlinked_other ?_ same).trans atAbove, below⟩
      rintro rfl
      obtain rfl : above = node := Option.some.inj (atAbove.symm.trans found)
      rw [childless.1, childless.2] at below
      simp at below
  · intro m current atCurrent orphan
    rcases unlinked_cases atCurrent with ⟨rfl, _, rfl⟩ | ⟨_, _, before⟩
    · exact linked.orphan m up atUp (cut.parent ▸ orphan)
    · exact linked.orphan m current before orphan
  · intro q above m atAbove below
    have before : ∃ old, tree.nodes q = some old ∧ (old.left = some m ∨ old.right = some m) ∧ m ≠ n := by
      rcases unlinked_cases atAbove with ⟨rfl, _, rfl⟩ | ⟨notUp, _, before⟩
      · exact ⟨up, atUp, (cut.children m).mp below⟩
      · refine ⟨above, before, below, ?_⟩
        rintro rfl
        obtain ⟨_, child, atChild, itsParent⟩ := linked.child q above m before below
        obtain rfl : child = node := Option.some.inj (atChild.symm.trans found)
        exact notUp (Option.some.inj (itsParent.symm.trans parent))
    obtain ⟨old, atOld, oldBelow, notGone⟩ := before
    obtain ⟨order, child, atChild, itsParent⟩ := linked.child q old m atOld oldBelow
    refine ⟨order, ?_⟩
    by_cases same : m = p
    · subst same
      obtain rfl : child = up := Option.some.inj (atChild.symm.trans atUp)
      exact ⟨after, unlinked_parent different, cut.parent.trans itsParent⟩
    · exact ⟨child, (unlinked_other notGone same).trans atChild, itsParent⟩
  · intro q above m atAbove left right
    rcases unlinked_cases atAbove with ⟨rfl, _, rfl⟩ | ⟨_, _, before⟩
    · exact linked.apart q up m atUp (cut.left m left) (cut.right m right)
    · exact linked.apart q above m before left right
  · intro m current atCurrent
    rcases unlinked_cases atCurrent with ⟨rfl, _, rfl⟩ | ⟨_, _, before⟩
    · exact linked.bound m up atUp
    · exact linked.bound m current before

theorem Mirrors.unlinked (mirrors : Mirrors tree live (some n)) (atUp : tree.nodes p = some up)
    (below : up.left = some n ∨ up.right = some n) (different : p ≠ n) (cut : CutFrom up after n) :
    Mirrors (tree.unlinked p after n) live (if after.Childless then some p else none) := by
  have stateless : up.state = none := by
    cases itsState : up.state with
    | none => rfl
    | some s =>
      have childless := mirrors.leaf p up s atUp itsState
      rw [childless.1, childless.2] at below
      simp at below
  refine ⟨?_, ?_, ?_, ?_⟩
  · intro s member
    obtain ⟨m, current, itsNode, atCurrent, its, notHole⟩ := mirrors.placed s member
    have notUp : m ≠ p := by
      rintro rfl
      obtain rfl : current = up := Option.some.inj (atCurrent.symm.trans atUp)
      rw [stateless] at its
      cases its
    have notGone : m ≠ n := fun same => notHole (congrArg some same.symm)
    refine ⟨m, current, itsNode, (unlinked_other notGone notUp).trans atCurrent, its, ?_⟩
    split
    · exact fun same => notUp (Option.some.inj same).symm
    · exact nofun
  · intro m current s atCurrent its
    rcases unlinked_cases atCurrent with ⟨rfl, _, rfl⟩ | ⟨_, _, before⟩
    · rw [cut.state, stateless] at its
      cases its
    · exact mirrors.leaf m current s before its
  · intro m current s atCurrent its _
    rcases unlinked_cases atCurrent with ⟨rfl, _, rfl⟩ | ⟨_, notGone, before⟩
    · rw [cut.state, stateless] at its
      cases its
    · exact mirrors.owned m current s before its fun same => notGone (Option.some.inj same).symm
  · intro m current atCurrent nobody notHole barren
    rcases unlinked_cases atCurrent with ⟨rfl, _, rfl⟩ | ⟨_, notGone, before⟩
    · rw [if_pos barren] at notHole
      exact notHole rfl
    · exact mirrors.inner m current before nobody (fun same => notGone (Option.some.inj same).symm) barren

theorem Linked.only_root (linked : Linked tree) (atRoot : tree.nodes tree.root = some node)
    (childless : node.Childless) (m : Nat) (current : PTreeNode) (atCurrent : tree.nodes m = some current) : m = tree.root := by
  induction m using Nat.strongRecOn generalizing current with
  | ind m ih =>
    cases itsParent : current.parent with
    | none => exact linked.orphan m current atCurrent itsParent
    | some q =>
      obtain ⟨above, atAbove, below⟩ := linked.parent m current q atCurrent itsParent
      obtain ⟨order, _⟩ := linked.child q above m atAbove below
      obtain rfl : q = tree.root := ih q order above atAbove
      obtain rfl : above = node := Option.some.inj (atAbove.symm.trans atRoot)
      rw [childless.1, childless.2] at below
      simp at below

theorem removeLoop_spec (linked : Linked tree) (mirrors : Mirrors tree live (some n))
    (found : tree.nodes n = some node) (childless : node.Childless) :
    ∃ result, Mirroring result live ∧ ∀ fuel, n < fuel → tree.removeLoop fuel n = .ok result := by
  induction n using Nat.strongRecOn generalizing tree node with
  | ind n ih =>
    cases parent : node.parent with
    | none =>
      obtain rfl := linked.orphan n node found parent
      refine ⟨tree, ⟨linked, some tree.root, mirrors, ?_⟩, ?_⟩
      · intro m same
        refine ⟨?_, linked.only_root found childless⟩
        cases live with
        | nil => rfl
        | cons s rest =>
          obtain ⟨m, current, _, atCurrent, _, notHole⟩ := mirrors.placed s (by simp)
          exact absurd (congrArg some (linked.only_root found childless m current atCurrent).symm) notHole
      · intro fuel enough
        cases fuel with
        | zero => omega
        | succ fuel =>
          rw [PTree.removeLoop, deref_eq_ok.mpr found]
          simp only [bind, Except.bind, parent]
          rfl
    | some p =>
      obtain ⟨up, atUp, below⟩ := linked.parent n node p found parent
      obtain ⟨younger, _⟩ := linked.child p up n atUp below
      have different : p ≠ n := Nat.ne_of_lt younger
      obtain ⟨after, unlinks, cut⟩ := unlink_eq linked atUp below
      have stillLinked := linked.unlinked found parent childless atUp younger cut
      have stillMirrors := mirrors.unlinked atUp below different cut
      have next : ∀ fuel, tree.removeLoop (fuel + 1) n =
          if after.Childless then (tree.unlinked p after n).removeLoop fuel p
          else .ok (tree.unlinked p after n) := by
        intro fuel
        rw [PTree.removeLoop, deref_eq_ok.mpr found]
        simp only [bind, Except.bind, parent, unlinks, deref_eq_ok.mpr (unlinked_parent different)]
        rfl
      by_cases barren : after.Childless
      · rw [if_pos barren] at stillMirrors
        obtain ⟨result, mirroring, returns⟩ := ih p younger stillLinked stillMirrors (unlinked_parent different) barren
        refine ⟨result, mirroring, ?_⟩
        intro fuel enough
        cases fuel with
        | zero => omega
        | succ fuel =>
          rw [next, if_pos barren]
          exact returns fuel (by omega)
      · rw [if_neg barren] at stillMirrors
        refine ⟨_, ⟨stillLinked, none, stillMirrors, nofun⟩, ?_⟩
        intro fuel enough
        cases fuel with
        | zero => omega
        | succ fuel => rw [next, if_neg barren]

theorem Mirrors.forget (mirrors : Mirrors tree live none) (distinct : live.Nodup)
    (isLive : s ∈ live) (itsNode : tree.ptreeNode s = some n) : Mirrors tree (live.erase s) (some n) := by
  refine ⟨?_, mirrors.leaf, ?_, ?_⟩
  · intro other member
    obtain ⟨different, before⟩ := distinct.mem_erase_iff.mp member
    obtain ⟨m, current, atOther, atCurrent, its, _⟩ := mirrors.placed other before
    refine ⟨m, current, atOther, atCurrent, its, ?_⟩
    intro same
    obtain rfl : n = m := Option.some.inj same
    obtain ⟨own, mine, atS, atOwn, itsS, _⟩ := mirrors.placed s isLive
    obtain rfl : n = own := Option.some.inj (itsNode.symm.trans atS)
    obtain rfl : current = mine := Option.some.inj (atCurrent.symm.trans atOwn)
    exact different (Option.some.inj (its.symm.trans itsS))
  · intro m current other atCurrent its notHole
    obtain ⟨member, atOther⟩ := mirrors.owned m current other atCurrent its nofun
    refine ⟨distinct.mem_erase_iff.mpr ⟨?_, member⟩, atOther⟩
    rintro rfl
    exact notHole (itsNode.symm.trans atOther)
  · intro m current atCurrent nobody _
    exact mirrors.inner m current atCurrent nobody nofun

theorem remove_mirroring (mirroring : Mirroring tree live) (distinct : live.Nodup) (isLive : s ∈ live) :
    ∃ n result, tree.ptreeNode s = some n ∧ Mirroring result (live.erase s) ∧ ∀ fuel, n < fuel → tree.remove fuel n = .ok result := by
  have mirrors := mirroring.noHole isLive
  obtain ⟨n, node, itsNode, found, state, _⟩ := mirrors.placed s isLive
  have childless := mirrors.leaf n node s found state
  obtain ⟨result, after, returns⟩ := removeLoop_spec mirroring.linked (mirrors.forget distinct isLive itsNode) found childless
  refine ⟨n, result, itsNode, after, ?_⟩
  intro fuel enough
  rw [PTree.remove, deref_eq_ok.mpr found]
  simp only [bind, Except.bind, if_pos childless]
  exact returns fuel enough

end Remove

theorem Mirrors.someChild {tree : PTree} {live : List StateId} {n : Nat} {node : PTreeNode}
    (mirrors : Mirrors tree live none) (found : tree.nodes n = some node)
    (nobody : node.state = none) : ¬ (node.left = none ∧ node.right = none) :=
  mirrors.inner n node found nobody nofun

/-- From every node the descent ends at a live state: children are younger, and only the
nodes of live states have none. -/
theorem selectLoop_spec {tree : PTree} {live : List StateId} (linked : Linked tree)
    (mirrors : Mirrors tree live none) (random : Nat → BitVec 32) {n : Nat} {node : PTreeNode}
    (found : tree.nodes n = some node) (flips : BitVec 32) (bits drawn : Nat) :
    ∃ s ∈ live, ∀ fuel, tree.allocated - n < fuel → selectLoop tree random fuel n flips bits drawn = .ok s := by
  generalize height : tree.allocated - n = above
  induction above using Nat.strongRecOn generalizing n node flips bits drawn with
  | ind above ih =>
    have bound := linked.bound n node found
    have descend : ∀ c : Nat, node.left = some c ∨ node.right = some c →
        ∀ flips bits drawn, ∃ s ∈ live, ∀ fuel, above - 1 < fuel → selectLoop tree random fuel c flips bits drawn = .ok s := by
      intro c below flips bits drawn
      obtain ⟨younger, child, atChild, _⟩ := linked.child n node c found below
      obtain ⟨s, member, returns⟩ := ih _ (by omega) atChild flips bits drawn rfl
      exact ⟨s, member, fun fuel enough => returns fuel (by omega)⟩
    have unfolds : ∀ {s : StateId} {rest : Nat → Except Fault StateId},
        (∀ fuel, selectLoop tree random (fuel + 1) n flips bits drawn = rest fuel) →
        (∀ fuel, above - 1 < fuel → rest fuel = .ok s) →
        ∀ fuel, above < fuel → selectLoop tree random fuel n flips bits drawn = .ok s := by
      intro s rest unfolded returns fuel enough
      cases fuel with
      | zero => omega
      | succ fuel => exact (unfolded fuel).trans (returns fuel (by omega))
    cases its : node.state with
    | some s =>
      refine ⟨s, (mirrors.owned n node s found its nofun).1, unfolds (show ∀ _, _ = Except.ok s from ?_) fun _ _ => rfl⟩
      intro fuel
      rw [selectLoop, deref_eq_ok.mpr found]
      simp only [bind, Except.bind, its]
      rfl
    | none =>
      cases left : node.left with
      | none =>
        cases right : node.right with
        | none => exact absurd ⟨left, right⟩ (mirrors.someChild found its)
        | some r =>
          obtain ⟨s, member, returns⟩ := descend r (.inr right) flips bits drawn
          refine ⟨s, member, unfolds ?_ returns⟩
          intro fuel
          rw [selectLoop, deref_eq_ok.mpr found]
          simp only [bind, Except.bind, its, left, right]
      | some l =>
        cases right : node.right with
        | none =>
          obtain ⟨s, member, returns⟩ := descend l (.inl left) flips bits drawn
          refine ⟨s, member, unfolds ?_ returns⟩
          intro fuel
          rw [selectLoop, deref_eq_ok.mpr found]
          simp only [bind, Except.bind, its, left, right]
        | some r =>
          obtain ⟨newFlips, newBits, newDrawn, refilled⟩ :
              ∃ newFlips newBits newDrawn, (newFlips, newBits, newDrawn) =
                if bits = 0 then (random drawn, 32, drawn + 1)
                else (flips, bits, drawn) := ⟨_, _, _, rfl⟩
          have below : ∀ c : Nat, c = (if newFlips.getLsbD (newBits - 1) then l else r) → node.left = some c ∨ node.right = some c := by
            intro c chosen
            split at chosen
            · exact .inl (chosen ▸ left)
            · exact .inr (chosen ▸ right)
          obtain ⟨s, member, returns⟩ := descend _ (below _ rfl) newFlips (newBits - 1) newDrawn
          refine ⟨s, member, unfolds ?_ returns⟩
          intro fuel
          rw [selectLoop, deref_eq_ok.mpr found]
          simp only [bind, Except.bind, its, left, right, ← refilled]

theorem selectState_live {tree : PTree} {live : List StateId} (mirroring : Mirroring tree live)
    (someLive : live ≠ []) (random : Nat → BitVec 32) : ∃ s ∈ live, Returns (selectState tree random) s := by
  obtain ⟨s, isLive⟩ := List.exists_mem_of_ne_nil live someLive
  obtain ⟨node, found, _⟩ := mirroring.linked.root
  obtain ⟨chosen, member, returns⟩ := selectLoop_spec mirroring.linked (mirroring.noHole isLive) random found 0#32 0 0
  exact ⟨chosen, member, tree.allocated - tree.root + 1, fun fuel enough =>
    returns fuel (by omega)⟩

variable {system : System}

/-- A permitted event has an outcome, and the tree mirrors the live states after it. -/
theorem System.Valid.step {event : Event} (valid : system.Valid) (permits : system.Permits event) :
    ∃ next, next.Valid ∧ Returns (fun fuel => system.step fuel event) next := by
  cases event with
  | fork s created =>
    obtain ⟨isLive, new⟩ := permits
    have fresh : created ∉ system.live := fun member => new (valid.known created member)
    obtain ⟨n, tree, itsNode, attached, mirroring⟩ := attach_mirroring valid.mirroring isLive fresh
    refine ⟨⟨tree, created :: system.live, created :: system.known⟩,
      ⟨mirroring, List.nodup_cons.mpr ⟨fresh, valid.distinct⟩, ?_⟩, 0, fun fuel _ => ?_⟩
    · intro other member
      cases List.mem_cons.mp member with
      | inl same => exact List.mem_cons.mpr (.inl same)
      | inr before => exact List.mem_cons_of_mem created (valid.known other before)
    · simp only [System.step, System.nodeOf, itsNode]
      simp only [bind, Except.bind, pure, Except.pure, attached]
  | remove s =>
    obtain ⟨n, tree, itsNode, mirroring, returns⟩ := remove_mirroring valid.mirroring valid.distinct permits
    refine ⟨⟨tree, system.live.erase s, system.known⟩, ⟨mirroring, valid.distinct.erase s, ?_⟩, n + 1, fun fuel enough => ?_⟩
    · exact fun other member => valid.known other (List.mem_of_mem_erase member)
    · simp only [System.step, System.nodeOf, itsNode]
      simp only [bind, Except.bind, pure, Except.pure, returns fuel enough]

inductive Reached (initialState : StateId) : System → Prop where
  | start : Reached initialState (System.initial initialState)
  | step {system next : System} {event : Event} : Reached initialState system →
      system.Permits event → Returns (fun fuel => system.step fuel event) next →
      Reached initialState next

theorem Reached.valid {initialState : StateId} (reached : Reached initialState system) :
    system.Valid := by
  induction reached with
  | start => exact System.initial_valid initialState
  | step _ permits returned ih =>
    obtain ⟨next, valid, returns⟩ := ih.step permits
    rw [returned.unique returns]
    exact valid

def PTree.Leaf (tree : PTree) (n : NodeId) : Prop :=
  ∃ node, tree.nodes n = some node ∧ node.Childless

/-- `ptreeNode` takes the live states one to one onto the leaves. -/
def System.LeavesAreLive (system : System) : Prop :=
  Set.BijOn system.tree.ptreeNode {s | s ∈ system.live}
    {place | ∃ n, place = some n ∧ system.tree.Leaf n}

/-- How the process tree of a system mirrors its states. -/
structure System.MirrorsStates (system : System) : Prop where
  leaves : system.live ≠ [] → system.LeavesAreLive
  states : ∀ s ∈ system.live, ∃ n node, system.tree.ptreeNode s = some n ∧
    system.tree.nodes n = some node ∧ node.state = some s
  nothingLeft : system.live = [] → ∀ n node, system.tree.nodes n = some node →
    n = system.tree.root ∧ node.Childless
  inner : ∀ n node, system.tree.nodes n = some node → node.state = none →
    n ≠ system.tree.root → ¬ node.Childless
  links : Linked system.tree
  descends : system.live ≠ [] → ∀ random, ∃ s ∈ system.live,
    Returns (selectState system.tree random) s
  goesOn : ∀ event, system.Permits event → ∃ next, Returns (fun fuel => system.step fuel event) next

theorem System.Valid.leavesAreLive (valid : system.Valid) (someLive : system.live ≠ []) :
    system.LeavesAreLive := by
  obtain ⟨s, isLive⟩ := List.exists_mem_of_ne_nil _ someLive
  have mirrors := valid.mirroring.noHole isLive
  refine ⟨?_, ?_, ?_⟩
  · intro other member
    obtain ⟨n, node, itsNode, found, its, _⟩ := mirrors.placed other member
    exact ⟨n, itsNode, node, found, mirrors.leaf n node other found its⟩
  · intro first firstLive second secondLive same
    obtain ⟨n, node, itsNode, found, its, _⟩ := mirrors.placed first firstLive
    obtain ⟨m, current, otherNode, atCurrent, others, _⟩ := mirrors.placed second secondLive
    obtain rfl : n = m := Option.some.inj (itsNode.symm.trans (same.trans otherNode))
    obtain rfl : node = current := Option.some.inj (found.symm.trans atCurrent)
    exact Option.some.inj (its.symm.trans others)
  · rintro place ⟨n, rfl, node, found, childless⟩
    cases its : node.state with
    | none => exact absurd childless (mirrors.inner n node found its nofun)
    | some other =>
      obtain ⟨member, itsNode⟩ := mirrors.owned n node other found its nofun
      exact ⟨other, member, itsNode⟩

theorem System.Valid.nothingLeft (valid : system.Valid) (noneLive : system.live = []) (n : Nat)
    (node : PTreeNode) (found : system.tree.nodes n = some node) : n = system.tree.root ∧ node.Childless := by
  have linked := valid.mirroring.linked
  obtain ⟨hole, mirrors, leftOver⟩ := valid.mirroring.mirrors
  have only : ∀ m current, system.tree.nodes m = some current → m = system.tree.root := by
    cases hole with
    | some h => exact (leftOver h rfl).2
    | none =>
      intro m current atCurrent
      obtain ⟨s, member, _⟩ := selectLoop_spec linked mirrors (fun _ => 0#32) atCurrent 0#32 0 0
      rw [noneLive] at member
      cases member
  refine ⟨only n node found, ?_⟩
  have noChild : ∀ c : Nat, ¬ (node.left = some c ∨ node.right = some c) := by
    intro c below
    obtain ⟨younger, child, atChild, _⟩ := linked.child n node c found below
    have atRootAgain := only c child atChild
    have here := only n node found
    exact Nat.ne_of_lt younger (here.trans atRootAgain.symm)
  constructor
  · cases left : node.left with
    | none => rfl
    | some c => exact absurd (.inl left) (noChild c)
  · cases right : node.right with
    | none => rfl
    | some c => exact absurd (.inr right) (noChild c)

/-- After every sequence of forks and removals the process tree mirrors the live states. -/
theorem process_tree_mirrors_states {initialState : StateId} {system : System}
    (reached : Reached initialState system) : system.MirrorsStates := by
  have valid := reached.valid
  refine ⟨valid.leavesAreLive, ?_, valid.nothingLeft, ?_, valid.mirroring.linked,
    selectState_live valid.mirroring, ?_⟩
  · intro s isLive
    obtain ⟨n, node, itsNode, found, its, _⟩ := (valid.mirroring.noHole isLive).placed s isLive
    exact ⟨n, node, itsNode, found, its⟩
  · intro n node found nobody notRoot
    obtain ⟨hole, mirrors, leftOver⟩ := valid.mirroring.mirrors
    refine mirrors.inner n node found nobody ?_
    rintro rfl
    exact notRoot ((leftOver n rfl).2 n node found)
  · intro event permits
    obtain ⟨next, _, returns⟩ := valid.step permits
    exact ⟨next, returns⟩

def forkedOnce : System where
  tree := (PTree.initial 0).attached 0 ⟨none, none, none, some 0⟩ 1 0
  live := [1, 0]
  known := [1, 0]

theorem process_tree_mirrors_states_forked : forkedOnce.MirrorsStates :=
  have permits : (System.initial 0).Permits (.fork 0 1) := by decide
  process_tree_mirrors_states (.step .start permits ⟨0, fun _ _ => rfl⟩)

/-- When the initial state is removed without a fork, its node stays as the root and still
points to it. -/
theorem root_outlives_last_state :
    ∃ system, Reached 0 system ∧ system.live = [] ∧
      system.tree.nodes system.tree.root = some ⟨none, none, none, some 0⟩ ∧
      ¬ system.LeavesAreLive := by
  have permits : (System.initial 0).Permits (.remove 0) := by decide
  refine ⟨⟨PTree.initial 0, [], [0]⟩, .step .start permits ⟨1, fun fuel enough => ?_⟩, rfl, rfl, ?_⟩
  · cases fuel with
    | zero => omega
    | succ fuel => rfl
  · intro bijection
    obtain ⟨s, member, _⟩ := bijection.2.2 ⟨0, rfl, ⟨none, none, none, some 0⟩, rfl, rfl, rfl⟩
    cases member

end NeuroMerge.ProcessTree
