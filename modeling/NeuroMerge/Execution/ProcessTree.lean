import NeuroMerge.Foundations.Fuel

/-!
# The process tree

`PTree`, which records the forks of the states, the descent of
`RandomPathSearcher` through it, and the forks and removals by which the
executor changes it. Pointers are identifiers that are never used twice; a
freed node is `none` in `nodes`.
-/

namespace NeuroMerge.ProcessTree

abbrev NodeId := Nat

abbrev StateId := Nat

inductive Fault where
  | useAfterFree
  | nullDereference
  | assertion
  | outOfFuel
  deriving DecidableEq, Repr

structure PTreeNode where
  parent : Option NodeId
  left : Option NodeId
  right : Option NodeId
  state : Option StateId
  deriving DecidableEq, Repr

/-- The nodes of the tree and, for every state, its `ptreeNode`. `allocated` is
the number of nodes allocated so far. -/
structure PTree where
  root : NodeId
  nodes : NodeId → Option PTreeNode
  allocated : Nat
  ptreeNode : StateId → Option NodeId

def PTreeNode.Childless (node : PTreeNode) : Prop := node.left = none ∧ node.right = none

instance (node : PTreeNode) : Decidable node.Childless :=
  inferInstanceAs (Decidable (_ ∧ _))

namespace PTree

def deref (tree : PTree) (n : NodeId) : Except Fault PTreeNode :=
  match tree.nodes n with
  | some node => pure node
  | none => throw .useAfterFree

def store (tree : PTree) (n : NodeId) (node : PTreeNode) : PTree :=
  { tree with nodes := fun m => if m = n then some node else tree.nodes m }

def free (tree : PTree) (n : NodeId) : PTree :=
  { tree with nodes := fun m => if m = n then none else tree.nodes m }

def make (tree : PTree) (parent : Option NodeId) (state : StateId) : PTree :=
  { tree with
    nodes := fun m =>
      if m = tree.allocated then some ⟨parent, none, none, some state⟩ else tree.nodes m
    allocated := tree.allocated + 1
    ptreeNode := fun s => if s = state then some tree.allocated else tree.ptreeNode s }

def initial (initialState : StateId) : PTree :=
  make ⟨0, fun _ => none, 0, fun _ => none⟩ none initialState

def attach (tree : PTree) (n : NodeId) (leftState rightState : StateId) : Except Fault PTree := do
  let node ← tree.deref n
  if node.Childless then
    let left := tree.allocated
    let right := tree.allocated + 1
    let tree := (tree.make (some n) leftState).make (some n) rightState
    pure (tree.store n { node with left := some left, right := some right, state := none })
  else throw .assertion

/-- `p->left = nullptr` or `p->right = nullptr`, which frees the child. -/
def unlink (tree : PTree) (p n : NodeId) : Except Fault PTree := do
  let parent ← tree.deref p
  if parent.left = some n then
    pure ((tree.store p { parent with left := none }).free n)
  else if parent.right = some n then
    pure ((tree.store p { parent with right := none }).free n)
  else throw .assertion

def removeLoop : Nat → PTree → NodeId → Except Fault PTree
  | 0, _, _ => throw .outOfFuel
  | fuel + 1, tree, n => do
    let node ← tree.deref n
    match node.parent with
    | none => pure tree
    | some p => do
      let tree ← tree.unlink p n
      let parent ← tree.deref p
      if parent.Childless then removeLoop fuel tree p else pure tree

def remove (fuel : Nat) (tree : PTree) (n : NodeId) : Except Fault PTree := do
  let node ← tree.deref n
  if node.Childless then removeLoop fuel tree n else throw .assertion

end PTree

/-- The loop of `RandomPathSearcher::selectState`. `random` is what `getInt32`
returns the next times, of which `drawn` have been used. -/
def selectLoop (tree : PTree) (random : Nat → BitVec 32) :
    Nat → NodeId → BitVec 32 → Nat → Nat → Except Fault StateId
  | 0, _, _, _, _ => throw .outOfFuel
  | fuel + 1, n, flips, bits, drawn => do
    let node ← tree.deref n
    match node.state with
    | some state => pure state
    | none =>
      match node.left, node.right with
      | none, none => throw .nullDereference
      | none, some right => selectLoop tree random fuel right flips bits drawn
      | some left, none => selectLoop tree random fuel left flips bits drawn
      | some left, some right =>
        let (flips, bits, drawn) :=
          if bits = 0 then (random drawn, 32, drawn + 1) else (flips, bits, drawn)
        let bits := bits - 1
        selectLoop tree random fuel (if flips.getLsbD bits then left else right) flips bits drawn

def selectState (tree : PTree) (random : Nat → BitVec 32) (fuel : Nat) : Except Fault StateId :=
  selectLoop tree random fuel tree.root 0#32 0 0

/-- What the executor does to the process tree: a state forks into itself and
`created`, or is removed. -/
inductive Event where
  | fork (state created : StateId)
  | remove (state : StateId)
  deriving DecidableEq, Repr

/-- The tree, the states that are not yet removed and all states there have been. -/
structure System where
  tree : PTree
  live : List StateId
  known : List StateId

def System.initial (initialState : StateId) : System :=
  ⟨PTree.initial initialState, [initialState], [initialState]⟩

def System.nodeOf (system : System) (state : StateId) : Except Fault NodeId :=
  match system.tree.ptreeNode state with
  | some n => pure n
  | none => throw .nullDereference

/-- `processTree->attach(es->ptreeNode, ns, es)` for a fork and
`processTree->remove(es->ptreeNode)` for a removal. -/
def System.step (fuel : Nat) (system : System) : Event → Except Fault System
  | .fork state created => do
    let n ← system.nodeOf state
    let tree ← system.tree.attach n created state
    pure ⟨tree, created :: system.live, created :: system.known⟩
  | .remove state => do
    let n ← system.nodeOf state
    let tree ← system.tree.remove fuel n
    pure ⟨tree, system.live.erase state, system.known⟩

/-- Only live states fork or are removed, and a forked state is a new one. -/
def System.Permits (system : System) : Event → Prop
  | .fork state created => state ∈ system.live ∧ created ∉ system.known
  | .remove state => state ∈ system.live

instance (system : System) (event : Event) : Decidable (system.Permits event) :=
  match event with
  | .fork _ _ => inferInstanceAs (Decidable (_ ∧ _))
  | .remove _ => inferInstanceAs (Decidable (_ ∈ _))

end NeuroMerge.ProcessTree
