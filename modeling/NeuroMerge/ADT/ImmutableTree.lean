import Mathlib.Algebra.Ring.Nat
import Mathlib.Order.Lattice
import NeuroMerge.Foundations.Fuel

/-!
# The persistent tree

`ImmutableTree`: versions of a search tree share their nodes, which count the
references to them and are deleted with the last one. A node that is deleted is
`none` in `nodes`.
-/

namespace NeuroMerge.ImmutableTree

/-- `Node *`; `none` is the address of `terminator`. -/
abbrev Ptr := Option Nat

/-- `references` is an `unsigned`. -/
structure Node (ν : Type) where
  left : Ptr
  right : Ptr
  value : ν
  height : Nat
  references : Nat

/-- The nodes allocated so far, and `terminator.references`. -/
structure Heap (ν : Type) where
  nodes : List (Option (Node ν))
  terminatorReferences : Nat

inductive Fault where
  | useAfterFree
  | terminatorValue
  | terminatorDeleted
  | outOfFuel
  deriving DecidableEq, Repr

namespace Heap

variable {κ ν : Type}

/-- Only the terminator, whose constructor sets its counter to three. -/
def initial : Heap ν := ⟨[], 3⟩

def deref (heap : Heap ν) (n : Nat) : Except Fault (Node ν) :=
  match heap.nodes[n]? with
  | some (some node) => pure node
  | _ => throw .useAfterFree

def store (heap : Heap ν) (n : Nat) (node : Option (Node ν)) : Heap ν :=
  { heap with nodes := heap.nodes.set n node }

/-- The fields of the terminator point to itself, and its height is zero. -/
def left (heap : Heap ν) : Ptr → Except Fault Ptr
  | none => pure none
  | some n => (·.left) <$> heap.deref n

def right (heap : Heap ν) : Ptr → Except Fault Ptr
  | none => pure none
  | some n => (·.right) <$> heap.deref n

def height (heap : Heap ν) : Ptr → Except Fault Nat
  | none => pure 0
  | some n => (·.height) <$> heap.deref n

def value (heap : Heap ν) : Ptr → Except Fault ν
  | none => throw .terminatorValue
  | some n => (·.value) <$> heap.deref n

def incref (heap : Heap ν) : Ptr → Except Fault (Heap ν)
  | none => pure { heap with terminatorReferences := (heap.terminatorReferences + 1) % 2 ^ 32 }
  | some n => do
    let node ← heap.deref n
    pure (heap.store n (some { node with references := (node.references + 1) % 2 ^ 32 }))

/-- The node is out of reach as soon as its destructor releases its children. -/
def decref : Nat → Heap ν → Ptr → Except Fault (Heap ν)
  | 0, _, _ => throw .outOfFuel
  | _ + 1, heap, none =>
    if heap.terminatorReferences = 1 then throw .terminatorDeleted
    else pure { heap with terminatorReferences := (heap.terminatorReferences + (2 ^ 32 - 1)) % 2 ^ 32 }
  | fuel + 1, heap, some n => do
    let node ← heap.deref n
    if node.references = 1 then do
      let heap ← decref fuel (heap.store n none) node.left
      decref fuel heap node.right
    else pure (heap.store n (some { node with references := (node.references + (2 ^ 32 - 1)) % 2 ^ 32 }))

def newNode (heap : Heap ν) (left right : Ptr) (value : ν) : Except Fault (Ptr × Heap ν) := do
  let leftHeight ← heap.height left
  let rightHeight ← heap.height right
  let node : Node ν := ⟨left, right, value, max leftHeight rightHeight + 1, 1⟩
  pure (some heap.nodes.length, { heap with nodes := heap.nodes ++ [some node] })

/-- `balance` when the left tree is too high. -/
def balanceLeft (fuel : Nat) (heap : Heap ν) (left : Ptr) (value : ν) (right : Ptr) :
    Except Fault (Ptr × Heap ν) := do
  let ll ← heap.left left
  let lr ← heap.right left
  let leftValue ← heap.value left
  let llHeight ← heap.height ll
  let lrHeight ← heap.height lr
  if lrHeight ≤ llHeight then do
    let heap ← heap.incref lr
    let (nlr, heap) ← heap.newNode lr right value
    let heap ← heap.incref ll
    let (res, heap) ← heap.newNode ll nlr leftValue
    let heap ← decref fuel heap left
    pure (res, heap)
  else do
    let lrl ← heap.left lr
    let lrr ← heap.right lr
    let lrValue ← heap.value lr
    let heap ← heap.incref ll
    let heap ← heap.incref lrl
    let (nll, heap) ← heap.newNode ll lrl leftValue
    let heap ← heap.incref lrr
    let (nlr, heap) ← heap.newNode lrr right value
    let (res, heap) ← heap.newNode nll nlr lrValue
    let heap ← decref fuel heap left
    pure (res, heap)

/-- `balance` when the right tree is too high. -/
def balanceRight (fuel : Nat) (heap : Heap ν) (left : Ptr) (value : ν) (right : Ptr) :
    Except Fault (Ptr × Heap ν) := do
  let rl ← heap.left right
  let rr ← heap.right right
  let rightValue ← heap.value right
  let rlHeight ← heap.height rl
  let rrHeight ← heap.height rr
  if rlHeight ≤ rrHeight then do
    let heap ← heap.incref rl
    let (nrl, heap) ← heap.newNode left rl value
    let heap ← heap.incref rr
    let (res, heap) ← heap.newNode nrl rr rightValue
    let heap ← decref fuel heap right
    pure (res, heap)
  else do
    let rll ← heap.left rl
    let rlr ← heap.right rl
    let rlValue ← heap.value rl
    let heap ← heap.incref rll
    let (nrl, heap) ← heap.newNode left rll value
    let heap ← heap.incref rlr
    let heap ← heap.incref rr
    let (nrr, heap) ← heap.newNode rlr rr rightValue
    let (res, heap) ← heap.newNode nrl nrr rlValue
    let heap ← decref fuel heap right
    pure (res, heap)

/-- `Node::balance`, which takes over the references to both trees. -/
def balance (fuel : Nat) (heap : Heap ν) (left : Ptr) (value : ν) (right : Ptr) :
    Except Fault (Ptr × Heap ν) := do
  let leftHeight ← heap.height left
  let rightHeight ← heap.height right
  if rightHeight + 2 < leftHeight then balanceLeft fuel heap left value right
  else if leftHeight + 2 < rightHeight then balanceRight fuel heap left value right
  else heap.newNode left right value

/-- `Node::popMin`; the value that a popped terminator leaves in `valueOut` is `none`. -/
def popMin : Nat → Heap ν → Ptr → Except Fault (Option ν × Ptr × Heap ν)
  | 0, _, _ => throw .outOfFuel
  | _ + 1, heap, none => do
    let heap ← heap.incref none
    pure (none, none, heap)
  | fuel + 1, heap, some n => do
    let node ← heap.deref n
    match node.left with
    | none => do
      let heap ← heap.incref node.right
      pure (some node.value, node.right, heap)
    | some l => do
      let (valueOut, left, heap) ← popMin fuel heap (some l)
      let heap ← heap.incref node.right
      let (res, heap) ← balance fuel heap left node.value node.right
      pure (valueOut, res, heap)

def popMax : Nat → Heap ν → Ptr → Except Fault (Option ν × Ptr × Heap ν)
  | 0, _, _ => throw .outOfFuel
  | _ + 1, heap, none => do
    let heap ← heap.incref none
    pure (none, none, heap)
  | fuel + 1, heap, some n => do
    let node ← heap.deref n
    match node.right with
    | none => do
      let heap ← heap.incref node.left
      pure (some node.value, node.left, heap)
    | some r => do
      let heap ← heap.incref node.left
      let (valueOut, right, heap) ← popMax fuel heap (some r)
      let (res, heap) ← balance fuel heap node.left node.value right
      pure (valueOut, res, heap)

def newLeaf (heap : Heap ν) (v : ν) : Except Fault (Ptr × Heap ν) := do
  let heap ← heap.incref none
  let heap ← heap.incref none
  heap.newNode none none v

section Search

variable [LinearOrder κ] (key : ν → κ)

def insert : Nat → Heap ν → Ptr → ν → Except Fault (Ptr × Heap ν)
  | 0, _, _, _ => throw .outOfFuel
  | _ + 1, heap, none, v => heap.newLeaf v
  | fuel + 1, heap, some n, v => do
    let node ← heap.deref n
    if key v < key node.value then do
      let (left, heap) ← insert fuel heap node.left v
      let heap ← heap.incref node.right
      balance fuel heap left node.value node.right
    else if key node.value < key v then do
      let heap ← heap.incref node.left
      let (right, heap) ← insert fuel heap node.right v
      balance fuel heap node.left node.value right
    else do
      let heap ← heap.incref (some n)
      pure (some n, heap)

def replace : Nat → Heap ν → Ptr → ν → Except Fault (Ptr × Heap ν)
  | 0, _, _, _ => throw .outOfFuel
  | _ + 1, heap, none, v => heap.newLeaf v
  | fuel + 1, heap, some n, v => do
    let node ← heap.deref n
    if key v < key node.value then do
      let (left, heap) ← replace fuel heap node.left v
      let heap ← heap.incref node.right
      balance fuel heap left node.value node.right
    else if key node.value < key v then do
      let heap ← heap.incref node.left
      let (right, heap) ← replace fuel heap node.right v
      balance fuel heap node.left node.value right
    else do
      let heap ← heap.incref node.left
      let heap ← heap.incref node.right
      heap.newNode node.left node.right v

/-- The last case of `Node::remove`: the subtrees of the node are joined. -/
def removeRoot (fuel : Nat) (heap : Heap ν) (left right : Ptr) : Except Fault (Ptr × Heap ν) :=
  match left, right with
  | none, _ => do
    let heap ← heap.incref right
    pure (right, heap)
  | some _, none => do
    let heap ← heap.incref left
    pure (left, heap)
  | some _, some _ => do
    let (min, nr, heap) ← popMin fuel heap right
    match min with
    | none => throw .terminatorValue
    | some min => do
      let heap ← heap.incref left
      balance fuel heap left min nr

def remove : Nat → Heap ν → Ptr → κ → Except Fault (Ptr × Heap ν)
  | 0, _, _, _ => throw .outOfFuel
  | _ + 1, heap, none, _ => do
    let heap ← heap.incref none
    pure (none, heap)
  | fuel + 1, heap, some n, k => do
    let node ← heap.deref n
    if k < key node.value then do
      let (left, heap) ← remove fuel heap node.left k
      let heap ← heap.incref node.right
      balance fuel heap left node.value node.right
    else if key node.value < k then do
      let heap ← heap.incref node.left
      let (right, heap) ← remove fuel heap node.right k
      balance fuel heap node.left node.value right
    else removeRoot fuel heap node.left node.right

def lookup : Nat → Heap ν → Ptr → κ → Except Fault (Option ν)
  | 0, _, _, _ => throw .outOfFuel
  | _ + 1, _, none, _ => pure none
  | fuel + 1, heap, some n, k => do
    let node ← heap.deref n
    if k < key node.value then lookup fuel heap node.left k
    else if key node.value < k then lookup fuel heap node.right k
    else pure (some node.value)

/-- The loop of `ImmutableTree::lookup_previous`; `result` is the value of the last node
that was passed on the left. -/
def lookupPreviousLoop : Nat → Heap ν → Ptr → κ → Option ν → Except Fault (Option ν)
  | 0, _, _, _, _ => throw .outOfFuel
  | _ + 1, _, none, _, result => pure result
  | fuel + 1, heap, some n, k, result => do
    let node ← heap.deref n
    if k < key node.value then lookupPreviousLoop fuel heap node.left k result
    else if key node.value < k then lookupPreviousLoop fuel heap node.right k (some node.value)
    else pure (some node.value)

def lookupPrevious (fuel : Nat) (heap : Heap ν) (p : Ptr) (k : κ) : Except Fault (Option ν) :=
  lookupPreviousLoop key fuel heap p k none

def count (fuel : Nat) (heap : Heap ν) (p : Ptr) (k : κ) : Except Fault Nat := do
  let found ← lookup key fuel heap p k
  pure (if found.isSome then 1 else 0)

end Search

def size : Nat → Heap ν → Ptr → Except Fault Nat
  | 0, _, _ => throw .outOfFuel
  | _ + 1, _, none => pure 0
  | fuel + 1, heap, some n => do
    let node ← heap.deref n
    let left ← size fuel heap node.left
    let right ← size fuel heap node.right
    pure (left + 1 + right)

end Heap

/-- The versions of a tree: `none` is a version that was destroyed. -/
structure System (ν : Type) where
  heap : Heap ν
  versions : List (Option Ptr)

inductive Event (κ ν : Type) where
  | empty
  | copy (version : Nat)
  | insert (version : Nat) (value : ν)
  | replace (version : Nat) (value : ν)
  | remove (version : Nat) (key : κ)
  | popMin (version : Nat)
  | popMax (version : Nat)
  | destroy (version : Nat)

namespace System

variable {κ ν : Type} [LinearOrder κ] (key : ν → κ)

def initial : System ν := ⟨Heap.initial, []⟩

def node (system : System ν) (version : Nat) : Except Fault Ptr :=
  match system.versions[version]? with
  | some (some p) => pure p
  | _ => throw .useAfterFree

def push (system : System ν) (built : Ptr × Heap ν) : System ν :=
  ⟨built.2, system.versions ++ [some built.1]⟩

def step (fuel : Nat) (system : System ν) :
    Event κ ν → Except Fault (Option ν × System ν)
  | .empty => do
    let heap ← system.heap.incref none
    pure (none, system.push (none, heap))
  | .copy version => do
    let p ← system.node version
    let heap ← system.heap.incref p
    pure (none, system.push (p, heap))
  | .insert version value => do
    let p ← system.node version
    let built ← Heap.insert key fuel system.heap p value
    pure (none, system.push built)
  | .replace version value => do
    let p ← system.node version
    let built ← Heap.replace key fuel system.heap p value
    pure (none, system.push built)
  | .remove version k => do
    let p ← system.node version
    let built ← Heap.remove key fuel system.heap p k
    pure (none, system.push built)
  | .popMin version => do
    let p ← system.node version
    let (valueOut, built) ← Heap.popMin fuel system.heap p
    pure (valueOut, system.push built)
  | .popMax version => do
    let p ← system.node version
    let (valueOut, built) ← Heap.popMax fuel system.heap p
    pure (valueOut, system.push built)
  | .destroy version => do
    let p ← system.node version
    let heap ← Heap.decref fuel system.heap p
    pure (none, ⟨heap, system.versions.set version none⟩)

end System

end NeuroMerge.ImmutableTree
