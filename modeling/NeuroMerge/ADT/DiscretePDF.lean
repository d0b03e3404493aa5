import Mathlib.Algebra.Order.Ring.Rat
import NeuroMerge.Foundations.Fuel

/-!
# The discrete distribution

`DiscretePDF`: a red-black tree of items, with links to the parents, whose nodes
hold the sum of the weights below them. The weights are exact here. A node that
is deleted is `none`.
-/

namespace NeuroMerge.DiscretePDF

/-- `Node *` -/
abbrev Ptr := Option Nat

/-- `mark` is set when the node is red. -/
structure Node (τ : Type) where
  mark : Bool
  parent : Ptr
  left : Ptr
  right : Ptr
  key : τ
  weight : ℚ
  sumWeights : ℚ

inductive Fault where
  | nullDereference
  | useAfterFree
  | assertion
  | outOfFuel
  deriving DecidableEq, Repr

/-- The nodes, and `m_root`. -/
structure PDF (τ : Type) where
  nodes : Nat → Option (Node τ)
  allocated : Nat
  root : Ptr

/-- `Node **`: the field that points to a node. -/
inductive Place where
  | root
  | left (n : Nat)
  | right (n : Nat)
  deriving DecidableEq, Repr

def pointee : Ptr → Except Fault Nat
  | none => throw .nullDereference
  | some n => pure n

namespace PDF

variable {τ : Type}

def initial : PDF τ := ⟨fun _ => none, 0, none⟩

def empty (pdf : PDF τ) : Bool := pdf.root.isNone

def get (pdf : PDF τ) (n : Nat) : Except Fault (Node τ) :=
  match pdf.nodes n with
  | some node => pure node
  | none => throw .useAfterFree

def set (pdf : PDF τ) (n : Nat) (node : Option (Node τ)) : PDF τ :=
  { pdf with nodes := fun m => if m = n then node else pdf.nodes m }

def modify (pdf : PDF τ) (n : Nat) (change : Node τ → Node τ) : Except Fault (PDF τ) := do
  let node ← pdf.get n
  pure (pdf.set n (some (change node)))

/-- `markRed` and `markBlack` -/
def setMark (pdf : PDF τ) (p : Ptr) (red : Bool) : Except Fault (PDF τ) := do
  let n ← pointee p
  pdf.modify n ({ · with mark := red })

/-- `if (child) child->markBlack()` -/
def markChildBlack (pdf : PDF τ) (child : Ptr) : Except Fault (PDF τ) :=
  if child.isSome then pdf.setMark child false else pure pdf

/-- `leftIsBlack` and `rightIsBlack`: there is no child, or it is black. -/
def isBlack (pdf : PDF τ) : Ptr → Except Fault Bool
  | none => pure true
  | some n => (!·.mark) <$> pdf.get n

def sumOf (pdf : PDF τ) : Ptr → Except Fault ℚ
  | none => pure 0
  | some n => (·.sumWeights) <$> pdf.get n

def setSum (pdf : PDF τ) (n : Nat) : Except Fault (PDF τ) := do
  let node ← pdf.get n
  let left ← pdf.sumOf node.left
  let right ← pdf.sumOf node.right
  pure (pdf.set n (some { node with sumWeights := node.weight + left + right }))

def propogateSumsUp : Nat → PDF τ → Ptr → Except Fault (PDF τ)
  | 0, _, _ => throw .outOfFuel
  | _ + 1, pdf, none => pure pdf
  | fuel + 1, pdf, some n => do
    let pdf ← pdf.setSum n
    let node ← pdf.get n
    propogateSumsUp fuel pdf node.parent

def parentOf (pdf : PDF τ) (n : Nat) : Except Fault Nat := do
  let node ← pdf.get n
  pointee node.parent

def sibling (pdf : PDF τ) (n : Nat) : Except Fault Ptr := do
  let p ← pdf.parentOf n
  let parent ← pdf.get p
  pure (if parent.left = some n then parent.right else parent.left)

/-! ## Rotations -/

/-- `if (child) child->parent = p` -/
def setParent (pdf : PDF τ) (child : Ptr) (p : Ptr) : Except Fault (PDF τ) :=
  match child with
  | none => pure pdf
  | some c => pdf.modify c ({ · with parent := p })

/-- The part of `rotate` that moves a child of `n` to `p`. -/
def moveChild (pdf : PDF τ) (n p : Nat) : Except Fault (PDF τ) := do
  let node ← pdf.get n
  let parent ← pdf.get p
  if parent.left = some n then do
    let pdf ← pdf.modify p ({ · with left := node.right })
    let pdf ← pdf.modify n ({ · with right := some p })
    pdf.setParent node.right (some p)
  else do
    let pdf ← pdf.modify p ({ · with right := node.left })
    let pdf ← pdf.modify n ({ · with left := some p })
    pdf.setParent node.left (some p)

/-- The last part of `rotate`: `pp` gets `n` in the place of `p`. -/
def replaceChild (pdf : PDF τ) (pp : Ptr) (p n : Nat) : Except Fault (PDF τ) :=
  match pp with
  | none => pure { pdf with root := some n }
  | some pp => do
    let grand ← pdf.get pp
    if grand.left = some p then pdf.modify pp ({ · with left := some n })
    else pdf.modify pp ({ · with right := some n })

def rotate (pdf : PDF τ) (n : Nat) : Except Fault (PDF τ) := do
  let p ← pdf.parentOf n
  let parent ← pdf.get p
  let pdf ← pdf.modify n ({ · with parent := parent.parent })
  let pdf ← pdf.modify p ({ · with parent := some n })
  let pdf ← pdf.moveChild n p
  let pdf ← pdf.setSum n
  let pdf ← pdf.setSum p
  pdf.replaceChild parent.parent p n

/-- `split` below a red node `p`. -/
def splitBelowRed (pdf : PDF τ) (n p : Nat) : Except Fault (PDF τ) := do
  let pp ← pdf.parentOf p
  let pdf ← pdf.setMark (some pp) true
  let parent ← pdf.get p
  let grand ← pdf.get pp
  if (parent.left = some n ∧ grand.left = some p) ∨
      (parent.right = some n ∧ grand.right = some p) then do
    let pdf ← pdf.rotate p
    pdf.setMark (some p) false
  else do
    let pdf ← pdf.rotate n
    let pdf ← pdf.rotate n
    pdf.setMark (some n) false

def split (pdf : PDF τ) (n : Nat) : Except Fault (PDF τ) := do
  let node ← pdf.get n
  let pdf ← pdf.markChildBlack node.left
  let pdf ← pdf.markChildBlack node.right
  match node.parent with
  | none => pure pdf
  | some p => do
    let pdf ← pdf.setMark (some n) true
    let parent ← pdf.get p
    if parent.mark then pdf.splitBelowRed n p else pure pdf

/-- `lengthen` makes a red sibling the grandparent. -/
def lowerParent (pdf : PDF τ) (n : Nat) : Ptr → Except Fault (Ptr × PDF τ)
  | none => pure (none, pdf)
  | some s => do
    let node ← pdf.get s
    if node.mark then do
      let p ← pdf.parentOf n
      let pdf ← pdf.setMark (some p) true
      let pdf ← pdf.setMark (some s) false
      let pdf ← pdf.rotate s
      let sibling ← pdf.sibling n
      pure (sibling, pdf)
    else pure (some s, pdf)

/-- `lengthen` rotates a red near child of the sibling; the new sibling. -/
def raiseChild (pdf : PDF τ) (s child : Nat) : Except Fault (Nat × PDF τ) := do
  let pdf ← pdf.rotate child
  let pdf ← pdf.setMark (some s) true
  let up ← pdf.parentOf s
  let pdf ← pdf.setMark (some up) false
  pure (up, pdf)

/-- Before the last rotation of `lengthen` the far child of the sibling is red. -/
def turnSibling (pdf : PDF τ) (n s : Nat) : Except Fault (Nat × PDF τ) := do
  let p ← pdf.parentOf n
  let parent ← pdf.get p
  let node ← pdf.get s
  let leftIsBlack ← pdf.isBlack node.left
  let rightIsBlack ← pdf.isBlack node.right
  if parent.left = some n ∧ rightIsBlack then do
    let child ← pointee node.left
    pdf.raiseChild s child
  else if parent.right = some n ∧ leftIsBlack then do
    let child ← pointee node.right
    pdf.raiseChild s child
  else pure (s, pdf)

/-- The sibling takes the place and the colour of the parent. -/
def raiseSibling (pdf : PDF τ) (n s : Nat) : Except Fault (PDF τ) := do
  let pdf ← pdf.rotate s
  let p ← pdf.parentOf n
  let parent ← pdf.get p
  let pdf ← (if parent.mark then pdf.setMark (some s) true else pure pdf)
  let node ← pdf.get s
  let pdf ← pdf.setMark node.left false
  pdf.setMark node.right false

def lengthen : Nat → PDF τ → Nat → Except Fault (PDF τ)
  | 0, _, _ => throw .outOfFuel
  | fuel + 1, pdf, n => do
    let node ← pdf.get n
    if node.mark then pdf.setMark (some n) false
    else if node.parent.isSome then do
      let sibling ← pdf.sibling n
      let (sibling, pdf) ← pdf.lowerParent n sibling
      let p ← pdf.parentOf n
      match sibling with
      | none => lengthen fuel pdf p
      | some s => do
        let node ← pdf.get s
        let leftIsBlack ← pdf.isBlack node.left
        let rightIsBlack ← pdf.isBlack node.right
        if leftIsBlack && rightIsBlack then do
          let parent ← pdf.get p
          let pdf ← pdf.setMark (some s) true
          if parent.mark then pdf.setMark (some p) false else lengthen fuel pdf p
        else do
          let (s, pdf) ← pdf.turnSibling n s
          pdf.raiseSibling n s
    else pure pdf

/-! ## Items -/

section Items

variable [LinearOrder τ]

def read (pdf : PDF τ) : Place → Except Fault Ptr
  | .root => pure pdf.root
  | .left n => (·.left) <$> pdf.get n
  | .right n => (·.right) <$> pdf.get n

def write (pdf : PDF τ) (value : Ptr) : Place → Except Fault (PDF τ)
  | .root => pure { pdf with root := value }
  | .left n => pdf.modify n ({ · with left := value })
  | .right n => pdf.modify n ({ · with right := value })

/-- The loop of `lookup`. -/
def lookupFrom : Nat → PDF τ → τ → Place → Except Fault Place
  | 0, _, _, _ => throw .outOfFuel
  | fuel + 1, pdf, item, np => do
    let p ← pdf.read np
    match p with
    | none => pure np
    | some n => do
      let node ← pdf.get n
      if node.key = item then pure np
      else lookupFrom fuel pdf item (if item < node.key then .left n else .right n)

/-- `lookup`, and the node at the place that it gives. -/
def lookup (fuel : Nat) (pdf : PDF τ) (item : τ) : Except Fault (Place × Ptr) := do
  let np ← lookupFrom fuel pdf item .root
  let n ← pdf.read np
  pure (np, n)

/-- The loop of `insert`: the node that gets the new one as its child. -/
def descend : Nat → PDF τ → τ → Ptr → Ptr → Except Fault (Ptr × PDF τ)
  | 0, _, _, _, _ => throw .outOfFuel
  | _ + 1, pdf, _, p, none => pure (p, pdf)
  | fuel + 1, pdf, item, _, some n => do
    let node ← pdf.get n
    let leftIsBlack ← pdf.isBlack node.left
    let rightIsBlack ← pdf.isBlack node.right
    let pdf ← (if !leftIsBlack && !rightIsBlack then pdf.split n else pure pdf)
    let node ← pdf.get n
    if node.key = item then throw .assertion
    else descend fuel pdf item (some n) (if item < node.key then node.left else node.right)

def newNode (pdf : PDF τ) (item : τ) (weight : ℚ) (p : Ptr) : PDF τ :=
  { pdf.set pdf.allocated (some ⟨false, p, none, none, item, weight, 0⟩) with
    allocated := pdf.allocated + 1 }

/-- `insert` below the node that its loop gives. -/
def insertBelow (fuel : Nat) (item : τ) (weight : ℚ) (p : Ptr) (pdf : PDF τ) :
    Except Fault (PDF τ) :=
  let n := pdf.allocated
  let pdf := pdf.newNode item weight p
  match p with
  | none => propogateSumsUp fuel { pdf with root := some n } (some n)
  | some p => do
    let parent ← pdf.get p
    let pdf ← pdf.write (some n) (if item < parent.key then .left p else .right p)
    let pdf ← pdf.split n
    propogateSumsUp fuel pdf (some n)

def insert (fuel : Nat) (pdf : PDF τ) (item : τ) (weight : ℚ) : Except Fault (PDF τ) := do
  let (p, pdf) ← descend fuel pdf item none pdf.root
  insertBelow fuel item weight p pdf

/-- The loop of `remove` that finds the rightmost node. -/
def leftMax : Nat → PDF τ → Place → Except Fault Place
  | 0, _, _ => throw .outOfFuel
  | fuel + 1, pdf, leftMaxp => do
    let n ← pointee (← pdf.read leftMaxp)
    let node ← pdf.get n
    if node.right.isSome then leftMax fuel pdf (.right n) else pure leftMaxp

/-- The node at the place has at most one child, which takes the place. The node is not
linked any more when the rotations run, so its parent is read before. -/
def removeAt (fuel : Nat) (pdf : PDF τ) (np : Place) (n : Nat) : Except Fault (PDF τ) := do
  let node ← pdf.get n
  let child := if node.left.isSome then node.left else node.right
  let pdf ← pdf.write child np
  let pdf ← pdf.setParent child node.parent
  let pdf ← (match child with
    | some c => if node.mark then pure pdf else lengthen fuel pdf c
    | none => pure pdf)
  let pdf ← propogateSumsUp fuel pdf node.parent
  pure (pdf.set n none)

def remove (fuel : Nat) (pdf : PDF τ) (item : τ) : Except Fault (PDF τ) := do
  let (np, n) ← lookup fuel pdf item
  match n with
  | none => throw .assertion
  | some n => do
    let node ← pdf.get n
    if node.left.isSome then do
      let leftMaxp ← leftMax fuel pdf (.left n)
      let max ← pointee (← pdf.read leftMaxp)
      let maxNode ← pdf.get max
      let pdf ← pdf.modify n ({ · with key := maxNode.key, weight := maxNode.weight })
      removeAt fuel pdf leftMaxp max
    else removeAt fuel pdf np n

def update (fuel : Nat) (pdf : PDF τ) (item : τ) (weight : ℚ) : Except Fault (PDF τ) := do
  let (_, n) ← lookup fuel pdf item
  match n with
  | none => throw .assertion
  | some n => do
    let pdf ← pdf.modify n ({ · with weight := weight })
    propogateSumsUp fuel pdf (some n)

def inTree (fuel : Nat) (pdf : PDF τ) (item : τ) : Except Fault Bool := do
  let (_, n) ← lookup fuel pdf item
  pure n.isSome

def getWeight (fuel : Nat) (pdf : PDF τ) (item : τ) : Except Fault ℚ := do
  let (_, n) ← lookup fuel pdf item
  match n with
  | none => throw .assertion
  | some n => (·.weight) <$> pdf.get n

end Items

def chooseHere (node : Node τ) (w : ℚ) (onRight : Nat → ℚ → Except Fault τ) : Except Fault τ :=
  if w < node.weight then pure node.key
  else
    match node.right with
    | none => pure node.key
    | some right => onRight right (w - node.weight)

/-- The loop of `choose`. -/
def chooseFrom : Nat → PDF τ → Nat → ℚ → Except Fault τ
  | 0, _, _, _ => throw .outOfFuel
  | fuel + 1, pdf, n, w => do
    let node ← pdf.get n
    match node.left with
    | none => chooseHere node w (chooseFrom fuel pdf)
    | some left => do
      let leftNode ← pdf.get left
      if w < leftNode.sumWeights then chooseFrom fuel pdf left w
      else chooseHere node (w - leftNode.sumWeights) (chooseFrom fuel pdf)

def choose (fuel : Nat) (pdf : PDF τ) (p : ℚ) : Except Fault τ :=
  if p < 0 ∨ 1 ≤ p then throw .assertion
  else
    match pdf.root with
    | none => throw .assertion
    | some root => do
      let node ← pdf.get root
      chooseFrom fuel pdf root (node.sumWeights * p)

end PDF

inductive Event (τ : Type) where
  | insert (item : τ) (weight : ℚ)
  | update (item : τ) (weight : ℚ)
  | remove (item : τ)

def PDF.step {τ : Type} [LinearOrder τ] (fuel : Nat) (pdf : PDF τ) :
    Event τ → Except Fault (PDF τ)
  | .insert item weight => insert fuel pdf item weight
  | .update item weight => update fuel pdf item weight
  | .remove item => remove fuel pdf item

end NeuroMerge.DiscretePDF
