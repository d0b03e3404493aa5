import Mathlib.Data.Finset.Sort

/-!
# Maps from sets

`MapOfSets` stores a value for each of some finite sets. It is a tree whose paths are the
sets in ascending order.
-/

namespace NeuroMerge.MapOfSets

mutual

inductive Node (κ ν : Type) where
  | mk (value : ν) (isEndOfSet : Bool) (children : Children κ ν)

/-- The elements of `std::map<K, Node>` from some place on, in the order of the keys. An
iterator of the map is the rest that begins with what it points to. -/
inductive Children (κ ν : Type) where
  | nil
  | cons (key : κ) (child : Node κ ν) (rest : Children κ ν)

end

variable {κ ν : Type}

namespace Node

def value : Node κ ν → ν
  | mk value _ _ => value

def isEndOfSet : Node κ ν → Bool
  | mk _ isEndOfSet _ => isEndOfSet

def children : Node κ ν → Children κ ν
  | mk _ _ children => children

def stored : Node κ ν → Option ν
  | mk value isEndOfSet _ => if isEndOfSet then some value else none

def empty [Inhabited ν] : Node κ ν := mk default false .nil

end Node

section Insert

variable [LinearOrder κ] [Inhabited ν]

/-- The child with the key, which is a new node if there is none, is changed. -/
def Children.update (key : κ) (change : Node κ ν → Node κ ν) : Children κ ν → Children κ ν
  | .nil => .cons key (change .empty) .nil
  | .cons other child rest =>
    if key < other then .cons key (change .empty) (.cons other child rest)
    else if key = other then .cons other (change child) rest
    else .cons other child (rest.update key change)

/-- `insert`, for the elements of the set that are still to be followed. -/
def Node.insert (value : ν) : List κ → Node κ ν → Node κ ν
  | [], .mk _ _ children => .mk value true children
  | element :: set, .mk old isEndOfSet children =>
    .mk old isEndOfSet (children.update element (Node.insert value set))

end Insert

section Lookup

variable [DecidableEq κ]

def Children.find (key : κ) : Children κ ν → Option (Node κ ν)
  | .nil => none
  | .cons other child rest => if key = other then some child else rest.find key

def Node.lookup : List κ → Node κ ν → Option ν
  | [], node => node.stored
  | element :: set, node => (node.children.find element).bind (Node.lookup set)

/-- The set that has been followed to this node, if it ends here. -/
def Node.report (accum : Finset κ) (node : Node κ ν) : List (Finset κ × ν) :=
  match node.stored with
  | some value => [(accum, value)]
  | none => []

/-- The loop of `findSubsets` over the elements of the set. -/
def subsetLoop : List κ → Node κ ν → Finset κ → List (Finset κ × ν)
  | [], _, _ => []
  | elt :: set, n, accum =>
    -- `findSubsets` of the child, if there is one, and the elements behind
    (n.children.find elt).elim []
      (fun child => child.report (insert elt accum) ++ subsetLoop set child (insert elt accum)) ++
    subsetLoop set n accum

def Node.findSubsets (n : Node κ ν) (accum : Finset κ) (set : List κ) : List (Finset κ × ν) :=
  n.report accum ++ subsetLoop set n accum

end Lookup

section Search

variable [LinearOrder κ]

mutual

def Node.findSupersets : Node κ ν → Finset κ → List κ → List (Finset κ × ν)
  | .mk value isEndOfSet children, accum, [] =>
    (Node.mk value isEndOfSet children).report accum ++ children.findSupersets accum []
  | .mk _ _ children, accum, elt :: set => children.findSupersets accum (elt :: set)

def Children.findSupersets : Children κ ν → Finset κ → List κ → List (Finset κ × ν)
  | .nil, _, _ => []
  | .cons key child rest, accum, [] =>
    child.findSupersets (insert key accum) [] ++ rest.findSupersets accum []
  | .cons key child rest, accum, elt :: set =>
    if elt = key then
      child.findSupersets (insert key accum) set ++ rest.findSupersets accum (elt :: set)
    else if key < elt then
      child.findSupersets (insert key accum) (elt :: set) ++ rest.findSupersets accum (elt :: set)
    else
      []

end

variable (p : ν → Bool)

mutual

def Node.findSubset : Node κ ν → List κ → Option ν
  | .mk value isEndOfSet children, set =>
    if isEndOfSet ∧ p value then some value else children.findSubset set

/-- The loop of `findSubset`. A round is for one child: elements below its key are skipped,
and a child whose key is below the element is passed over. -/
def Children.findSubset : Children κ ν → List κ → Option ν
  | .nil, _ => none
  | .cons key child rest, set =>
    match set.dropWhile (· < key) with
    | [] => none
    | it :: set =>
      if it = key then (child.findSubset set).or (rest.findSubset set)
      else rest.findSubset (it :: set)

end

mutual

def Node.findSuperset : Node κ ν → List κ → Option ν
  | .mk value isEndOfSet children, [] =>
    if isEndOfSet ∧ p value then some value else children.findSuperset []
  | .mk _ _ children, elt :: set =>
    (children.findSuperset (elt :: set)).or (children.findSupersetAt elt set)

/-- The loops of `findSuperset` over all children. -/
def Children.findSuperset : Children κ ν → List κ → Option ν
  | .nil, _ => none
  | .cons _ child rest, set => (child.findSuperset set).or (rest.findSuperset set)

/-- The search below the child with the key `elt`, which is `kmid` if there is one. -/
def Children.findSupersetAt : Children κ ν → κ → List κ → Option ν
  | .nil, _, _ => none
  | .cons key child rest, elt, set =>
    if elt = key then child.findSuperset set else rest.findSupersetAt elt set

end

end Search

section Iteration

/-- `MapOfSets::iterator`. The last element of the stack is the first of the list. -/
structure Iterator (κ ν : Type) where
  root : Node κ ν
  onEntry : Bool
  stack : List (Children κ ν)

/-- The first loop of `step`, down from a node. -/
def Node.descend : Node κ ν → List (Children κ ν) → Bool × List (Children κ ν)
  | .mk _ _ .nil, stack => (false, stack)
  | .mk _ _ (.cons key child rest), stack =>
    if child.isEndOfSet then (true, .cons key child rest :: stack)
    else child.descend (.cons key child rest :: stack)

/-- The inner loop of `step`, down to the first set. It fails where the assertion does. -/
def Node.firstSet : Node κ ν → List (Children κ ν) → Option (List (Children κ ν))
  | .mk _ true _, stack => some stack
  | .mk _ false .nil, _ => none
  | .mk _ false (.cons key child rest), stack => child.firstSet (.cons key child rest :: stack)

/-- The second loop of `step`. -/
def climb : List (Children κ ν) → Option (Bool × List (Children κ ν))
  | [] => some (false, [])
  | .nil :: _ => none
  | .cons _ _ .nil :: stack => climb stack
  | .cons _ _ (.cons key child rest) :: stack => do
    let stack ← child.firstSet (.cons key child rest :: stack)
    some (true, stack)

def Children.key? : Children κ ν → Option κ
  | .nil => none
  | .cons key _ _ => some key

def nodeAt (root : Node κ ν) : List (Children κ ν) → Node κ ν
  | .cons _ child _ :: _ => child
  | _ => root

namespace Iterator

def step (it : Iterator κ ν) : Option (Iterator κ ν) := do
  let (onEntry, stack) := if it.onEntry then (nodeAt it.root it.stack).descend it.stack else (false, it.stack)
  if onEntry then
    some { it with onEntry := true, stack := stack }
  else do
    let (onEntry, stack) ← climb stack
    some { it with onEntry := onEntry, stack := stack }

def begin (root : Node κ ν) : Option (Iterator κ ν) :=
  let it : Iterator κ ν := ⟨root, true, []⟩
  if root.isEndOfSet then some it else it.step

def isEnd (it : Iterator κ ν) : Bool := !it.onEntry && it.stack.isEmpty

variable [DecidableEq κ]

def deref (it : Iterator κ ν) : Option (Finset κ × ν) :=
  if it.isEnd then none
  else some ((it.stack.filterMap Children.key?).toFinset, (nodeAt it.root it.stack).value)

/-- `for (; it != end(); ++it)`, with so many rounds at most. -/
def collect : Nat → Iterator κ ν → Option (List (Finset κ × ν))
  | 0, _ => none
  | fuel + 1, it =>
    if it.isEnd then some []
    else do
      let entry ← it.deref
      let entries ← (← it.step).collect fuel
      some (entry :: entries)

end Iterator

end Iteration

end NeuroMerge.MapOfSets
