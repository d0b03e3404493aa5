import Mathlib.Data.Finmap
import Mathlib.Data.Finset.Max

/-!
# Height-balanced search trees

Search trees whose nodes store their heights and whose subtrees differ in height
by at most two. Rebalancing looks at the stored heights only. Values are ordered
by a key; the tree is read as a finite map from keys to values.
-/

namespace NeuroMerge

open List

inductive BalancedTree (ν : Type) where
  | leaf
  | node (left : BalancedTree ν) (value : ν) (right : BalancedTree ν) (height : Nat)
  deriving DecidableEq, Repr

namespace BalancedTree

variable {κ ν : Type}

def height : BalancedTree ν → Nat
  | leaf => 0
  | node _ _ _ height => height

@[simp] theorem height_leaf : (leaf : BalancedTree ν).height = 0 := rfl

@[simp] theorem height_node (left right : BalancedTree ν) (value : ν) (height : Nat) :
    (node left value right height).height = height := rfl

def branch (left : BalancedTree ν) (value : ν) (right : BalancedTree ν) : BalancedTree ν :=
  node left value right (max left.height right.height + 1)

/-- A node over two trees whose heights may differ by three. -/
def balance (left : BalancedTree ν) (value : ν) (right : BalancedTree ν) : BalancedTree ν :=
  if right.height + 2 < left.height then
    match left with
    | leaf => branch left value right
    | node outer top inner _ =>
      if inner.height ≤ outer.height then branch outer top (branch inner value right)
      else
        match inner with
        | leaf => branch outer top (branch inner value right)
        | node near middle far _ => branch (branch outer top near) middle (branch far value right)
  else if left.height + 2 < right.height then
    match right with
    | leaf => branch left value right
    | node inner top outer _ =>
      if inner.height ≤ outer.height then branch (branch left value inner) top outer
      else
        match inner with
        | leaf => branch (branch left value inner) top outer
        | node near middle far _ => branch (branch left value near) middle (branch far top outer)
  else branch left value right

def popMin : BalancedTree ν → Option ν × BalancedTree ν
  | leaf => (none, leaf)
  | node leaf value right _ => (some value, right)
  | node (node l v r h) value right _ =>
    ((popMin (node l v r h)).1, balance (popMin (node l v r h)).2 value right)

def popMax : BalancedTree ν → Option ν × BalancedTree ν
  | leaf => (none, leaf)
  | node left value leaf _ => (some value, left)
  | node left value (node l v r h) _ =>
    ((popMax (node l v r h)).1, balance left value (popMax (node l v r h)).2)

/-- Two trees without the value between them: the least value of the right one takes its
place. -/
def join (left right : BalancedTree ν) : BalancedTree ν :=
  match left, popMin right with
  | leaf, _ => right
  | node _ _ _ _, (none, _) => left
  | node _ _ _ _, (some least, rest) => balance left least rest

def size : BalancedTree ν → Nat
  | leaf => 0
  | node left _ right _ => left.size + 1 + right.size

def toList : BalancedTree ν → List ν
  | leaf => []
  | node left value right _ => left.toList ++ value :: right.toList

section Search

variable [LinearOrder κ] (key : ν → κ)

def insert : BalancedTree ν → ν → BalancedTree ν
  | leaf, v => branch leaf v leaf
  | node left value right h, v =>
    if key v < key value then balance (insert left v) value right
    else if key value < key v then balance left value (insert right v)
    else node left value right h

def replace : BalancedTree ν → ν → BalancedTree ν
  | leaf, v => branch leaf v leaf
  | node left value right _, v =>
    if key v < key value then balance (replace left v) value right
    else if key value < key v then balance left value (replace right v)
    else branch left v right

def remove : BalancedTree ν → κ → BalancedTree ν
  | leaf, _ => leaf
  | node left value right _, k =>
    if k < key value then balance (remove left k) value right
    else if key value < k then balance left value (remove right k)
    else join left right

def lookup : BalancedTree ν → κ → Option ν
  | leaf, _ => none
  | node left value right _, k =>
    if k < key value then lookup left k
    else if key value < k then lookup right k
    else some value

/-- The value of the greatest key that is not greater than the given one; `best` is the
last value passed on the way. -/
def lookupPrevious : BalancedTree ν → κ → Option ν → Option ν
  | leaf, _, best => best
  | node left value right _, k, best =>
    if k < key value then lookupPrevious left k best
    else if key value < k then lookupPrevious right k (some value)
    else some value

end Search

/-- The stored heights are right, and subtrees differ in height by at most two. -/
def Balanced : BalancedTree ν → Prop
  | leaf => True
  | node left _ right height =>
    height = max left.height right.height + 1 ∧ left.height ≤ right.height + 2 ∧
      right.height ≤ left.height + 2 ∧ left.Balanced ∧ right.Balanced

def Ordered [LinearOrder κ] (key : ν → κ) (tree : BalancedTree ν) : Prop :=
  tree.toList.Pairwise fun left right => key left < key right

section Balance

variable {left right : BalancedTree ν} {value : ν}

@[simp] theorem height_branch : (branch left value right).height = max left.height right.height + 1 := rfl

@[simp] theorem toList_branch : (branch left value right).toList = left.toList ++ value :: right.toList := rfl

@[simp] theorem toList_balance : (balance left value right).toList = left.toList ++ value :: right.toList := by
  unfold balance
  split
  · cases left with
    | leaf => rfl
    | node outer top inner _ =>
      dsimp only
      split
      · simp [toList]
      · cases inner with
        | leaf => simp [toList]
        | node near middle far _ => simp [toList]
  · split
    · cases right with
      | leaf => rfl
      | node inner top outer _ =>
        dsimp only
        split
        · simp [toList]
        · cases inner with
          | leaf => simp [toList]
          | node near middle far _ => simp [toList]
    · rfl

section Rotations

variable {near far outer inner : BalancedTree ν} {top middle : ν} {h g : Nat}

theorem balance_left_single (high : right.height + 2 < h) (single : inner.height ≤ outer.height) :
    balance (node outer top inner h) value right = branch outer top (branch inner value right) := by
  unfold balance
  rw [if_pos (by simpa using high)]
  dsimp only
  rw [if_pos single]

theorem balance_left_double (high : right.height + 2 < h) (double : outer.height < g) :
    balance (node outer top (node near middle far g) h) value right = branch (branch outer top near) middle (branch far value right) := by
  unfold balance
  rw [if_pos (by simpa using high)]
  dsimp only
  rw [if_neg (by simpa using double)]

theorem balance_right_single (high : left.height + 2 < h) (single : inner.height ≤ outer.height) :
    balance left value (node inner top outer h) = branch (branch left value inner) top outer := by
  unfold balance
  rw [if_neg (by simp only [height_node]; omega), if_pos (by simpa using high)]
  dsimp only
  rw [if_pos single]

theorem balance_right_double (high : left.height + 2 < h) (double : outer.height < g) :
    balance left value (node (node near middle far g) top outer h) = branch (branch left value near) middle (branch far top outer) := by
  unfold balance
  rw [if_neg (by simp only [height_node]; omega), if_pos (by simpa using high)]
  dsimp only
  rw [if_neg (by simpa using double)]

theorem balance_level (notLeft : left.height ≤ right.height + 2) (notRight : right.height ≤ left.height + 2) :
    balance left value right = branch left value right := by
  unfold balance
  rw [if_neg (by omega), if_neg (by omega)]

end Rotations

theorem Balanced.branch (leftBalanced : left.Balanced) (rightBalanced : right.Balanced)
    (notHigher : left.height ≤ right.height + 2) (notLower : right.height ≤ left.height + 2) : (branch left value right).Balanced :=
  ⟨rfl, notHigher, notLower, leftBalanced, rightBalanced⟩

/-- Rebalancing bears a difference of three. A rotation leaves the height of the higher
tree or adds one to it. -/
theorem balance_spec (value : ν) (leftBalanced : left.Balanced) (rightBalanced : right.Balanced)
    (notHigher : left.height ≤ right.height + 3) (notLower : right.height ≤ left.height + 3) :
    (balance left value right).Balanced ∧
      (balance left value right).height ≤ max left.height right.height + 1 ∧
      max left.height right.height ≤ (balance left value right).height ∧
      (left.height ≤ right.height + 2 → right.height ≤ left.height + 2 →
        (balance left value right).height = max left.height right.height + 1) := by
  unfold balance
  split
  · rename_i high
    cases left with
    | leaf => simp at high
    | node outer top inner h =>
      obtain ⟨height, outerBound, innerBound, outerBalanced, innerBalanced⟩ := leftBalanced
      simp only [height_node] at high notHigher notLower ⊢
      split
      · rename_i single
        refine ⟨?_, ?_, ?_, ?_⟩
        · refine .branch outerBalanced (.branch innerBalanced rightBalanced ?_ ?_) ?_ ?_
          all_goals
            try simp only [height_branch]
            omega
        all_goals
          simp only [height_branch]
          omega
      · rename_i double
        cases inner with
        | leaf => simp at double
        | node near middle far g =>
          obtain ⟨innerHeight, nearBound, farBound, nearBalanced, farBalanced⟩ := innerBalanced
          simp only [height_node] at height outerBound innerBound double
          refine ⟨?_, ?_, ?_, ?_⟩
          · refine .branch (.branch outerBalanced nearBalanced ?_ ?_) (.branch farBalanced rightBalanced ?_ ?_) ?_ ?_
            all_goals
              try simp only [height_branch]
              omega
          all_goals
            simp only [height_branch]
            omega
  · split
    · rename_i notLeft high
      cases right with
      | leaf => simp at high
      | node inner top outer h =>
        obtain ⟨height, innerBound, outerBound, innerBalanced, outerBalanced⟩ := rightBalanced
        simp only [height_node] at notLeft high notHigher notLower ⊢
        split
        · rename_i single
          refine ⟨?_, ?_, ?_, ?_⟩
          · refine .branch (.branch leftBalanced innerBalanced ?_ ?_) outerBalanced ?_ ?_
            all_goals
              try simp only [height_branch]
              omega
          all_goals
            simp only [height_branch]
            omega
        · rename_i double
          cases inner with
          | leaf => simp at double
          | node near middle far g =>
            obtain ⟨innerHeight, nearBound, farBound, nearBalanced, farBalanced⟩ := innerBalanced
            simp only [height_node] at height outerBound innerBound double
            refine ⟨?_, ?_, ?_, ?_⟩
            · refine .branch (.branch leftBalanced nearBalanced ?_ ?_) (.branch farBalanced outerBalanced ?_ ?_) ?_ ?_
              all_goals
                try simp only [height_branch]
                omega
            all_goals
              simp only [height_branch]
              omega
    · rename_i notLeft notRight
      refine ⟨.branch leftBalanced rightBalanced (by omega) (by omega), ?_, ?_, fun _ _ => height_branch⟩
      all_goals
        simp only [height_branch]
        omega

theorem balance_grown {h before : Nat} (leftBalanced : left.Balanced) (rightBalanced : right.Balanced) (height : h = before + 1)
    (bound : max left.height right.height ≤ before + 1) (notLess : before ≤ max left.height right.height)
    (notHigher : left.height ≤ right.height + 3) (notLower : right.height ≤ left.height + 3)
    (tall : left.height = right.height + 3 ∨ right.height = left.height + 3 →
      max left.height right.height = before + 1) :
    (balance left value right).Balanced ∧ h ≤ (balance left value right).height ∧ (balance left value right).height ≤ h + 1 := by
  obtain ⟨balanced, upper, lower, exact_⟩ := balance_spec value leftBalanced rightBalanced notHigher notLower
  refine ⟨balanced, ?_, by omega⟩
  by_cases close : left.height ≤ right.height + 2 ∧ right.height ≤ left.height + 2
  · have same := exact_ close.1 close.2
    omega
  · have high := tall (by omega)
    omega

theorem balance_shrunk {h before : Nat} (leftBalanced : left.Balanced)
    (rightBalanced : right.Balanced) (height : h = before + 1) (bound : max left.height right.height ≤ before)
    (notLess : before ≤ max left.height right.height + 1)
    (notHigher : left.height ≤ right.height + 3) (notLower : right.height ≤ left.height + 3)
    (tall : left.height = right.height + 3 ∨ right.height = left.height + 3 →
      max left.height right.height = before) :
    (balance left value right).Balanced ∧ h ≤ (balance left value right).height + 1 ∧ (balance left value right).height ≤ h := by
  obtain ⟨balanced, upper, lower, exact_⟩ := balance_spec value leftBalanced rightBalanced notHigher notLower
  refine ⟨balanced, ?_, by omega⟩
  by_cases close : left.height ≤ right.height + 2 ∧ right.height ≤ left.height + 2
  · have same := exact_ close.1 close.2
    omega
  · have high := tall (by omega)
    omega

end Balance

def Shrunk (before after : BalancedTree ν) : Prop :=
  after.Balanced ∧ before.height ≤ after.height + 1 ∧ after.height ≤ before.height

def Grown (before after : BalancedTree ν) : Prop :=
  after.Balanced ∧ before.height ≤ after.height ∧ after.height ≤ before.height + 1

section Steps

variable {l r other : BalancedTree ν} {value : ν} {h : Nat}

section

variable (balanced : (node l value r h).Balanced)
include balanced

theorem Grown.left (grown : Grown l other) : Grown (node l value r h) (balance other value r) := by
  obtain ⟨height, notHigher, notLower, leftBalanced, rightBalanced⟩ := balanced
  obtain ⟨otherBalanced, lower, upper⟩ := grown
  exact balance_grown otherBalanced rightBalanced height (by omega) (by omega) (by omega) (by omega) (by omega)

theorem Grown.right (grown : Grown r other) : Grown (node l value r h) (balance l value other) := by
  obtain ⟨height, notHigher, notLower, leftBalanced, rightBalanced⟩ := balanced
  obtain ⟨otherBalanced, lower, upper⟩ := grown
  exact balance_grown leftBalanced otherBalanced height (by omega) (by omega) (by omega) (by omega) (by omega)

theorem Shrunk.left (shrunk : Shrunk l other) (replacement : ν) : Shrunk (node l value r h) (balance other replacement r) := by
  obtain ⟨height, notHigher, notLower, leftBalanced, rightBalanced⟩ := balanced
  obtain ⟨otherBalanced, lower, upper⟩ := shrunk
  exact balance_shrunk otherBalanced rightBalanced height (by omega) (by omega) (by omega) (by omega) (by omega)

theorem Shrunk.right (shrunk : Shrunk r other) (replacement : ν) : Shrunk (node l value r h) (balance l replacement other) := by
  obtain ⟨height, notHigher, notLower, leftBalanced, rightBalanced⟩ := balanced
  obtain ⟨otherBalanced, lower, upper⟩ := shrunk
  exact balance_shrunk leftBalanced otherBalanced height (by omega) (by omega) (by omega) (by omega) (by omega)

end

theorem Shrunk.onlyRight (balanced : (node leaf value r h).Balanced) : Shrunk (node leaf value r h) r := by
  obtain ⟨height, _, _, _, rightBalanced⟩ := balanced
  simp only [height_leaf] at height
  exact ⟨rightBalanced, by simp only [height_node]; omega, by simp only [height_node]; omega⟩

theorem Shrunk.onlyLeft (balanced : (node l value leaf h).Balanced) : Shrunk (node l value leaf h) l := by
  obtain ⟨height, _, _, leftBalanced, _⟩ := balanced
  simp only [height_leaf] at height
  exact ⟨leftBalanced, by simp only [height_node]; omega, by simp only [height_node]; omega⟩

end Steps

section Pop

theorem popMin_shrunk {tree : BalancedTree ν} (balanced : tree.Balanced) : Shrunk tree (popMin tree).2 := by
  induction tree using popMin.induct with
  | case1 => exact ⟨trivial, by simp [popMin], by simp [popMin]⟩
  | case2 value right h => exact .onlyRight balanced
  | case3 l v r g value right h ih =>
    exact Shrunk.left balanced (ih balanced.2.2.2.1) value

theorem popMax_shrunk {tree : BalancedTree ν} (balanced : tree.Balanced) : Shrunk tree (popMax tree).2 := by
  induction tree using popMax.induct with
  | case1 => exact ⟨trivial, by simp [popMax], by simp [popMax]⟩
  | case2 left value h => exact .onlyLeft balanced
  | case3 left value l v r g h ih =>
    exact Shrunk.right balanced (ih balanced.2.2.2.2) value

theorem popMin_toList (tree : BalancedTree ν) (nonempty : tree ≠ leaf) :
    ∃ least, (popMin tree).1 = some least ∧ tree.toList = least :: (popMin tree).2.toList := by
  induction tree using popMin.induct with
  | case1 => exact absurd rfl nonempty
  | case2 value right h => exact ⟨value, rfl, rfl⟩
  | case3 l v r g value right h ih =>
    obtain ⟨least, popped, values⟩ := ih nofun
    refine ⟨least, popped, ?_⟩
    rw [popMin, toList_balance, toList, values]
    rfl

theorem popMax_toList (tree : BalancedTree ν) (nonempty : tree ≠ leaf) :
    ∃ greatest, (popMax tree).1 = some greatest ∧ tree.toList = (popMax tree).2.toList ++ [greatest] := by
  induction tree using popMax.induct with
  | case1 => exact absurd rfl nonempty
  | case2 left value h => exact ⟨value, rfl, rfl⟩
  | case3 left value l v r g h ih =>
    obtain ⟨greatest, popped, values⟩ := ih nofun
    refine ⟨greatest, popped, ?_⟩
    rw [popMax, toList_balance, toList, values]
    simp

theorem join_node {l r right : BalancedTree ν} {v least : ν} {h : Nat} (popped : (popMin right).1 = some least) :
    join (node l v r h) right = balance (node l v r h) least (popMin right).2 := by
  have pair : popMin right = (some least, (popMin right).2) := Prod.ext popped rfl
  unfold join
  rw [pair]

theorem toList_join (left right : BalancedTree ν) : (join left right).toList = left.toList ++ right.toList := by
  cases left with
  | leaf => rfl
  | node l v r h =>
    cases right with
    | leaf => simp [join, popMin, toList]
    | node l' v' r' h' =>
      obtain ⟨least, popped, values⟩ := popMin_toList (node l' v' r' h') nofun
      rw [join_node popped, toList_balance, values]

theorem join_shrunk {left right : BalancedTree ν} {value : ν} {h : Nat} (balanced : (node left value right h).Balanced) :
    Shrunk (node left value right h) (join left right) := by
  cases left with
  | leaf => exact .onlyRight balanced
  | node l v r g =>
    cases right with
    | leaf => exact .onlyLeft balanced
    | node l' v' r' h' =>
      have shrunk := popMin_shrunk balanced.2.2.2.2
      obtain ⟨least, popped, _⟩ := popMin_toList (node l' v' r' h') nofun
      rw [join_node popped]
      exact .right balanced shrunk least

end Pop

section Search

variable [LinearOrder κ] {key : ν → κ} {l r tree : BalancedTree ν} {value v x : ν} {h : Nat} {k : κ}

theorem ordered_node : (node l value r h).Ordered key ↔
    l.Ordered key ∧ r.Ordered key ∧ (∀ x ∈ l.toList, key x < key value) ∧ ∀ x ∈ r.toList, key value < key x := by
  simp only [Ordered, toList, pairwise_append, pairwise_cons, mem_cons, forall_eq_or_imp]
  constructor
  · rintro ⟨left, ⟨above, right⟩, apart⟩
    exact ⟨left, right, fun x member => (apart x member).1, above⟩
  · rintro ⟨left, right, below, above⟩
    exact ⟨left, ⟨above, right⟩, fun x member =>
      ⟨below x member, fun y later => (below x member).trans (above y later)⟩⟩

/-- The values `before` and `after` a place in a tree, with what is there. -/
def around (before after : List ν) (here : Option ν) : List ν := before ++ (here.toList ++ after)

/-- The place that the search for `k` leads to, and what the operations make of it. -/
structure Split (key : ν → κ) (tree : BalancedTree ν) (k : κ) (before after : List ν) : Prop where
  below : ∀ x ∈ before, key x < k
  above : ∀ x ∈ after, k < key x
  found : ∀ x, lookup key tree k = some x → key x = k
  values : tree.toList = around before after (lookup key tree k)
  insert : ∀ v, key v = k →
    (insert key tree v).toList = around before after (some ((lookup key tree k).getD v))
  replace : ∀ v, key v = k → (replace key tree v).toList = around before after (some v)
  remove : (remove key tree k).toList = around before after none
  previous : ∀ best, lookupPrevious key tree k best =
    ((lookup key tree k).or before.getLast?).or best

theorem exists_split (ordered : tree.Ordered key) (k : κ) : ∃ before after, Split key tree k before after := by
  induction tree with
  | leaf => exact ⟨[], [], nofun, nofun, nofun, rfl, fun _ _ => rfl, fun _ _ => rfl, rfl, fun _ => rfl⟩
  | node l value r h leftIH rightIH =>
    obtain ⟨leftOrdered, rightOrdered, below, above⟩ := ordered_node.mp ordered
    rcases lt_trichotomy k (key value) with less | same | greater
    · obtain ⟨before, after, split⟩ := leftIH leftOrdered
      have looked : lookup key (node l value r h) k = lookup key l k := by
        rw [lookup, if_pos less]
      refine ⟨before, after ++ value :: r.toList, split.below, ?_, looked ▸ split.found, ?_,
        fun v its => ?_, fun v its => ?_, ?_, fun best => ?_⟩
      · simp only [mem_append, mem_cons]
        rintro x (inLeft | rfl | inRight)
        · exact split.above x inLeft
        · exact less
        · exact less.trans (above x inRight)
      · simp [looked, toList, split.values, around]
      · rw [BalancedTree.insert, if_pos (its ▸ less), toList_balance, split.insert v its, looked]
        simp [around]
      · rw [BalancedTree.replace, if_pos (its ▸ less), toList_balance, split.replace v its]
        simp [around]
      · rw [BalancedTree.remove, if_pos less, toList_balance, split.remove]
        simp [around]
      · rw [lookupPrevious, if_pos less, split.previous, looked]
    · subst same
      have looked : lookup key (node l value r h) (key value) = some value := by
        rw [lookup, if_neg (lt_irrefl _), if_neg (lt_irrefl _)]
      refine ⟨l.toList, r.toList, below, above, ?_, ?_, fun v its => ?_, fun v its => ?_, ?_, fun best => ?_⟩
      · rintro x found
        exact congrArg key (Option.some.inj (looked.symm.trans found)).symm
      · rw [looked]
        rfl
      · rw [BalancedTree.insert, if_neg its.not_lt, if_neg its.not_gt, looked]
        rfl
      · rw [BalancedTree.replace, if_neg its.not_lt, if_neg its.not_gt]
        rfl
      · rw [BalancedTree.remove, if_neg (lt_irrefl _), if_neg (lt_irrefl _), toList_join]
        rfl
      · rw [lookupPrevious, if_neg (lt_irrefl _), if_neg (lt_irrefl _), looked]
        rfl
    · obtain ⟨before, after, split⟩ := rightIH rightOrdered
      have looked : lookup key (node l value r h) k = lookup key r k := by
        rw [lookup, if_neg greater.not_gt, if_pos greater]
      refine ⟨l.toList ++ value :: before, after, ?_, split.above, looked ▸ split.found, ?_,
        fun v its => ?_, fun v its => ?_, ?_, fun best => ?_⟩
      · simp only [mem_append, mem_cons]
        rintro x (inLeft | rfl | inRight)
        · exact (below x inLeft).trans greater
        · exact greater
        · exact split.below x inRight
      · simp [looked, toList, split.values, around]
      · rw [BalancedTree.insert, if_neg (its ▸ greater.not_gt), if_pos (its ▸ greater), toList_balance, split.insert v its, looked]
        simp [around]
      · rw [BalancedTree.replace, if_neg (its ▸ greater.not_gt), if_pos (its ▸ greater), toList_balance, split.replace v its]
        simp [around]
      · rw [BalancedTree.remove, if_neg greater.not_gt, if_pos greater, toList_balance, split.remove]
        simp [around]
      · rw [lookupPrevious, if_neg greater.not_gt, if_pos greater, split.previous, looked, getLast?_append, getLast?_cons]
        cases before.getLast? <;> cases lookup key r k <;> rfl

section

variable {before after : List ν} {here : Option ν} (split : Split key tree k before after)
  (atKey : ∀ x, here = some x → key x = k)
include split

theorem Split.mem_around : x ∈ around before after here ∧ key x = k ↔ here = some x ∧ key x = k := by
  simp only [around, mem_append, Option.mem_toList]
  constructor
  · rintro ⟨inBefore | isHere | inAfter, rfl⟩
    · exact absurd (split.below x inBefore) (lt_irrefl _)
    · exact ⟨isHere, rfl⟩
    · exact absurd (split.above x inAfter) (lt_irrefl _)
  · exact fun isHere => ⟨.inr (.inl isHere.1), isHere.2⟩

include atKey

theorem Split.ordered (ordered : tree.Ordered key) : (around before after here).Pairwise (key · < key ·) := by
  rw [Ordered, split.values, around, pairwise_append, pairwise_append] at ordered
  refine List.pairwise_append.mpr ⟨ordered.1, List.pairwise_append.mpr
    ⟨by cases here <;> simp, ordered.2.1.2.1, fun x isHere y inAfter => ?_⟩, fun x inBefore y rest => ?_⟩
  · rw [atKey x (by simpa using isHere)]
    exact split.above y inAfter
  · cases List.mem_append.mp rest with
    | inl isHere =>
      rw [atKey y (by simpa using isHere)]
      exact split.below x inBefore
    | inr inAfter => exact (split.below x inBefore).trans (split.above y inAfter)

theorem Split.mem_around_of_ne {j : κ} (other : j ≠ k) : x ∈ around before after here ∧ key x = j ↔ x ∈ tree.toList ∧ key x = j := by
  rw [split.values]
  simp only [around, mem_append, Option.mem_toList]
  refine and_congr_left fun its => or_congr_right (or_congr_left ?_)
  exact iff_of_false (fun isHere => other (its.symm.trans (atKey x isHere))) fun found => other (its.symm.trans (split.found x found))

end

section

variable (ordered : tree.Ordered key)
include ordered

theorem Ordered.insert : (insert key tree v).Ordered key := by
  obtain ⟨before, after, split⟩ := exists_split ordered (key v)
  rw [Ordered, split.insert v rfl]
  refine split.ordered ?_ ordered
  rintro _ ⟨⟩
  cases looked : lookup key tree (key v) with
  | none => rfl
  | some x => exact split.found x looked

theorem Ordered.replace : (replace key tree v).Ordered key := by
  obtain ⟨before, after, split⟩ := exists_split ordered (key v)
  rw [Ordered, split.replace v rfl]
  refine split.ordered ?_ ordered
  rintro _ ⟨⟩
  rfl

theorem Ordered.remove : (remove key tree k).Ordered key := by
  obtain ⟨before, after, split⟩ := exists_split ordered k
  rw [Ordered, split.remove]
  exact split.ordered (by rintro _ ⟨⟩) ordered

theorem Ordered.popMin : (popMin tree).2.Ordered key := by
  cases tree with
  | leaf => exact ordered
  | node l value r h =>
    obtain ⟨least, _, values⟩ := popMin_toList (node l value r h) nofun
    rw [Ordered, values] at ordered
    exact (List.pairwise_cons.mp ordered).2

theorem Ordered.popMax : (popMax tree).2.Ordered key := by
  cases tree with
  | leaf => exact ordered
  | node l value r h =>
    obtain ⟨greatest, _, values⟩ := popMax_toList (node l value r h) nofun
    rw [Ordered, values] at ordered
    exact (List.pairwise_append.mp ordered).1

end

theorem insert_grown (balanced : tree.Balanced) : Grown tree (insert key tree v) := by
  induction tree with
  | leaf => exact ⟨⟨rfl, by simp, by simp, trivial, trivial⟩, by simp, by simp [insert]⟩
  | node l value r h leftIH rightIH =>
    rw [insert]
    split
    · exact .left balanced (leftIH balanced.2.2.2.1)
    · split
      · exact .right balanced (rightIH balanced.2.2.2.2)
      · exact ⟨balanced, le_rfl, Nat.le_succ _⟩

theorem replace_grown (balanced : tree.Balanced) : Grown tree (replace key tree v) := by
  induction tree with
  | leaf => exact ⟨⟨rfl, by simp, by simp, trivial, trivial⟩, by simp, by simp [replace]⟩
  | node l value r h leftIH rightIH =>
    rw [replace]
    split
    · exact .left balanced (leftIH balanced.2.2.2.1)
    · split
      · exact .right balanced (rightIH balanced.2.2.2.2)
      · obtain ⟨height, notHigher, notLower, leftBalanced, rightBalanced⟩ := balanced
        exact ⟨.branch leftBalanced rightBalanced notHigher notLower, height.le, (height ▸ Nat.le_succ h)⟩

theorem remove_shrunk (balanced : tree.Balanced) : Shrunk tree (remove key tree k) := by
  induction tree with
  | leaf => exact ⟨trivial, Nat.le_succ _, le_rfl⟩
  | node l value r h leftIH rightIH =>
    rw [remove]
    split
    · exact .left balanced (leftIH balanced.2.2.2.1) value
    · split
      · exact .right balanced (rightIH balanced.2.2.2.2) value
      · exact join_shrunk balanced

end Search

/-! ## Trees as finite maps -/

section Maps

variable [LinearOrder κ]

def Represents (key : ν → κ) (tree : BalancedTree ν) (map : Finmap fun _ : κ => ν) : Prop :=
  ∀ k x, map.lookup k = some x ↔ x ∈ tree.toList ∧ key x = k

def insertNew (key : ν → κ) (map : Finmap fun _ : κ => ν) (v : ν) : Finmap fun _ : κ => ν :=
  if key v ∈ map then map else map.insert (key v) v

/-- The value of the least key, and the map without it. -/
def eraseMin (map : Finmap fun _ : κ => ν) : Option ν × Finmap fun _ : κ => ν :=
  if nonempty : map.keys.Nonempty then
    (map.lookup (map.keys.min' nonempty), map.erase (map.keys.min' nonempty))
  else (none, map)

def eraseMax (map : Finmap fun _ : κ => ν) : Option ν × Finmap fun _ : κ => ν :=
  if nonempty : map.keys.Nonempty then
    (map.lookup (map.keys.max' nonempty), map.erase (map.keys.max' nonempty))
  else (none, map)

/-- The value of the greatest key that is not greater than `k`. -/
def lookupBelow (map : Finmap fun _ : κ => ν) (k : κ) : Option ν :=
  if nonempty : (map.keys.filter (· ≤ k)).Nonempty then
    map.lookup ((map.keys.filter (· ≤ k)).max' nonempty)
  else none

variable {key : ν → κ} {tree : BalancedTree ν} {map : Finmap fun _ : κ => ν} {v x : ν} {k : κ}

theorem represents_leaf : Represents key leaf ∅ := by
  intro k x
  simp [toList]

section

variable (represents : Represents key tree map)
include represents

theorem Represents.lookup (ordered : tree.Ordered key) : BalancedTree.lookup key tree k = map.lookup k := by
  obtain ⟨before, after, split⟩ := exists_split ordered k
  apply Option.ext
  intro x
  rw [represents k x, split.values, split.mem_around, iff_self_and]
  exact split.found x

theorem Represents.change {other : BalancedTree ν} {map' : Finmap fun _ : κ => ν}
    {before after : List ν} {here : Option ν} (split : Split key tree k before after)
    (atKey : ∀ x, here = some x → key x = k) (values : other.toList = around before after here)
    (same : map'.lookup k = here) (others : ∀ j ≠ k, map'.lookup j = map.lookup j) : Represents key other map' := by
  intro j x
  rw [values]
  by_cases its : j = k
  · subst its
    rw [same, split.mem_around, iff_self_and]
    exact atKey x
  · rw [others j its, represents j x, split.mem_around_of_ne atKey its]

theorem Represents.mem_iff : k ∈ map ↔ ∃ x ∈ tree.toList, key x = k := by
  rw [← Finmap.lookup_isSome, Option.isSome_iff_exists]
  exact exists_congr fun x => represents k x

theorem Represents.keys_eq : map.keys = (tree.toList.map key).toFinset := by
  ext k
  rw [Finmap.mem_keys, represents.mem_iff, mem_toFinset, mem_map]

theorem Represents.lookupPrevious (ordered : tree.Ordered key) : BalancedTree.lookupPrevious key tree k none = lookupBelow map k := by
  have previous : BalancedTree.lookupPrevious key tree k none = (tree.toList.filter fun x => key x ≤ k).getLast? := by
    obtain ⟨before, after, split⟩ := exists_split ordered k
    have lower : before.filter (fun x => key x ≤ k) = before :=
      filter_eq_self.mpr fun x member => by simpa using (split.below x member).le
    have upper : after.filter (fun x => key x ≤ k) = [] := filter_eq_nil_iff.mpr fun x member => by simpa using split.above x member
    rw [split.previous, split.values, around, filter_append, filter_append, lower, upper]
    cases looked : BalancedTree.lookup key tree k with
    | none => simp
    | some x => simp [(split.found x looked).le]
  rw [previous]
  have keys : map.keys.filter (· ≤ k) = ((tree.toList.filter fun x => key x ≤ k).map key).toFinset := by
    ext j
    rw [represents.keys_eq]
    simp only [Finset.mem_filter, mem_toFinset, mem_map, mem_filter, decide_eq_true_eq]
    constructor
    · rintro ⟨⟨x, member, rfl⟩, below⟩
      exact ⟨x, ⟨member, below⟩, rfl⟩
    · rintro ⟨x, ⟨member, below⟩, rfl⟩
      exact ⟨⟨x, member, rfl⟩, below⟩
  have values : ∀ x ∈ tree.toList.filter (fun x => key x ≤ k), map.lookup (key x) = some x :=
    fun x member => (represents _ _).mpr ⟨(List.mem_filter.mp member).1, rfl⟩
  have sorted : (tree.toList.filter fun x => key x ≤ k).Pairwise (key · < key ·) := ordered.sublist filter_sublist
  rw [lookupBelow]
  generalize tree.toList.filter (fun x => key x ≤ k) = entries at keys values sorted
  cases entries using List.reverseRecOn with
  | nil =>
    rw [dif_neg (by simp [keys])]
    rfl
  | append_singleton before last =>
    have isKey : key last ∈ map.keys.filter (· ≤ k) := by simp [keys]
    have isMax : (map.keys.filter (· ≤ k)).max' ⟨_, isKey⟩ = key last := by
      refine le_antisymm (Finset.max'_le _ _ _ fun j member => ?_) (Finset.le_max' _ _ isKey)
      rw [keys, mem_toFinset, mem_map] at member
      obtain ⟨x, inEntries, rfl⟩ := member
      cases List.mem_append.mp inEntries with
      | inl inBefore =>
        exact ((List.pairwise_append.mp sorted).2.2 x inBefore last (by simp)).le
      | inr same => exact (mem_singleton.mp same) ▸ le_rfl
    rw [dif_pos ⟨_, isKey⟩, isMax, values last (by simp), getLast?_append]
    rfl

end

theorem Ordered.nodup_keys (ordered : tree.Ordered key) : (tree.toList.map key).Nodup := by
  rw [List.Nodup, pairwise_map]
  exact ordered.imp fun less => less.ne

theorem length_toList (tree : BalancedTree ν) : tree.toList.length = tree.size := by
  induction tree with
  | leaf => rfl
  | node l v r h leftIH rightIH =>
    rw [toList, size, length_append, length_cons, leftIH, rightIH]
    omega

section

variable (represents : Represents key tree map)
include represents

theorem Represents.size_eq (ordered : tree.Ordered key) : tree.size = map.keys.card := by
  rw [represents.keys_eq, toFinset_card_of_nodup ordered.nodup_keys, length_map, length_toList]

theorem Represents.insertNew (ordered : tree.Ordered key) : Represents key (insert key tree v) (insertNew key map v) := by
  obtain ⟨before, after, split⟩ := exists_split ordered (key v)
  have looked := represents.lookup ordered (k := key v)
  refine represents.change split ?_ (split.insert v rfl) ?_ fun j other => ?_
  · rintro _ ⟨⟩
    cases found : BalancedTree.lookup key tree (key v) with
    | none => rfl
    | some x => exact split.found x found
  · rw [looked, BalancedTree.insertNew]
    split_ifs with known
    · obtain ⟨x, found⟩ := Finmap.mem_iff.mp known
      rw [found]
      rfl
    · rw [Finmap.lookup_insert, Finmap.lookup_eq_none.mpr known]
      rfl
  · rw [BalancedTree.insertNew]
    split_ifs
    · rfl
    · exact Finmap.lookup_insert_of_ne map other

theorem Represents.replace (ordered : tree.Ordered key) : Represents key (replace key tree v) (map.insert (key v) v) := by
  obtain ⟨before, after, split⟩ := exists_split ordered (key v)
  refine represents.change split ?_ (split.replace v rfl) (Finmap.lookup_insert map) fun j other => Finmap.lookup_insert_of_ne map other
  rintro _ ⟨⟩
  rfl

theorem Represents.remove (ordered : tree.Ordered key) : Represents key (remove key tree k) (map.erase k) := by
  obtain ⟨before, after, split⟩ := exists_split ordered k
  exact represents.change split (by rintro _ ⟨⟩) split.remove (Finmap.lookup_erase k map) fun j other => Finmap.lookup_erase_ne other

theorem Represents.extract {other : BalancedTree ν} (values : ∀ y, y ∈ tree.toList ↔ y = x ∨ y ∈ other.toList)
    (apart : ∀ y ∈ other.toList, key y ≠ key x) : map.lookup (key x) = some x ∧ Represents key other (map.erase (key x)) := by
  refine ⟨(represents _ _).mpr ⟨(values x).mpr (.inl rfl), rfl⟩, fun j y => ?_⟩
  by_cases its : j = key x
  · subst its
    rw [Finmap.lookup_erase]
    exact iff_of_false nofun fun both => apart y both.1 both.2
  · rw [Finmap.lookup_erase_ne its, represents j y, values]
    refine and_congr_left fun same => or_iff_right ?_
    rintro rfl
    exact its same.symm

theorem Represents.popMin (ordered : tree.Ordered key) :
    (popMin tree).1 = (eraseMin map).1 ∧ Represents key (popMin tree).2 (eraseMin map).2 := by
  cases tree with
  | leaf =>
    have nothing : ¬ map.keys.Nonempty := by rw [represents.keys_eq]; simp [toList]
    rw [eraseMin, dif_neg nothing]
    exact ⟨rfl, represents⟩
  | node l value r h =>
    obtain ⟨least, popped, values⟩ := popMin_toList (node l value r h) nofun
    rw [Ordered, values, pairwise_cons] at ordered
    have isKey : key least ∈ map.keys := by rw [represents.keys_eq, values]; simp
    have isMin : map.keys.min' ⟨_, isKey⟩ = key least := by
      refine le_antisymm (Finset.min'_le _ _ isKey) (Finset.le_min' _ _ _ fun k member => ?_)
      rw [represents.keys_eq, values, mem_toFinset, mem_map] at member
      obtain ⟨x, inTree, rfl⟩ := member
      cases List.mem_cons.mp inTree with
      | inl same => exact same ▸ le_rfl
      | inr later => exact (ordered.1 x later).le
    rw [eraseMin, dif_pos ⟨_, isKey⟩, isMin]
    obtain ⟨looked, rest⟩ := represents.extract (x := least) (by simp [values]) fun x later => (ordered.1 x later).ne'
    exact ⟨popped.trans looked.symm, rest⟩

theorem Represents.popMax (ordered : tree.Ordered key) :
    (popMax tree).1 = (eraseMax map).1 ∧ Represents key (popMax tree).2 (eraseMax map).2 := by
  cases tree with
  | leaf =>
    have nothing : ¬ map.keys.Nonempty := by rw [represents.keys_eq]; simp [toList]
    rw [eraseMax, dif_neg nothing]
    exact ⟨rfl, represents⟩
  | node l value r h =>
    obtain ⟨greatest, popped, values⟩ := popMax_toList (node l value r h) nofun
    rw [Ordered, values, pairwise_append] at ordered
    have below : ∀ x ∈ (BalancedTree.popMax (node l value r h)).2.toList, key x < key greatest :=
      fun x member => ordered.2.2 x member greatest (by simp)
    have isKey : key greatest ∈ map.keys := by rw [represents.keys_eq, values]; simp
    have isMax : map.keys.max' ⟨_, isKey⟩ = key greatest := by
      refine le_antisymm (Finset.max'_le _ _ _ fun k member => ?_) (Finset.le_max' _ _ isKey)
      rw [represents.keys_eq, values, mem_toFinset, mem_map] at member
      obtain ⟨x, inTree, rfl⟩ := member
      cases List.mem_append.mp inTree with
      | inl before => exact (below x before).le
      | inr same => exact (mem_singleton.mp same) ▸ le_rfl
    rw [eraseMax, dif_pos ⟨_, isKey⟩, isMax]
    obtain ⟨looked, rest⟩ := represents.extract (x := greatest) (by simp [values, or_comm]) fun x before => (below x before).ne
    exact ⟨popped.trans looked.symm, rest⟩

end

end Maps

end BalancedTree

end NeuroMerge
