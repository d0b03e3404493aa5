import NeuroMerge.ADT.ImmutableTreeOwnership

/-!
# Persistent trees are balanced search trees

Every operation on the nodes builds the tree that the operation on balanced
trees gives, and leaves all versions that are still held as they were. So over
any sequence of operations each version is a balanced search tree for the finite
map that the same operations give.
-/

namespace NeuroMerge.ImmutableTree

open List BalancedTree

variable {κ ν : Type} {heap : Heap ν} {held : List Ptr} {room : Nat}

/-- `p` is a new reference to the tree, and the references held before keep theirs. -/
structure Built (heap : Heap ν) (held : List Ptr) (room : Nat) (tree : BalancedTree ν) (p : Ptr)
    (after : Heap ν) : Prop where
  owned : Owned after (p :: held) room
  stable : Stable heap after held
  shaped : ∃ shape : Shape ν, shape.ptr = p ∧ Holds after shape ∧ shape.tree = tree

theorem rotated {current : Heap ν} {old new : Shape ν} {tree : BalancedTree ν}
    (kept : ∀ shape : Shape ν, Holds heap shape → Holds current shape)
    (owned : Owned current (new.ptr :: old.ptr :: held) room) (oldHolds : Holds current old)
    (newHolds : Holds current new) (its : new.tree = tree) :
    ∃ after, Returns (fun fuel => Heap.decref fuel current old.ptr) after ∧ Built heap held room tree new.ptr after := by
  obtain ⟨after, returns, ownedAfter, stable⟩ := decref_spec (owned.perm (.swap _ _ _)) oldHolds
  refine ⟨after, ⟨old.size + 1, fun fuel enough => returns fuel enough⟩, ownedAfter, ?_, new, rfl, stable new (by simp) newHolds, its⟩
  exact fun shape member holds => stable shape (mem_cons_of_mem _ member) (kept shape holds)

theorem perm_third {a b c : Ptr} : (a :: b :: c :: held).Perm (c :: a :: b :: held) :=
  (List.Perm.swap c b held).cons a |>.trans (.swap c a (b :: held))

section Fields

variable {n height : Nat} {left right : Shape ν} {value : ν}

section

variable (holds : Holds heap (.node n left value right height))
include holds

theorem Holds.left_eq : heap.left (some n) = .ok left.ptr := by
  obtain ⟨references, found⟩ := holds.deref
  simp only [Heap.left, found]
  rfl

theorem Holds.right_eq : heap.right (some n) = .ok right.ptr := by
  obtain ⟨references, found⟩ := holds.deref
  simp only [Heap.right, found]
  rfl

theorem Holds.value_eq : heap.value (some n) = .ok value := by
  obtain ⟨references, found⟩ := holds.deref
  simp only [Heap.value, found]
  rfl

end

end Fields

/-- A new node, for which references to the subtrees may have been taken before. -/
structure Branched (heap middle : Heap ν) (held : List Ptr) (room : Nat) (left : Shape ν)
    (value : ν) (right : Shape ν) (n : Nat) (after : Heap ν) : Prop where
  made : middle.newNode left.ptr right.ptr value =
    .ok ((Shape.branch n left value right).ptr, after)
  owned : Owned after ((Shape.branch n left value right).ptr :: held) room
  kept : ∀ shape : Shape ν, Holds heap shape → Holds after shape
  holds : Holds after (.branch n left value right)

section Balance

variable {left right : Shape ν} {value : ν}

section

variable (value) (leftHolds : Holds heap left) (rightHolds : Holds heap right)
include leftHolds rightHolds

theorem branch_left (owned : Owned heap (right.ptr :: held) (room + 1)) :
    ∃ middle n after, heap.incref left.ptr = .ok middle ∧ Branched heap middle held room left value right n after := by
  obtain ⟨middle, taken, owned1, kept1⟩ := incref_spec owned leftHolds
  obtain ⟨n, after, made, owned2, kept2, holds⟩ := newNode_spec value owned1 (kept1 _ leftHolds) (kept1 _ rightHolds)
  exact ⟨middle, n, after, taken, made, owned2, fun shape its => kept2 _ (kept1 _ its), holds⟩

theorem branch_right (owned : Owned heap (left.ptr :: held) (room + 1)) :
    ∃ middle n after, heap.incref right.ptr = .ok middle ∧ Branched heap middle held room left value right n after := by
  obtain ⟨middle, taken, owned1, kept1⟩ := incref_spec owned rightHolds
  obtain ⟨n, after, made, owned2, kept2, holds⟩ := newNode_spec value (owned1.perm (.swap _ _ _)) (kept1 _ leftHolds) (kept1 _ rightHolds)
  exact ⟨middle, n, after, taken, made, owned2, fun shape its => kept2 _ (kept1 _ its), holds⟩

theorem branch_both (owned : Owned heap held (room + 2)) :
    ∃ first middle n after, heap.incref left.ptr = .ok first ∧
      first.incref right.ptr = .ok middle ∧ Branched heap middle held room left value right n after := by
  obtain ⟨first, taken, owned1, kept1⟩ := incref_spec owned leftHolds
  obtain ⟨middle, n, after, also, branched⟩ := branch_right value (kept1 _ leftHolds) (kept1 _ rightHolds) owned1
  exact ⟨first, middle, n, after, taken, also, branched.made, branched.owned,
    fun shape its => branched.kept _ (kept1 _ its), branched.holds⟩

end

section

variable (owned : Owned heap (left.ptr :: right.ptr :: held) (room + 3)) (leftHolds : Holds heap left) (rightHolds : Holds heap right)
include owned leftHolds rightHolds

theorem balanceLeft_spec (high : right.height + 2 < left.height) :
    ∃ p after, Returns (fun fuel => Heap.balanceLeft fuel heap left.ptr value right.ptr) (p, after) ∧
      Built heap held room (balance left.tree value right.tree) p after := by
  cases left with
  | terminator => simp [Shape.height] at high
  | node n outer top inner h =>
    obtain ⟨_, outerHolds, innerHolds⟩ := id leftHolds
    have rightHigh : right.tree.height + 2 < h := by
      simpa only [Shape.height_tree, Shape.height] using high
    by_cases single : inner.height ≤ outer.height
    · rw [Shape.tree, balance_left_single rightHigh (by simpa only [Shape.height_tree] using single)]
      obtain ⟨heap1, m, heap2, innerRef, lower⟩ := branch_left value innerHolds rightHolds ((owned.spend (Nat.le_succ _)).perm (.swap _ _ _))
      obtain ⟨heap3, m', heap4, outerRef, upper⟩ := branch_left top (lower.kept _ outerHolds) lower.holds lower.owned
      have keptAll : ∀ shape : Shape ν, Holds heap shape → Holds heap4 shape := fun shape holds => upper.kept _ (lower.kept _ holds)
      obtain ⟨after, returns, built⟩ := rotated keptAll upper.owned (keptAll _ leftHolds)
        upper.holds (by rw [Shape.tree_branch, Shape.tree_branch])
      refine ⟨_, after, .congr (fun fuel => ?_) (returns.map_pure (Prod.mk _)), built⟩
      simp only [Heap.balanceLeft, Shape.ptr_node, leftHolds.left_eq, leftHolds.right_eq,
        leftHolds.value_eq, outerHolds.height, innerHolds.height, ok_bind]
      rw [if_pos single]
      simp only [innerRef, lower.made, outerRef, upper.made, ok_bind]
    · cases inner with
      | terminator => exact absurd (Nat.zero_le _) single
      | node i near middle far g =>
        obtain ⟨_, nearHolds, farHolds⟩ := id innerHolds
        rw [Shape.tree, Shape.tree, balance_left_double rightHigh
          (by simpa only [Shape.height_tree, Shape.height_node, not_le] using single)]
        obtain ⟨heap1, heap2, m, heap3, outerRef, nearRef, first⟩ := branch_both top outerHolds nearHolds owned
        obtain ⟨heap4, m', heap5, farRef, second⟩ := branch_left value
          (first.kept _ farHolds) (first.kept _ rightHolds) (first.owned.perm perm_third)
        obtain ⟨m'', heap6, last, owned6, kept6, lastHolds⟩ :=
          newNode_spec middle (second.owned.perm (.swap _ _ _)) (second.kept _ first.holds) second.holds
        have keptAll : ∀ shape : Shape ν, Holds heap shape → Holds heap6 shape :=
          fun shape holds => kept6 _ (second.kept _ (first.kept _ holds))
        obtain ⟨after, returns, built⟩ := rotated keptAll owned6 (keptAll _ leftHolds) lastHolds
          (by rw [Shape.tree_branch, Shape.tree_branch, Shape.tree_branch])
        refine ⟨_, after, .congr (fun fuel => ?_) (returns.map_pure (Prod.mk _)), built⟩
        simp only [Heap.balanceLeft, Shape.ptr_node, leftHolds.left_eq, leftHolds.right_eq,
          leftHolds.value_eq, outerHolds.height, ok_bind]
        have innerHeight := innerHolds.height
        rw [Shape.ptr_node] at innerHeight
        rw [innerHeight, ok_bind, if_neg single]
        simp only [innerHolds.left_eq, innerHolds.right_eq, innerHolds.value_eq, outerRef,
          nearRef, first.made, farRef, second.made, last, ok_bind]

theorem balanceRight_spec (high : left.height + 2 < right.height) :
    ∃ p after, Returns (fun fuel => Heap.balanceRight fuel heap left.ptr value right.ptr) (p, after) ∧
      Built heap held room (balance left.tree value right.tree) p after := by
  cases right with
  | terminator => simp [Shape.height] at high
  | node n inner top outer h =>
    obtain ⟨_, innerHolds, outerHolds⟩ := id rightHolds
    have leftHigh : left.tree.height + 2 < h := by
      simpa only [Shape.height_tree, Shape.height] using high
    by_cases single : inner.height ≤ outer.height
    · rw [Shape.tree, balance_right_single leftHigh (by simpa only [Shape.height_tree] using single)]
      obtain ⟨heap1, m, heap2, innerRef, lower⟩ := branch_right value leftHolds innerHolds (owned.spend (Nat.le_succ _))
      obtain ⟨heap3, m', heap4, outerRef, upper⟩ := branch_right top lower.holds (lower.kept _ outerHolds) lower.owned
      have keptAll : ∀ shape : Shape ν, Holds heap shape → Holds heap4 shape := fun shape holds => upper.kept _ (lower.kept _ holds)
      obtain ⟨after, returns, built⟩ := rotated keptAll upper.owned (keptAll _ rightHolds)
        upper.holds (by rw [Shape.tree_branch, Shape.tree_branch])
      refine ⟨_, after, .congr (fun fuel => ?_) (returns.map_pure (Prod.mk _)), built⟩
      simp only [Heap.balanceRight, Shape.ptr_node, rightHolds.left_eq, rightHolds.right_eq,
        rightHolds.value_eq, outerHolds.height, innerHolds.height, ok_bind]
      rw [if_pos single]
      simp only [innerRef, lower.made, outerRef, upper.made, ok_bind]
    · cases inner with
      | terminator => exact absurd (Nat.zero_le _) single
      | node i near middle far g =>
        obtain ⟨_, nearHolds, farHolds⟩ := id innerHolds
        rw [Shape.tree, Shape.tree, balance_right_double leftHigh
          (by simpa only [Shape.height_tree, Shape.height_node, not_le] using single)]
        obtain ⟨heap1, m, heap2, nearRef, first⟩ := branch_right value leftHolds nearHolds owned
        obtain ⟨heap3, heap4, m', heap5, farRef, outerRef, second⟩ :=
          branch_both top (first.kept _ farHolds) (first.kept _ outerHolds) first.owned
        obtain ⟨m'', heap6, last, owned6, kept6, lastHolds⟩ :=
          newNode_spec middle (second.owned.perm (.swap _ _ _)) (second.kept _ first.holds) second.holds
        have keptAll : ∀ shape : Shape ν, Holds heap shape → Holds heap6 shape :=
          fun shape holds => kept6 _ (second.kept _ (first.kept _ holds))
        obtain ⟨after, returns, built⟩ := rotated keptAll owned6 (keptAll _ rightHolds) lastHolds
          (by rw [Shape.tree_branch, Shape.tree_branch, Shape.tree_branch])
        refine ⟨_, after, .congr (fun fuel => ?_) (returns.map_pure (Prod.mk _)), built⟩
        simp only [Heap.balanceRight, Shape.ptr_node, rightHolds.left_eq, rightHolds.right_eq,
          rightHolds.value_eq, outerHolds.height, ok_bind]
        have innerHeight := innerHolds.height
        rw [Shape.ptr_node] at innerHeight
        rw [innerHeight, ok_bind, if_neg single]
        simp only [innerHolds.left_eq, innerHolds.right_eq, innerHolds.value_eq, outerRef,
          nearRef, first.made, farRef, second.made, last, ok_bind]

end

theorem balance_spec (value : ν) (owned : Owned heap (left.ptr :: right.ptr :: held) (room + 3))
    (leftHolds : Holds heap left) (rightHolds : Holds heap right) :
    ∃ p after, Returns (fun fuel => Heap.balance fuel heap left.ptr value right.ptr) (p, after) ∧
      Built heap held room (balance left.tree value right.tree) p after := by
  have unfolded : ∀ fuel, Heap.balance fuel heap left.ptr value right.ptr =
      if right.height + 2 < left.height then
        Heap.balanceLeft fuel heap left.ptr value right.ptr
      else if left.height + 2 < right.height then
        Heap.balanceRight fuel heap left.ptr value right.ptr
      else heap.newNode left.ptr right.ptr value := by
    intro fuel
    simp only [Heap.balance, leftHolds.height, rightHolds.height, ok_bind]
  by_cases leftHigh : right.height + 2 < left.height
  · obtain ⟨p, after, returns, built⟩ := balanceLeft_spec owned leftHolds rightHolds leftHigh
    exact ⟨p, after, .congr (fun fuel => (unfolded fuel).trans (if_pos leftHigh)) returns, built⟩
  · by_cases rightHigh : left.height + 2 < right.height
    · obtain ⟨p, after, returns, built⟩ := balanceRight_spec owned leftHolds rightHolds rightHigh
      refine ⟨p, after, .congr (fun fuel => ?_) returns, built⟩
      rw [unfolded, if_neg leftHigh, if_pos rightHigh]
    · obtain ⟨n, after, made, ownedAfter, kept, newHolds⟩ := newNode_spec value (owned.spend (Nat.le_add_right _ 3)) leftHolds rightHolds
      refine ⟨_, after, .of_eq fun fuel => ?_, ownedAfter, fun shape _ => kept shape, _, rfl, newHolds, ?_⟩
      · rw [unfolded, if_neg leftHigh, if_neg rightHigh, made]
      · rw [balance_level (by simpa only [Shape.height_tree] using not_lt.mp leftHigh)
          (by simpa only [Shape.height_tree] using not_lt.mp rightHigh), Shape.tree_branch]

end Balance

variable {after : Heap ν} {p : Ptr}

section Rebuild

variable {left right : Shape ν} {value : ν}

theorem stable_of_kept (kept : ∀ shape : Shape ν, Holds heap shape → Holds after shape) : Stable heap after held :=
  fun shape _ => kept shape

theorem rebuild_left (value : ν) {middle : Heap ν} {tree : BalancedTree ν}
    (built : Built heap held (room + 4) tree p middle) (rightLive : Live heap held right) :
    ∃ q after, Returns (fun fuel => do
        let heap ← middle.incref right.ptr
        Heap.balance fuel heap p value right.ptr) (q, after) ∧
      Built heap held room (balance tree value right.tree) q after := by
  obtain ⟨shape, rfl, shapeHolds, rfl⟩ := built.shaped
  have rightHolds := (rightLive.stable built.stable).holds
  obtain ⟨heap1, rightRef, owned1, kept1⟩ := incref_spec built.owned rightHolds
  obtain ⟨q, after, returns, rebuilt⟩ := balance_spec value (owned1.perm (.swap _ _ _)) (kept1 _ shapeHolds) (kept1 _ rightHolds)
  refine ⟨q, after, .congr (fun fuel => ?_) returns, rebuilt.owned,
    (built.stable.trans (stable_of_kept kept1)).trans rebuilt.stable, rebuilt.shaped⟩
  simp only [rightRef, ok_bind]

theorem rebuild_right (value : ν) {first middle : Heap ν} {tree : BalancedTree ν}
    (kept : ∀ shape : Shape ν, Holds heap shape → Holds first shape)
    (built : Built first (left.ptr :: held) (room + 3) tree p middle) (leftHolds : Holds heap left) :
    ∃ q after, Returns (fun fuel => Heap.balance fuel middle left.ptr value p) (q, after) ∧
      Built heap held room (balance left.tree value tree) q after := by
  obtain ⟨shape, rfl, shapeHolds, rfl⟩ := built.shaped
  obtain ⟨q, after, returns, rebuilt⟩ := balance_spec value
    (built.owned.perm (.swap _ _ _)) (built.stable left (by simp) (kept left leftHolds)) shapeHolds
  exact ⟨q, after, returns, rebuilt.owned, ((stable_of_kept kept).trans
    (built.stable.mono (by simp))).trans rebuilt.stable, rebuilt.shaped⟩

theorem incref_built {shape : Shape ν} (owned : Owned heap held (room + 1)) (live : Live heap held shape) :
    ∃ after, heap.incref shape.ptr = .ok after ∧ Built heap held room shape.tree shape.ptr after := by
  obtain ⟨after, taken, ownedAfter, kept⟩ := incref_spec owned live.holds
  exact ⟨after, taken, ownedAfter, stable_of_kept kept, shape, rfl, kept shape live.holds, rfl⟩

theorem newLeaf_built {v : ν} (owned : Owned heap held (room + 2)) :
    ∃ p after, heap.newLeaf v = .ok (p, after) ∧ Built heap held room (.branch .leaf v .leaf) p after := by
  have terminator : Holds heap .terminator := trivial
  obtain ⟨heap1, heap2, n, after, firstRef, secondRef, new⟩ := branch_both v terminator terminator owned
  refine ⟨_, after, ?_, new.owned, stable_of_kept new.kept, _, rfl, new.holds, Shape.tree_branch⟩
  have made := new.made
  simp only [Shape.ptr_terminator] at firstRef secondRef made
  simp only [Heap.newLeaf, firstRef, secondRef, made, ok_bind]

end Rebuild

section Children

variable {n height : Nat} {l r : Shape ν} {value : ν}

theorem Live.left (live : Live heap held (.node n l value r height)) : Live heap held l :=
  live.part (.left (.refl l))

theorem Live.right (live : Live heap held (.node n l value r height)) : Live heap held r :=
  live.part (.right (.refl r))

theorem Owned.left (owned : Owned heap held (room + (Shape.node n l value r height).demand)) : Owned heap held (room + 4 + l.demand) := by
  refine owned.spend ?_
  simp only [Shape.demand, Shape.levels]
  omega

theorem Owned.right (owned : Owned heap held (room + (Shape.node n l value r height).demand)) : Owned heap held (room + 3 + r.demand + 1) := by
  refine owned.spend ?_
  simp only [Shape.demand, Shape.levels]
  omega

theorem Owned.fewest {shape : Shape ν} (owned : Owned heap held (room + shape.demand)) : Owned heap held (room + 2) :=
  owned.spend (Nat.add_le_add_left (Nat.le_add_left 2 _) room)

theorem Live.kept {shape other : Shape ν} (live : Live heap held shape)
    (kept : ∀ shape : Shape ν, Holds heap shape → Holds after shape) : Live after (other.ptr :: held) shape :=
  (live.stable (stable_of_kept kept)).mono (by simp)

end Children

section Operations

variable [LinearOrder κ] {key : ν → κ} {shape : Shape ν} {v : ν} {k : κ}

/-- An operation that searches for a key, and rebalances on its way back. -/
theorem descend_spec (operation : Nat → Heap ν → Ptr → Except Fault (Ptr × Heap ν)) (result : BalancedTree ν → BalancedTree ν)
    (here : Nat → Heap ν → Nat → Node ν → Except Fault (Ptr × Heap ν))
    (reached : BalancedTree ν → ν → BalancedTree ν → Nat → BalancedTree ν)
    (step : ∀ {heap n node}, heap.deref n = .ok node → ∀ fuel,
      operation (fuel + 1) heap (some n) =
        if k < key node.value then do
          let (p, heap) ← operation fuel heap node.left
          let heap ← heap.incref node.right
          Heap.balance fuel heap p node.value node.right
        else if key node.value < k then do
          let heap ← heap.incref node.left
          let (p, heap) ← operation fuel heap node.right
          Heap.balance fuel heap node.left node.value p
        else here fuel heap n node)
    (tree : ∀ {l value r height}, result (.node l value r height) =
      if k < key value then balance (result l) value r
      else if key value < k then balance l value (result r)
      else reached l value r height)
    (leaf : ∀ {heap held room}, Owned heap held (room + 2) → Live heap held .terminator → ∃ p after,
      Returns (fun fuel => operation fuel heap none) (p, after) ∧
        Built heap held room (result .leaf) p after)
    (found : ∀ {heap held room n l value r height} references,
      Owned heap held (room + (Shape.node n l value r height).demand) →
      Live heap held (.node n l value r height) → ∃ p after,
        Returns (fun fuel => here fuel heap n ⟨l.ptr, r.ptr, value, height, references⟩)
            (p, after) ∧
          Built heap held room (reached l.tree value r.tree height) p after)
    (owned : Owned heap held (room + shape.demand)) (live : Live heap held shape) :
    ∃ p after, Returns (fun fuel => operation fuel heap shape.ptr) (p, after) ∧
      Built heap held room (result shape.tree) p after := by
  induction shape generalizing heap held room with
  | terminator => exact leaf owned live
  | node n left value right height leftIH rightIH =>
    obtain ⟨references, its⟩ := live.holds.deref
    have unfolded := step its
    rw [Shape.tree, tree]
    by_cases less : k < key value
    · rw [if_pos less]
      obtain ⟨p, middle, returned, built⟩ := leftIH owned.left live.left
      obtain ⟨q, after, returns, rebuilt⟩ := rebuild_left value built live.right
      exact ⟨q, after, .succ (.congr (fun fuel => (unfolded fuel).trans (if_pos less)) (returned.bind returns)), rebuilt⟩
    · by_cases greater : key value < k
      · rw [if_neg less, if_pos greater]
        obtain ⟨first, leftRef, owned1, kept⟩ := incref_spec owned.right live.left.holds
        obtain ⟨p, middle, returned, built⟩ := rightIH owned1 (live.right.kept kept)
        obtain ⟨q, after, returns, rebuilt⟩ := rebuild_right value kept built live.left.holds
        have taken : ∀ fuel, operation (fuel + 1) heap (some n) = (operation fuel first right.ptr >>= fun built =>
              Heap.balance fuel built.2 left.ptr value built.1) := by
          intro fuel
          rw [unfolded, if_neg less, if_pos greater, leftRef]
          rfl
        exact ⟨q, after, .succ (.congr taken (returned.bind returns)), rebuilt⟩
      · rw [if_neg less, if_neg greater]
        obtain ⟨p, after, returns, built⟩ := found references owned live
        refine ⟨p, after, .succ (.congr (fun fuel => ?_) returns), built⟩
        rw [Shape.ptr_node, unfolded, if_neg less, if_neg greater]

variable (key) in
theorem insert_spec (owned : Owned heap held (room + shape.demand)) (live : Live heap held shape) :
    ∃ p after, Returns (fun fuel => Heap.insert key fuel heap shape.ptr v) (p, after) ∧
      Built heap held room (BalancedTree.insert key shape.tree v) p after := by
  refine descend_spec (Heap.insert key · · · v) (BalancedTree.insert key · v) (fun _ heap n _ => do
      let heap ← heap.incref (some n)
      pure (some n, heap)) .node (fun its fuel => ?_) rfl (fun owned _ => ?_)
    (fun _ owned live => ?_) owned live
  · rw [Heap.insert, its]
    rfl
  · obtain ⟨p, after, made, built⟩ := newLeaf_built (v := v) owned
    exact ⟨p, after, .succ (.of_eq fun fuel => made), built⟩
  · obtain ⟨after, taken, built⟩ := incref_built (owned.fewest.spend (Nat.le_succ _)) live
    refine ⟨_, after, .of_eq fun fuel => ?_, built⟩
    rw [Shape.ptr_node] at taken
    rw [taken, Shape.ptr_node]
    rfl

section

variable (owned : Owned heap held (room + shape.demand)) (live : Live heap held shape)
include owned live

variable (key) in
theorem replace_spec :
    ∃ p after, Returns (fun fuel => Heap.replace key fuel heap shape.ptr v) (p, after) ∧
      Built heap held room (BalancedTree.replace key shape.tree v) p after := by
  refine descend_spec (Heap.replace key · · · v) (BalancedTree.replace key · v) (fun _ heap _ node => do
      let heap ← heap.incref node.left
      let heap ← heap.incref node.right
      heap.newNode node.left node.right v) (fun l _ r _ => .branch l v r) (fun its fuel => ?_) rfl
    (fun owned _ => ?_) (fun _ owned live => ?_) owned live
  · rw [Heap.replace, its]
    rfl
  · obtain ⟨p, after, made, built⟩ := newLeaf_built (v := v) owned
    exact ⟨p, after, .succ (.of_eq fun fuel => made), built⟩
  · obtain ⟨heap1, heap2, m, after, leftRef, rightRef, new⟩ := branch_both v live.left.holds live.right.holds owned.fewest
    refine ⟨_, after, .of_eq fun fuel => ?_, new.owned, stable_of_kept new.kept, _, rfl, new.holds, Shape.tree_branch⟩
    rw [leftRef, ok_bind, rightRef, ok_bind, new.made]

theorem popMin_spec :
    ∃ p after, Returns (fun fuel => Heap.popMin fuel heap shape.ptr)
        ((BalancedTree.popMin shape.tree).1, p, after) ∧ Built heap held room (BalancedTree.popMin shape.tree).2 p after := by
  induction shape generalizing heap held room with
  | terminator =>
    obtain ⟨after, taken, built⟩ := incref_built (owned.spend (Nat.le_succ _)) live
    refine ⟨none, after, .succ (.of_eq fun fuel => ?_), built⟩
    rw [Shape.ptr_terminator] at taken
    simp only [Shape.ptr_terminator, Heap.popMin, taken, ok_bind]
    rfl
  | node n left value right height leftIH rightIH =>
    obtain ⟨references, found⟩ := live.holds.deref
    cases left with
    | terminator =>
      obtain ⟨after, taken, built⟩ := incref_built (owned.fewest.spend (Nat.le_succ _)) live.right
      refine ⟨right.ptr, after, .succ (.of_eq fun fuel => ?_), built⟩
      simp only [Shape.ptr_node, Heap.popMin, found, Shape.ptr_terminator, taken, ok_bind]
      rfl
    | node l ll lv lr lh =>
      obtain ⟨p, middle, returned, built⟩ := leftIH owned.left live.left
      obtain ⟨q, after, returns, rebuilt⟩ := rebuild_left value built live.right
      refine ⟨q, after, .succ ?_, rebuilt⟩
      have step : ∀ fuel, Heap.popMin (fuel + 1) heap (some n) = (Heap.popMin fuel heap (some l) >>= fun popped =>
            (do
              let heap ← popped.2.2.incref right.ptr
              Heap.balance fuel heap popped.2.1 value right.ptr) >>= fun built =>
            pure (popped.1, built.1, built.2)) := by
        intro fuel
        simp only [Heap.popMin, found, ok_bind, Shape.ptr_node, bind_assoc]
      exact .congr step (returned.bind (returns.map_pure fun built => (_, built.1, built.2)))

theorem popMax_spec :
    ∃ p after, Returns (fun fuel => Heap.popMax fuel heap shape.ptr)
        ((BalancedTree.popMax shape.tree).1, p, after) ∧ Built heap held room (BalancedTree.popMax shape.tree).2 p after := by
  induction shape generalizing heap held room with
  | terminator =>
    obtain ⟨after, taken, built⟩ := incref_built (owned.spend (Nat.le_succ _)) live
    refine ⟨none, after, .succ (.of_eq fun fuel => ?_), built⟩
    rw [Shape.ptr_terminator] at taken
    simp only [Shape.ptr_terminator, Heap.popMax, taken, ok_bind]
    rfl
  | node n left value right height leftIH rightIH =>
    obtain ⟨references, found⟩ := live.holds.deref
    cases right with
    | terminator =>
      obtain ⟨after, taken, built⟩ := incref_built (owned.fewest.spend (Nat.le_succ _)) live.left
      refine ⟨left.ptr, after, .succ (.of_eq fun fuel => ?_), ?_⟩
      · simp only [Shape.ptr_node, Heap.popMax, found, Shape.ptr_terminator, taken, ok_bind]
        rfl
      · rw [Shape.tree, Shape.tree, BalancedTree.popMax]
        exact built
    | node r rl rv rr rh =>
      obtain ⟨first, leftRef, owned1, kept⟩ := incref_spec owned.right live.left.holds
      obtain ⟨p, middle, returned, built⟩ := rightIH owned1 (live.right.kept kept)
      obtain ⟨q, after, returns, rebuilt⟩ := rebuild_right value kept built live.left.holds
      have step : ∀ fuel, Heap.popMax (fuel + 1) heap (some n) = (Heap.popMax fuel first (some r) >>= fun popped =>
            Heap.balance fuel popped.2.2 left.ptr value popped.2.1 >>= fun built =>
            pure (popped.1, built.1, built.2)) := by
        intro fuel
        simp only [Heap.popMax, found, ok_bind, Shape.ptr_node, leftRef]
      exact ⟨q, after, .succ (.congr step (returned.bind (returns.map_pure fun built => (_, built.1, built.2)))), rebuilt⟩

end

theorem removeRoot_some (heap : Heap ν) (n m fuel : Nat) :
    Heap.removeRoot fuel heap (some n) (some m) =
      (Heap.popMin fuel heap (some m) >>= fun popped =>
        match popped.1 with
        | none => throw .terminatorValue
        | some min => do
          let heap ← popped.2.2.incref (some n)
          Heap.balance fuel heap (some n) min popped.2.1) := rfl

theorem removeRoot_spec {left right : Shape ν} {n height : Nat} (owned : Owned heap held (room + (Shape.node n left v right height).demand))
    (leftLive : Live heap held left) (rightLive : Live heap held right) :
    ∃ p after, Returns (fun fuel => Heap.removeRoot fuel heap left.ptr right.ptr) (p, after) ∧
      Built heap held room (join left.tree right.tree) p after := by
  cases left with
  | terminator =>
    obtain ⟨after, taken, built⟩ := incref_built (owned.fewest.spend (Nat.le_succ _)) rightLive
    refine ⟨right.ptr, after, .of_eq fun fuel => ?_, built⟩
    simp only [Shape.ptr_terminator, Heap.removeRoot, taken, ok_bind]
    rfl
  | node n l v r h =>
    cases right with
    | terminator =>
      obtain ⟨after, taken, built⟩ := incref_built (owned.fewest.spend (Nat.le_succ _)) leftLive
      refine ⟨some n, after, .of_eq fun fuel => ?_, built⟩
      rw [Shape.ptr_node] at taken
      simp only [Shape.ptr_terminator, Shape.ptr_node, Heap.removeRoot, taken, ok_bind]
      rfl
    | node m l' v' r' h' =>
      have spent : Owned heap held (room + 4 + (Shape.node m l' v' r' h').demand) := owned.right.spend (by omega)
      obtain ⟨p, middle, returned, built⟩ := popMin_spec spent rightLive
      obtain ⟨least, popped, _⟩ := popMin_toList (Shape.node m l' v' r' h').tree (by rintro ⟨⟩)
      obtain ⟨shape, rfl, shapeHolds, its⟩ := built.shaped
      have leftHolds := (leftLive.stable built.stable).holds
      obtain ⟨heap1, leftRef, owned1, kept1⟩ := incref_spec built.owned leftHolds
      obtain ⟨q, after, returns, rebuilt⟩ := balance_spec least owned1 (kept1 _ leftHolds) (kept1 _ shapeHolds)
      rw [its] at rebuilt
      refine ⟨q, after, ?_, rebuilt.owned, (built.stable.trans (stable_of_kept kept1)).trans rebuilt.stable, ?_⟩
      · rw [popped] at returned
        refine .congr (removeRoot_some heap n m) (returned.bind (.congr (fun fuel => ?_) returns))
        rw [Shape.ptr_node] at leftRef
        simp only [leftRef, ok_bind, Shape.ptr_node]
      · rw [Shape.tree, join_node popped]
        exact rebuilt.shaped

variable (key) in
theorem remove_spec (owned : Owned heap held (room + shape.demand)) (live : Live heap held shape) :
    ∃ p after, Returns (fun fuel => Heap.remove key fuel heap shape.ptr k) (p, after) ∧
      Built heap held room (BalancedTree.remove key shape.tree k) p after := by
  refine descend_spec (Heap.remove key · · · k) (BalancedTree.remove key · k)
    (fun fuel heap _ node => Heap.removeRoot fuel heap node.left node.right)
    (fun l _ r _ => .join l r) (fun its fuel => ?_) rfl (fun owned live => ?_)
    (fun _ owned live => removeRoot_spec owned live.left live.right) owned live
  · rw [Heap.remove, its]
    rfl
  · obtain ⟨after, taken, built⟩ := incref_built (owned.spend (Nat.le_succ _)) live
    refine ⟨none, after, .succ (.of_eq fun fuel => ?_), built⟩
    rw [Shape.ptr_terminator] at taken
    simp only [Heap.remove, taken, ok_bind]
    rfl

theorem lookup_spec (holds : Holds heap shape) :
    Returns (fun fuel => Heap.lookup key fuel heap shape.ptr k) (BalancedTree.lookup key shape.tree k) := by
  induction shape with
  | terminator => exact .succ (.of_eq fun fuel => rfl)
  | node n left value right height leftIH rightIH =>
    obtain ⟨references, found⟩ := holds.deref
    have unfolded : ∀ fuel, Heap.lookup key (fuel + 1) heap (some n) k =
        if k < key value then Heap.lookup key fuel heap left.ptr k
        else if key value < k then Heap.lookup key fuel heap right.ptr k
        else pure (some value) := by
      intro fuel
      rw [Heap.lookup, found]
      rfl
    rw [Shape.tree, BalancedTree.lookup]
    by_cases less : k < key value
    · rw [if_pos less]
      exact .succ (.congr (fun fuel => (unfolded fuel).trans (if_pos less)) (leftIH holds.2.1))
    · by_cases greater : key value < k
      · rw [if_neg less, if_pos greater]
        refine .succ (.congr (fun fuel => ?_) (rightIH holds.2.2))
        rw [Shape.ptr_node, unfolded, if_neg less, if_pos greater]
      · rw [if_neg less, if_neg greater]
        refine .succ (.of_eq fun fuel => ?_)
        rw [Shape.ptr_node, unfolded, if_neg less, if_neg greater]
        rfl

theorem lookupPreviousLoop_spec {result : Option ν} (holds : Holds heap shape) :
    Returns (fun fuel => Heap.lookupPreviousLoop key fuel heap shape.ptr k result)
      (BalancedTree.lookupPrevious key shape.tree k result) := by
  induction shape generalizing result with
  | terminator => exact .succ (.of_eq fun fuel => rfl)
  | node n left value right height leftIH rightIH =>
    obtain ⟨references, found⟩ := holds.deref
    have unfolded : ∀ fuel, Heap.lookupPreviousLoop key (fuel + 1) heap (some n) k result =
        if k < key value then Heap.lookupPreviousLoop key fuel heap left.ptr k result
        else if key value < k then
          Heap.lookupPreviousLoop key fuel heap right.ptr k (some value)
        else pure (some value) := by
      intro fuel
      rw [Heap.lookupPreviousLoop, found]
      rfl
    rw [Shape.tree, BalancedTree.lookupPrevious]
    by_cases less : k < key value
    · rw [if_pos less]
      exact .succ (.congr (fun fuel => (unfolded fuel).trans (if_pos less)) (leftIH holds.2.1))
    · by_cases greater : key value < k
      · rw [if_neg less, if_pos greater]
        refine .succ (.congr (fun fuel => ?_) (rightIH holds.2.2))
        rw [Shape.ptr_node, unfolded, if_neg less, if_pos greater]
      · rw [if_neg less, if_neg greater]
        refine .succ (.of_eq fun fuel => ?_)
        rw [Shape.ptr_node, unfolded, if_neg less, if_neg greater]
        rfl

theorem size_spec (holds : Holds heap shape) : Returns (fun fuel => Heap.size fuel heap shape.ptr) shape.tree.size := by
  induction shape with
  | terminator => exact .succ (.of_eq fun fuel => rfl)
  | node n left value right height leftIH rightIH =>
    obtain ⟨references, found⟩ := holds.deref
    have step : ∀ fuel, Heap.size (fuel + 1) heap (some n) = (Heap.size fuel heap left.ptr >>= fun l =>
          Heap.size fuel heap right.ptr >>= fun r => pure (l + 1 + r)) := by
      intro fuel
      rw [Heap.size, found]
      rfl
    exact .succ (.congr step ((leftIH holds.2.1).bind ((rightIH holds.2.2).map_pure fun r => left.tree.size + 1 + r)))

end Operations

/-! ## Runs -/

section Runs

variable [LinearOrder κ] {key : ν → κ} {system next : System ν}

/-- The finite map of every version; a destroyed version has none. -/
abbrev Maps (κ ν : Type) := List (Option (Finmap fun _ : κ => ν))

def Event.version : Event κ ν → Option Nat
  | .empty => none
  | .copy i | .insert i _ | .replace i _ | .remove i _ | .popMin i | .popMax i | .destroy i => some i

noncomputable def Event.apply (key : ν → κ) (maps : Maps κ ν) : Event κ ν → Option ν × Maps κ ν
  | .empty => (none, maps ++ [some ∅])
  | .copy i => (none, maps ++ [maps[i]?.join])
  | .insert i v => (none, maps ++ [maps[i]?.join.map (BalancedTree.insertNew key · v)])
  | .replace i v => (none, maps ++ [maps[i]?.join.map (·.insert (key v) v)])
  | .remove i k => (none, maps ++ [maps[i]?.join.map (·.erase k)])
  | .popMin i => (maps[i]?.join.bind fun map => (BalancedTree.eraseMin map).1,
      maps ++ [maps[i]?.join.map fun map => (BalancedTree.eraseMin map).2])
  | .popMax i => (maps[i]?.join.bind fun map => (BalancedTree.eraseMax map).1,
      maps ++ [maps[i]?.join.map fun map => (BalancedTree.eraseMax map).2])
  | .destroy i => (none, maps.set i none)

def System.Permits (system : System ν) (event : Event κ ν) : Prop :=
  ∀ i, event.version = some i → ∃ p, system.versions[i]? = some (some p)

/-- Every counter can be raised so many times more. -/
def Heap.Spares (heap : Heap ν) (more : Nat) : Prop :=
  heap.terminatorReferences + more < 2 ^ 32 ∧
    ∀ entry ∈ heap.nodes, ∀ node ∈ entry, node.references + more < 2 ^ 32

instance (heap : Heap ν) (more : Nat) : Decidable (heap.Spares more) := by
  unfold Heap.Spares
  infer_instance

def Event.increments (height : Nat) : Event κ ν → Nat
  | .destroy _ => 0
  | .empty | .copy _ => 1
  | _ => 4 * height + 2

/-- The stored height of a version. -/
def System.height (system : System ν) : Option Nat → Nat
  | none => 0
  | some i => match system.node i >>= system.heap.height with
    | .ok height => height
    | .error _ => 0

/-- No counter can overflow in the event: none is within `4 * height + 2` of `2 ^ 32` when
the operation starts on a tree of that height. -/
def System.Spares (system : System ν) (event : Event κ ν) : Prop :=
  system.heap.Spares (event.increments (system.height event.version))

instance (event : Event κ ν) : Decidable (system.Spares event) :=
  inferInstanceAs (Decidable (system.heap.Spares _))

structure Sound (key : ν → κ) (shape : Shape ν) (map : Finmap fun _ : κ => ν) : Prop where
  balanced : shape.tree.Balanced
  ordered : shape.tree.Ordered key
  represents : BalancedTree.Represents key shape.tree map

/-- A version has a map exactly when it is still there, and is a balanced search tree for it. -/
def Mirrors (key : ν → κ) (heap : Heap ν) (version : Option Ptr)
    (map : Option (Finmap fun _ : κ => ν)) : Prop :=
  match version, map with
  | none, none => True
  | some p, some map => ∃ shape : Shape ν, shape.ptr = p ∧ Holds heap shape ∧ Sound key shape map
  | _, _ => False

def System.references (system : System ν) : List Ptr := system.versions.filterMap id

structure System.Valid (key : ν → κ) (system : System ν) (maps : Maps κ ν) : Prop where
  owned : Owned system.heap system.references 0
  lengths : system.versions.length = maps.length
  mirrors : ∀ i : Nat, Mirrors key system.heap system.versions[i]?.join maps[i]?.join

theorem Mirrors.stable {version : Option Ptr} {map : Option (Finmap fun _ : κ => ν)} (mirrors : Mirrors key heap version map)
    (stays : ∀ p, version = some p → ∀ shape : Shape ν, shape.ptr = p → Holds heap shape →
      Holds after shape) : Mirrors key after version map := by
  cases version with
  | none =>
    cases map with
    | none => trivial
    | some map => exact mirrors
  | some p =>
    cases map with
    | none => exact mirrors
    | some map =>
      obtain ⟨shape, its, holds, sound⟩ := mirrors
      exact ⟨shape, its, stays p rfl shape its holds, sound⟩

theorem mem_references {i : Nat} (found : system.versions[i]? = some (some p)) : p ∈ system.references :=
  mem_filterMap.mpr ⟨some p, mem_of_getElem? found, rfl⟩

theorem references_push (built : Ptr × Heap ν) : (system.push built).references.Perm (built.1 :: system.references) := by
  have same : (system.push built).references = system.references ++ [built.1] := by
    simp [System.references, System.push]
  rw [same]
  exact perm_append_singleton built.1 system.references

theorem references_destroy {versions : List (Option Ptr)} {i : Nat} (found : versions[i]? = some (some p)) :
    (versions.filterMap id).Perm (p :: (versions.set i none).filterMap id) := by
  induction versions generalizing i with
  | nil => cases found
  | cons version rest ih =>
    cases i with
    | zero =>
      obtain rfl : version = some p := by simpa using found
      simp
    | succ i =>
      have later := ih (i := i) (by simpa using found)
      cases version with
      | none => simpa using later
      | some q => simpa using (later.cons q).trans (.swap _ _ _)

theorem join_eq_some {α : Type} {entries : List (Option α)} {i : Nat} {entry : α} :
    entries[i]?.join = some entry ↔ entries[i]? = some (some entry) := by
  rw [Option.join_eq_some_iff]

section

variable {maps : Maps κ ν} (valid : system.Valid key maps)
include valid

theorem System.Valid.sound {i : Nat} (found : system.versions[i]? = some (some p)) :
    ∃ map shape, maps[i]?.join = some map ∧ shape.ptr = p ∧ Live system.heap system.references shape ∧ Sound key shape map := by
  have mirrors := valid.mirrors i
  rw [join_eq_some.mpr found] at mirrors
  cases its : maps[i]?.join with
  | none =>
    rw [its] at mirrors
    exact mirrors.elim
  | some map =>
    rw [its] at mirrors
    obtain ⟨shape, same, holds, sound⟩ := mirrors
    exact ⟨map, shape, rfl, same, ⟨shape, same ▸ mem_references found, holds, .refl shape⟩, sound⟩

theorem System.Valid.push {tree : BalancedTree ν} {map : Finmap fun _ : κ => ν}
    (built : Built system.heap system.references 0 tree p after) (balanced : tree.Balanced)
    (ordered : tree.Ordered key) (represents : BalancedTree.Represents key tree map) :
    (system.push (p, after)).Valid key (maps ++ [some map]) := by
  obtain ⟨shape, its, holds, rfl⟩ := built.shaped
  refine ⟨built.owned.perm (references_push (p, after)).symm, ?_, fun i => ?_⟩
  · simp [System.push, valid.lengths]
  · simp only [System.push]
    rcases Nat.lt_trichotomy i maps.length with old | rfl | beyond
    · rw [getElem?_append_left old, getElem?_append_left (valid.lengths ▸ old)]
      refine (valid.mirrors i).stable fun q found other same itsHolds => ?_
      exact built.stable other (same ▸ mem_references (join_eq_some.mp found)) itsHolds
    · rw [getElem?_concat_length, ← valid.lengths, getElem?_concat_length]
      exact ⟨shape, its, holds, balanced, ordered, represents⟩
    · have outside : system.versions.length < i := valid.lengths ▸ beyond
      rw [getElem?_eq_none (by simp; omega), getElem?_eq_none (by simp; omega)]
      trivial

theorem System.Valid.destroy {i : Nat} (owned : Owned after (System.references ⟨after, system.versions.set i none⟩) 0)
    (stable : Stable system.heap after (System.references ⟨after, system.versions.set i none⟩)) :
    System.Valid key ⟨after, system.versions.set i none⟩ (maps.set i none) := by
  refine ⟨owned, by simp [valid.lengths], fun j => ?_⟩
  have mirrors := valid.mirrors j
  by_cases same : j = i
  · subst same
    by_cases inside : j < maps.length
    · rw [getElem?_set_self inside, getElem?_set_self (valid.lengths ▸ inside)]
      trivial
    · have outside : ¬ j < system.versions.length := valid.lengths ▸ inside
      rw [getElem?_eq_none (by simpa using outside), getElem?_eq_none (by simpa using inside)]
      trivial
  · have unset : (system.versions.set i none)[j]? = system.versions[j]? := getElem?_set_ne (Ne.symm same)
    rw [unset, getElem?_set_ne (Ne.symm same)]
    refine mirrors.stable fun p found shape its holds => ?_
    have still : p ∈ System.references ⟨after, system.versions.set i none⟩ := mem_references (unset.trans (join_eq_some.mp found))
    exact stable shape (its ▸ still) holds

end

def Unchanged (before after : System ν) : Prop :=
  ∀ (i : Nat) (p : Ptr), before.versions[i]? = some (some p) →
    after.versions[i]? ≠ some none →
      after.versions[i]? = some (some p) ∧
        ∀ shape : Shape ν, shape.ptr = p → Holds before.heap shape → Holds after.heap shape

theorem unchanged_push (stable : Stable system.heap after system.references) : Unchanged system (system.push (p, after)) := by
  intro i q found _
  have inside := (List.getElem?_eq_some_iff.mp found).1
  refine ⟨(getElem?_append_left inside).trans found, ?_⟩
  exact fun shape its holds => stable shape (its ▸ mem_references found) holds

theorem unchanged_destroy {i : Nat} (stable : Stable system.heap after (System.references ⟨after, system.versions.set i none⟩)) :
    Unchanged system ⟨after, system.versions.set i none⟩ := by
  intro j p found kept
  have inside := (List.getElem?_eq_some_iff.mp found).1
  by_cases same : i = j
  · subst same
    exact absurd (getElem?_set_self inside) kept
  · have still : (system.versions.set i none)[j]? = some (some p) := (getElem?_set_ne same).trans found
    exact ⟨still, fun shape its holds => stable shape (its ▸ mem_references still) holds⟩

/-- The outcome of an event on a system that mirrors the maps: it pops what it pops from the
maps, the versions mirror the maps after it, and the other versions are unchanged. -/
def System.Answers (key : ν → κ) (system : System ν) (maps : Maps κ ν) (event : Event κ ν) : Prop :=
  ∃ next, Returns (fun fuel => system.step key fuel event) ((event.apply key maps).1, next) ∧
    next.Valid key (event.apply key maps).2 ∧ Unchanged system next

theorem System.Valid.answers_push {maps : Maps κ ν} {event : Event κ ν} {valueOut : Option ν}
    {tree : BalancedTree ν} {map : Finmap fun _ : κ => ν} (valid : system.Valid key maps)
    (returns : Returns (fun fuel => system.step key fuel event)
      (valueOut, system.push (p, after))) (built : Built system.heap system.references 0 tree p after)
    (balanced : tree.Balanced) (ordered : tree.Ordered key) (represents : BalancedTree.Represents key tree map)
    (applied : event.apply key maps = (valueOut, maps ++ [some map])) : system.Answers key maps event := by
  rw [Answers, applied]
  exact ⟨_, returns, valid.push built balanced ordered represents, unchanged_push built.stable⟩

theorem System.node_eq {i : Nat} (found : system.versions[i]? = some (some p)) : system.node i = .ok p := by
  rw [System.node, found]
  rfl

theorem Shape.levels_eq {shape : Shape ν} (balanced : shape.tree.Balanced) : shape.levels = shape.height := by
  induction shape with
  | terminator => rfl
  | node n left value right height leftIH rightIH =>
    obtain ⟨its, _, _, leftBalanced, rightBalanced⟩ := balanced
    rw [Shape.levels, leftIH leftBalanced, rightIH rightBalanced, Shape.height, its, Shape.height_tree, Shape.height_tree]

theorem Owned.spared (owned : Owned heap held 0) (spares : heap.Spares room) : Owned heap held room := by
  refine { owned with bounded := fun p => ?_ }
  have terminator := owned.terminator
  have enough := spares.1
  cases p with
  | none =>
    rw [uncounted]
    omega
  | some n =>
    rw [uncounted]
    by_cases free : ∀ node, heap.nodes[n]? ≠ some (some node)
    · obtain ⟨notHeld, notField⟩ := owned.unreferenced free
      omega
    · obtain ⟨node, found⟩ : ∃ node, heap.nodes[n]? = some (some node) := by simpa using free
      have counted := owned.counted n node found
      have bounded := spares.2 _ (mem_of_getElem? found) node rfl
      omega

/-- There is room for an operation on a version when the event is allowed. -/
theorem System.Valid.demanded {maps : Maps κ ν} {event : Event κ ν} {i : Nat} {shape : Shape ν}
    (valid : system.Valid key maps) (spares : system.Spares event) (version : event.version = some i)
    (found : system.versions[i]? = some (some shape.ptr)) (holds : Holds system.heap shape) (balanced : shape.tree.Balanced)
    (operation : ∀ height, event.increments height = 4 * height + 2) : Owned system.heap system.references (0 + shape.demand) := by
  have height : system.height event.version = shape.levels := by
    rw [version, System.height, System.node_eq found, ok_bind, holds.height, Shape.levels_eq balanced]
  rw [System.Spares, operation, height] at spares
  rw [Nat.zero_add]
  exact valid.owned.spared spares

theorem System.Valid.step {maps : Maps κ ν} {event : Event κ ν} (valid : system.Valid key maps)
    (permits : system.Permits event) (spares : system.Spares event) : system.Answers key maps event := by
  cases event with
  | empty =>
    have holds : Holds system.heap .terminator := trivial
    obtain ⟨after, taken, owned, kept⟩ := incref_spec (valid.owned.spared spares) holds
    refine valid.answers_push (.of_eq fun fuel => ?_)
      ⟨owned, stable_of_kept kept, .terminator, rfl, trivial, rfl⟩ trivial ?_ represents_leaf rfl
    · rw [Shape.ptr_terminator] at taken
      rw [System.step, taken]
      rfl
    · simp [Shape.tree, BalancedTree.Ordered, toList]
  | copy i =>
    obtain ⟨p, found⟩ := permits i rfl
    obtain ⟨map, shape, its, rfl, live, sound⟩ := valid.sound found
    obtain ⟨after, taken, built⟩ := incref_built (valid.owned.spared spares) live
    refine valid.answers_push (.of_eq fun fuel => ?_) built sound.balanced sound.ordered sound.represents (by rw [Event.apply, its])
    rw [System.step, System.node_eq found, ok_bind, taken]
    rfl
  | insert i v =>
    obtain ⟨p, found⟩ := permits i rfl
    obtain ⟨map, shape, its, rfl, live, sound⟩ := valid.sound found
    have owned := valid.demanded spares rfl found live.holds sound.balanced fun _ => rfl
    obtain ⟨p, after, returns, built⟩ := insert_spec key (v := v) owned live
    refine valid.answers_push (.congr (fun fuel => ?_) (returns.map_pure fun built => (none, system.push built)))
      built (insert_grown sound.balanced).1
      sound.ordered.insert (sound.represents.insertNew sound.ordered)
      (by rw [Event.apply, its]; rfl)
    rw [System.step, System.node_eq found, ok_bind]
  | replace i v =>
    obtain ⟨p, found⟩ := permits i rfl
    obtain ⟨map, shape, its, rfl, live, sound⟩ := valid.sound found
    have owned := valid.demanded spares rfl found live.holds sound.balanced fun _ => rfl
    obtain ⟨p, after, returns, built⟩ := replace_spec key (v := v) owned live
    refine valid.answers_push (.congr (fun fuel => ?_) (returns.map_pure fun built => (none, system.push built)))
      built (replace_grown sound.balanced).1
      sound.ordered.replace (sound.represents.replace sound.ordered) (by rw [Event.apply, its]; rfl)
    rw [System.step, System.node_eq found, ok_bind]
  | remove i k =>
    obtain ⟨p, found⟩ := permits i rfl
    obtain ⟨map, shape, its, rfl, live, sound⟩ := valid.sound found
    have owned := valid.demanded spares rfl found live.holds sound.balanced fun _ => rfl
    obtain ⟨p, after, returns, built⟩ := remove_spec key (k := k) owned live
    refine valid.answers_push (.congr (fun fuel => ?_) (returns.map_pure fun built => (none, system.push built)))
      built (remove_shrunk sound.balanced).1
      sound.ordered.remove (sound.represents.remove sound.ordered) (by rw [Event.apply, its]; rfl)
    rw [System.step, System.node_eq found, ok_bind]
  | popMin i =>
    obtain ⟨p, found⟩ := permits i rfl
    obtain ⟨map, shape, its, rfl, live, sound⟩ := valid.sound found
    have owned := valid.demanded spares rfl found live.holds sound.balanced fun _ => rfl
    obtain ⟨p, after, returns, built⟩ := popMin_spec owned live
    obtain ⟨value, represents⟩ := sound.represents.popMin sound.ordered
    refine valid.answers_push (.congr (fun fuel => ?_) (returns.map_pure fun popped => (popped.1, system.push popped.2)))
      built (popMin_shrunk sound.balanced).1
      sound.ordered.popMin represents (by rw [Event.apply, its, value]; rfl)
    rw [System.step, System.node_eq found, ok_bind]
  | popMax i =>
    obtain ⟨p, found⟩ := permits i rfl
    obtain ⟨map, shape, its, rfl, live, sound⟩ := valid.sound found
    have owned := valid.demanded spares rfl found live.holds sound.balanced fun _ => rfl
    obtain ⟨p, after, returns, built⟩ := popMax_spec owned live
    obtain ⟨value, represents⟩ := sound.represents.popMax sound.ordered
    refine valid.answers_push (.congr (fun fuel => ?_) (returns.map_pure fun popped => (popped.1, system.push popped.2)))
      built (popMax_shrunk sound.balanced).1
      sound.ordered.popMax represents (by rw [Event.apply, its, value]; rfl)
    rw [System.step, System.node_eq found, ok_bind]
  | destroy i =>
    obtain ⟨p, found⟩ := permits i rfl
    obtain ⟨map, shape, its, rfl, live, sound⟩ := valid.sound found
    have owned := valid.owned.perm (references_destroy found)
    obtain ⟨after, returns, ownedAfter, stable⟩ := decref_spec owned live.holds
    refine ⟨⟨after, system.versions.set i none⟩, ?_, valid.destroy ownedAfter stable, unchanged_destroy stable⟩
    have returned : Returns (fun fuel => Heap.decref fuel system.heap shape.ptr) after :=
      ⟨shape.size + 1, fun fuel enough => returns fuel enough⟩
    refine .congr (fun fuel => ?_) (returned.map_pure fun heap : Heap ν =>
      ((none, ⟨heap, system.versions.set i none⟩) : Option ν × System ν))
    rw [System.step, System.node_eq found, ok_bind]

/-- The systems that a sequence of allowed events leads to, with the maps of the same events. -/
inductive System.Reached (key : ν → κ) (allowed : System ν → Event κ ν → Prop) :
    System ν → Maps κ ν → Prop where
  | start : System.Reached key allowed System.initial []
  | step {system next : System ν} {maps : Maps κ ν} (event : Event κ ν) (valueOut : Option ν)
      (reached : System.Reached key allowed system maps) (permits : system.Permits event)
      (allows : allowed system event)
      (returned : Returns (fun fuel => system.step key fuel event) (valueOut, next)) :
      System.Reached key allowed next (event.apply key maps).2

omit [LinearOrder κ] in
theorem System.permits_of {event : Event κ ν} {i : Nat} (its : event.version = some i)
    (found : system.versions[i]? = some (some p)) : system.Permits event := by
  intro j same
  obtain rfl := Option.some.inj (its.symm.trans same)
  exact ⟨p, found⟩

theorem initial_valid : (System.initial : System ν).Valid key [] :=
  ⟨initial_owned, rfl, fun _ => trivial⟩

theorem System.Reached.valid {maps : Maps κ ν} (reached : System.Reached key System.Spares system maps) : system.Valid key maps := by
  induction reached with
  | start => exact initial_valid
  | step _ _ _ permits spares returned ih =>
    obtain ⟨next, returns, valid, _⟩ := ih.step permits spares
    obtain rfl := (Prod.mk.inj (returned.unique returns)).2
    exact valid

/-- The tree of a version is a balanced search tree that holds the values of the map: its keys
increase in order, the stored heights are right and those of siblings differ by at most two. -/
structure System.IsSearchTree (key : ν → κ) (system : System ν) (p : Ptr)
    (map : Finmap fun _ : κ => ν) : Prop where
  shaped : ∃ shape : Shape ν, shape.ptr = p ∧ Holds system.heap shape ∧ shape.tree.Balanced ∧
    shape.tree.toList.Pairwise (key · < key ·)
  size : Returns (fun fuel => Heap.size fuel system.heap p) map.keys.card
  lookup : ∀ k, Returns (fun fuel => Heap.lookup key fuel system.heap p k) (map.lookup k)
  lookupPrevious : ∀ k, Returns (fun fuel => Heap.lookupPrevious key fuel system.heap p k)
    (BalancedTree.lookupBelow map k)
  count : ∀ k, Returns (fun fuel => Heap.count key fuel system.heap p k) (if k ∈ map then 1 else 0)

theorem count_spec {k : κ} {found : Option ν} (returns : Returns (fun fuel => Heap.lookup key fuel heap p k) found) :
    Returns (fun fuel => Heap.count key fuel heap p k) (if found.isSome then 1 else 0) :=
  returns.map_pure fun found : Option ν => if found.isSome then 1 else 0

theorem System.Valid.isSearchTree {maps : Maps κ ν} {i : Nat} {map : Finmap fun _ : κ => ν}
    (valid : system.Valid key maps) (found : system.versions[i]? = some (some p))
    (its : maps[i]? = some (some map)) : system.IsSearchTree key p map := by
  obtain ⟨_, shape, same, rfl, live, sound⟩ := valid.sound found
  obtain rfl := Option.some.inj ((join_eq_some.mpr its).symm.trans same)
  have looked : ∀ k, Returns (fun fuel => Heap.lookup key fuel system.heap shape.ptr k) (map.lookup k) := fun k =>
    sound.represents.lookup sound.ordered ▸ lookup_spec live.holds
  refine ⟨⟨shape, rfl, live.holds, sound.balanced, sound.ordered⟩, ?_, looked, fun k => ?_, fun k => ?_⟩
  · exact sound.represents.size_eq sound.ordered ▸ size_spec live.holds
  · exact sound.represents.lookupPrevious sound.ordered ▸ lookupPreviousLoop_spec live.holds
  · simpa only [Finmap.lookup_isSome] using count_spec (looked k)

/-- Over every sequence of operations on any versions in which no counter can overflow: there is a
map for each version that is still there, and the version is a balanced search tree for it; and each
further operation succeeds, pops what it pops from the map, and leaves the other versions as they are. -/
theorem versions_are_balanced_search_trees {maps : Maps κ ν}
    (reached : System.Reached key System.Spares system maps) :
    (∀ (i : Nat) p, system.versions[i]? = some (some p) →
      ∃ map, maps[i]? = some (some map) ∧ system.IsSearchTree key p map) ∧
    ∀ event, system.Permits event → system.Spares event →
      ∃ next, Returns (fun fuel => system.step key fuel event) ((event.apply key maps).1, next) ∧
        System.Reached key System.Spares next (event.apply key maps).2 ∧ Unchanged system next := by
  have valid := reached.valid
  constructor
  · intro i p found
    obtain ⟨map, _, its, _⟩ := valid.sound found
    exact ⟨map, join_eq_some.mp its, valid.isSearchTree found (join_eq_some.mp its)⟩
  · intro event permits spares
    obtain ⟨next, returns, _, unchanged⟩ := valid.step permits spares
    exact ⟨next, returns, reached.step _ _ permits spares returns, unchanged⟩

/-- The values one, two, three and so on were inserted, each into the version before. -/
def ascending : Nat → System Nat
  | 0 => ⟨⟨[], 4⟩, [some none]⟩
  | i + 1 => match (ascending i).step id 8 (.insert i (i + 1)) with
    | .ok (_, next) => next
    | .error _ => ascending i

theorem ascending_search_trees : (∃ map, (ascending 4).IsSearchTree id (some 10) map) ∧
    ∃ valueOut next, Returns (fun fuel => (ascending 4).step id fuel (.remove 4 2)) (valueOut, next) := by
  have emptied : System.Reached id System.Spares (ascending 0) _ :=
    .step (.empty : Event Nat Nat) none .start nofun (by decide) (.of_eq fun _ => rfl)
  have first : System.Reached id System.Spares (ascending 1) _ :=
    .step (.insert 0 1) none emptied (System.permits_of rfl rfl) (by decide) (.succ (.of_eq fun _ => rfl))
  have second : System.Reached id System.Spares (ascending 2) _ :=
    .step (.insert 1 2) none first (System.permits_of rfl rfl) (by decide) (.succ (.succ (.of_eq fun _ => rfl)))
  have third : System.Reached id System.Spares (ascending 3) _ :=
    .step (.insert 2 3) none second (System.permits_of rfl rfl) (by decide)
      (.succ (.succ (.succ (.of_eq fun _ => rfl))))
  have fourth : System.Reached id System.Spares (ascending 4) _ :=
    .step (.insert 3 4) none third (System.permits_of rfl rfl) (by decide)
      (.succ (.succ (.succ (.succ (.of_eq fun _ => rfl)))))
  obtain ⟨trees, answers⟩ := versions_are_balanced_search_trees fourth
  obtain ⟨map, _, tree⟩ := trees 4 (some 10) rfl
  obtain ⟨next, returns, _⟩ := answers (.remove 4 2) (System.permits_of rfl rfl) (by decide)
  exact ⟨⟨map, tree⟩, _, next, returns⟩

/-- One value was inserted into the empty tree, and then `again` times more into the result. -/
def inserted (again : Nat) : System Nat :=
  ⟨⟨[some ⟨none, none, 5, 1, (again + 1) % 2 ^ 32⟩], 6⟩,
    some none :: some (some 0) :: replicate again (some (some 0))⟩

theorem inserted_reached (again : Nat) : ∃ maps, System.Reached id (fun _ _ => True) (inserted again) maps := by
  induction again with
  | zero =>
    have emptied : System.Reached (id : Nat → Nat) (fun _ _ => True) (⟨⟨[], 4⟩, [some none]⟩ : System Nat) _ :=
      .step .empty none .start nofun trivial (.of_eq fun _ => rfl)
    exact ⟨_, .step (.insert 0 5) none emptied
      (System.permits_of rfl rfl) trivial (.succ (.of_eq fun _ => rfl))⟩
  | succ again ih =>
    obtain ⟨maps, reached⟩ := ih
    refine ⟨_, .step (.insert 1 5) none reached (System.permits_of rfl rfl) trivial
      (.succ (.of_eq fun fuel => ?_))⟩
    have raised : ((again + 1) % 2 ^ 32 + 1) % 2 ^ 32 = (again + 1 + 1) % 2 ^ 32 := Nat.mod_add_mod _ _ _
    have longer : replicate again (some (some 0)) ++ [some (some 0)] = replicate (again + 1) (some (some 0)) :=
      (replicate_succ' ..).symm
    rw [inserted, inserted, ← raised, ← longer]
    rfl

/-- The counter of the node comes round to one, and the node is deleted with the first of the
versions that share it. -/
theorem overflow_deletes_shared : ∃ maps next, System.Reached id (fun _ _ => True) (inserted (2 ^ 32)) maps ∧
    Returns (fun fuel => (inserted (2 ^ 32)).step id fuel (.destroy 1 : Event Nat Nat)) (none, next) ∧
    next.versions[2]? = some (some (some 0)) ∧ ∀ map, ¬ next.IsSearchTree (id : Nat → Nat) (some 0) map := by
  obtain ⟨maps, reached⟩ := inserted_reached (2 ^ 32)
  refine ⟨maps, ⟨⟨[none], 4⟩, some none :: none :: replicate (2 ^ 32) (some (some 0))⟩, reached,
    .succ (.succ (.of_eq fun fuel => ?_)), ?_, fun map tree => ?_⟩
  · have one : (2 ^ 32 + 1) % 2 ^ 32 = 1 := by decide
    rw [inserted, one]
    rfl
  · exact getElem?_replicate_of_lt (by decide)
  · obtain ⟨shape, its, holds, _⟩ := tree.shaped
    obtain ⟨node, found⟩ := holds.allocated its
    cases found

end Runs

end NeuroMerge.ImmutableTree
