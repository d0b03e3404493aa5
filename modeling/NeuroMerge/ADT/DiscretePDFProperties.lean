import Mathlib.Algebra.BigOperators.Group.Finset.Basic
import Mathlib.Data.Finmap
import NeuroMerge.ADT.DiscretePDFBalance

/-!
# The distribution samples in proportion

After every operation the tree is a search tree whose links are consistent and
whose nodes hold the sums of the weights below them, and its items are those of a
map that the same operations give. So `choose` finds the item whose interval of
cumulative weight the point lies in.
-/

namespace NeuroMerge.DiscretePDF

open List Function

variable {τ : Type}

/-! ## Sums up to the root -/

section Sums

variable {pdf : PDF τ} {marks : Nat → Bool} {path : Path τ} {tree left right : Tree τ}
  {frame : Frame τ} {n : Nat} {key : τ} {weight sum : ℚ}

theorem setSum_at (its : At pdf marks path (.node n left key weight sum right)) :
    ∃ after, pdf.setSum n = .ok after ∧ At after marks path (.node n left key weight (weight + left.sum + right.sum) right) := by
  have distinct := its.distinct
  have member : n ∈ idsOf (Tree.node n left key weight sum right).entries := by simp [Tree.entries]
  have apart := distinct
  rw [Tree.entries] at apart
  obtain ⟨found, leftHolds, rightHolds⟩ := its.below
  refine ⟨_, setSum_eq found (sumOf_eq leftHolds) (sumOf_eq rightHolds), its.above.congr rfl ?_,
    ⟨if_pos rfl, leftHolds.congr ?_, rightHolds.congr ?_⟩, distinct, its.allocated⟩
  · exact fun m inPath => if_neg fun equal : m = n => its.apart member (equal ▸ inPath)
  · exact fun m inLeft => if_neg (by grind)
  · exact fun m inRight => if_neg (by grind)

theorem summed_frame (other : frame.other.Summed) (below : tree.Summed) :
    ∃ left right sum, frame.plug tree = .node frame.id left frame.key frame.weight sum right ∧ left.Summed ∧ right.Summed := by
  obtain ⟨side, id, itsKey, itsWeight, itsSum, itsOther⟩ := frame
  cases side with
  | left => exact ⟨_, _, _, rfl, below, other⟩
  | right => exact ⟨_, _, _, rfl, other, below⟩

def Resummed (after : PDF τ) (marks : Nat → Bool) (path : Path τ) (tree : Tree τ) : Prop :=
  ∃ newTree, At after marks [] newTree ∧ newTree.Summed ∧ newTree.entries = path.whole tree ∧
    newTree.ptr = path.root tree.ptr

theorem propagate_above (its : At pdf marks path tree) (treeSummed : tree.Summed) (summed : path.Summed) :
    ∃ after, Returns (fun fuel => pdf.propogateSumsUp fuel path.parent) after ∧ Resummed after marks path tree := by
  induction path generalizing pdf tree with
  | nil =>
    refine ⟨pdf, .succ (.of_eq fun fuel => rfl), tree, its, treeSummed, ?_, rfl⟩
    simp [Path.before, Path.after]
  | cons frame path ih =>
    obtain ⟨left, right, sum, plugged, leftSummed, rightSummed⟩ := summed_frame (summed frame mem_cons_self) treeSummed
    have above := at_frame.mp its
    rw [plugged] at above
    obtain ⟨middle, sets, itsMiddle⟩ := setSum_at above
    obtain ⟨after, returns, newTree, itsAfter, newSummed, entries, root⟩ :=
      ih itsMiddle ⟨rfl, leftSummed, rightSummed⟩ fun next member => summed next (mem_cons_of_mem _ member)
    refine ⟨after, .succ (.congr (fun fuel => ?_) returns), newTree, itsAfter, newSummed, ?_, root⟩
    · rw [Path.parent, PDF.propogateSumsUp, sets]
      simp only [ok_bind, get_eq itsMiddle.below.1]
    · rw [entries, Path.whole, Path.whole, entries_up, plugged]
      rfl

theorem propagate_from (its : At pdf marks path (.node n left key weight sum right))
    (leftSummed : left.Summed) (rightSummed : right.Summed) (summed : path.Summed) :
    ∃ after, Returns (fun fuel => pdf.propogateSumsUp fuel (some n)) after ∧
      Resummed after marks path (.node n left key weight sum right) := by
  obtain ⟨middle, sets, itsMiddle⟩ := setSum_at its
  obtain ⟨after, returns, newTree, itsAfter, newSummed, entries, root⟩ := propagate_above itsMiddle ⟨rfl, leftSummed, rightSummed⟩ summed
  refine ⟨after, .succ (.congr (fun fuel => ?_) returns), newTree, itsAfter, newSummed, entries, root⟩
  rw [PDF.propogateSumsUp, sets]
  simp only [ok_bind, get_eq itsMiddle.below.1]

end Sums

/-! ## Places -/

variable {first : Path τ}

section Places

variable {pdf : PDF τ} {marks : Nat → Bool} {path : Path τ} {tree left right : Tree τ}
  {frame : Frame τ} {n m : Nat} {key : τ} {weight sum : ℚ} {hole : Ptr}

theorem read_eq (holds : HoldsPath pdf marks path hole) : pdf.read path.place = .ok hole := by
  cases path with
  | nil =>
    rw [← holds]
    rfl
  | cons frame path =>
    obtain ⟨side, id, itsKey, itsWeight, itsSum, other⟩ := frame
    cases side with
    | left =>
      simp only [Path.place, PDF.read, get_eq holds.1]
      rfl
    | right =>
      simp only [Path.place, PDF.read, get_eq holds.1]
      rfl

theorem read_at (its : At pdf marks path tree) : pdf.read path.place = .ok tree.ptr :=
  read_eq its.above

theorem summed_plug (whole : (path.plug tree).Summed) : path.Summed ∧ tree.Summed := by
  induction path generalizing tree with
  | nil => exact ⟨nofun, whole⟩
  | cons frame path ih =>
    obtain ⟨summed, below⟩ := ih whole
    obtain ⟨side, id, itsKey, itsWeight, itsSum, other⟩ := frame
    cases side with
    | left => exact ⟨forall_mem_cons.mpr ⟨below.2.2, summed⟩, below.2.1⟩
    | right => exact ⟨forall_mem_cons.mpr ⟨below.2.1, summed⟩, below.2.2⟩

theorem at_whole : At pdf marks path tree ↔ At pdf marks [] (path.plug tree) := by
  have plugged := @at_plug τ pdf marks [] tree path
  rwa [append_nil] at plugged

theorem root_plug (path : Path τ) (tree : Tree τ) : (path.plug tree).ptr = path.root tree.ptr := by
  induction path generalizing tree with
  | nil => rfl
  | cons frame path ih => rw [Path.plug, ih, ptr_frame, Path.root]

theorem root_append {p : Ptr} : Path.root (first ++ path) p = path.root (Path.root first p) := by
  induction first generalizing p with
  | nil => rfl
  | cons frame first ih => exact ih

theorem whole_root : Path.whole [] tree = tree.entries := by
  simp [Path.before, Path.after]

end Places

/-! ## Looking up -/

def Sorted [LinearOrder τ] (entries : List (Entry τ)) : Prop :=
  entries.Pairwise fun first second => first.2.1 < second.2.1

variable {second : List (Entry τ)}

theorem sorted_of_keys [LinearOrder τ] {first : List (Entry τ)}
    (keys : first.map (·.2.1) = second.map (·.2.1)) (sorted : Sorted second) : Sorted first := by
  have ordered := List.pairwise_map.mpr sorted
  rw [← keys] at ordered
  exact List.pairwise_map.mp ordered

def Between [LinearOrder τ] (path : Path τ) (item : τ) : Prop :=
  (∀ entry ∈ path.before, entry.2.1 < item) ∧ ∀ entry ∈ path.after, item < entry.2.1

section Search

variable [LinearOrder τ] {pdf : PDF τ} {marks : Nat → Bool} {path : Path τ} {tree left right : Tree τ}
  {frame : Frame τ} {n : Nat} {key item : τ} {weight sum : ℚ}

def Frame.toLeft (n : Nat) (key : τ) (weight sum : ℚ) (right : Tree τ) : Frame τ :=
  ⟨.left, n, key, weight, sum, right⟩

def Frame.toRight (n : Nat) (left : Tree τ) (key : τ) (weight sum : ℚ) : Frame τ :=
  ⟨.right, n, key, weight, sum, left⟩

theorem between_left (sorted : Sorted (path.whole (.node n left key weight sum right)))
    (between : Between path item) (less : item < key) : Between (Frame.toLeft n key weight sum right :: path) item := by
  refine ⟨fun entry member => between.1 entry ?_, fun entry member => ?_⟩
  · simpa [Path.before, Frame.before, Frame.toLeft] using member
  · simp only [Path.after, Frame.after, Frame.toLeft, cons_append, mem_cons, mem_append] at member
    rcases member with rfl | inRight | above
    · exact less
    · refine less.trans ?_
      simp only [Sorted, Path.whole, Tree.entries, pairwise_append, pairwise_cons] at sorted
      exact sorted.1.2.1.2.1.1 entry inRight
    · exact between.2 entry above

theorem between_right (sorted : Sorted (path.whole (.node n left key weight sum right)))
    (between : Between path item) (greater : key < item) : Between (Frame.toRight n left key weight sum :: path) item := by
  refine ⟨fun entry member => ?_, fun entry member => between.2 entry ?_⟩
  · simp only [Path.before, Frame.before, Frame.toRight, mem_cons, mem_append, not_mem_nil, or_false] at member
    rcases member with above | inLeft | rfl
    · exact between.1 entry above
    · refine lt_trans ?_ greater
      simp only [Sorted, Path.whole, Tree.entries, pairwise_append, pairwise_cons] at sorted
      exact sorted.1.2.1.2.2 entry inLeft _ mem_cons_self
    · exact greater
  · simpa [Path.after, Frame.after, Frame.toRight] using member

omit [LinearOrder τ] in
theorem length_entries (tree : Tree τ) : tree.entries.length = tree.size := by
  induction tree with
  | leaf => rfl
  | node id left key weight sum right leftIH rightIH =>
    rw [Tree.entries, Tree.size, length_append, length_cons, leftIH, rightIH]
    omega

/-- What the loop of `insert` finds: the place of the item. -/
def Descends (pdf : PDF τ) (path : Path τ) (tree : Tree τ) (item : τ) : Prop :=
  ∃ after newMarks newPath,
    Returns (fun fuel => pdf.descend fuel item path.parent tree.ptr) (newPath.parent, after) ∧
    Steady after newMarks newPath .leaf ∧ Between newPath item ∧
    newPath.whole .leaf = path.whole tree

theorem descend_step {next : PDF τ} {p : Ptr} (steady : Steady next marks path (.node n left key weight sum right))
    (sorted : Sorted (path.whole (.node n left key weight sum right)))
    (between : Between path item) (different : key ≠ item) (leftSummed : left.Summed) (rightSummed : right.Summed)
    (toLeft : Steady next marks (Frame.toLeft n key weight sum right :: path) left →
      Between (Frame.toLeft n key weight sum right :: path) item →
      Descends next (Frame.toLeft n key weight sum right :: path) left item)
    (toRight : Steady next marks (Frame.toRight n left key weight sum :: path) right →
      Between (Frame.toRight n left key weight sum :: path) item →
      Descends next (Frame.toRight n left key weight sum :: path) right item)
    (unfolded : ∀ fuel, pdf.descend (fuel + 1) item p (some n) = (do
      let node ← next.get n
      if node.key = item then throw .assertion
      else next.descend fuel item (some n) (if item < node.key then node.left else node.right))) :
    ∃ after newMarks newPath,
      Returns (fun fuel => pdf.descend fuel item p (some n)) (newPath.parent, after) ∧
      Steady after newMarks newPath .leaf ∧ Between newPath item ∧
      newPath.whole .leaf = path.whole (.node n left key weight sum right) := by
  have found : next.get n = _ := get_eq steady.its.below.1
  by_cases less : item < key
  · have steadyLeft : Steady next marks (Frame.toLeft n key weight sum right :: path) left := steady_frame.mpr ⟨steady, rightSummed⟩
    obtain ⟨after, newMarks, newPath, returns, steadyAfter, betweenAfter, whole⟩ := toLeft steadyLeft (between_left sorted between less)
    refine ⟨after, newMarks, newPath, .succ (.congr (fun fuel => ?_) returns), steadyAfter, betweenAfter, whole.trans entries_up⟩
    rw [unfolded, found, ok_bind, if_neg different, if_pos less]
    rfl
  · have greater : key < item := lt_of_le_of_ne (not_lt.mp less) different
    have steadyRight : Steady next marks (Frame.toRight n left key weight sum :: path) right := steady_frame.mpr ⟨steady, leftSummed⟩
    obtain ⟨after, newMarks, newPath, returns, steadyAfter, betweenAfter, whole⟩ :=
      toRight steadyRight (between_right sorted between greater)
    refine ⟨after, newMarks, newPath, .succ (.congr (fun fuel => ?_) returns), steadyAfter, betweenAfter, whole.trans entries_up⟩
    rw [unfolded, found, ok_bind, if_neg different, if_neg less]
    rfl

omit [LinearOrder τ] in
theorem root_red (red : blackOf marks tree.ptr = false) : ∃ id, tree.ptr = some id ∧ marks id = true := by
  obtain ⟨id, left, key, weight, sum, right, rfl⟩ := blackOf_eq_false red
  exact ⟨id, rfl, by simpa [blackOf] using red⟩

/-- The loop of `insert` ends: a split makes the red nodes fewer, and without one the subtree
gets smaller. -/
theorem descend_spec (bound : Nat) (steady : Steady pdf marks path tree) (summed : tree.Summed)
    (sorted : Sorted (path.whole tree)) (between : Between path item) (absent : ∀ entry ∈ path.whole tree, entry.2.1 ≠ item)
    (enough : reds marks (path.whole tree) * ((path.whole tree).length + 1) + tree.size ≤ bound) : Descends pdf path tree item := by
  induction bound using Nat.strong_induction_on generalizing pdf marks path tree with
  | _ bound ih =>
    cases tree with
    | leaf =>
      exact ⟨pdf, marks, path, .succ (.of_eq fun fuel => rfl), steady, between, rfl⟩
    | node n left key weight sum right =>
      obtain ⟨_, leftSummed, rightSummed⟩ := summed
      have different : key ≠ item := absent (n, key, weight) (by simp [Tree.entries])
      have children : ∀ (next : PDF τ) (nextMarks : Nat → Bool) (nextPath : Path τ) (nextLeft nextRight : Tree τ) (nextSum : ℚ),
          Steady next nextMarks nextPath (.node n nextLeft key weight nextSum nextRight) →
          nextLeft.Summed → nextRight.Summed → Between nextPath item →
          nextPath.whole (.node n nextLeft key weight nextSum nextRight) = path.whole (.node n left key weight sum right) →
          (∀ child : Tree τ, child = nextLeft ∨ child = nextRight →
            reds nextMarks (path.whole (.node n left key weight sum right)) *
                ((path.whole (.node n left key weight sum right)).length + 1) + child.size <
              bound) →
          (∀ fuel, pdf.descend (fuel + 1) item path.parent (some n) = (do
            let node ← next.get n
            if node.key = item then throw .assertion
            else (next.descend fuel item (some n)
              (if item < node.key then node.left else node.right)))) →
          Descends pdf path (.node n left key weight sum right) item := by
        intro next nextMarks nextPath nextLeft nextRight nextSum steadyNext nextLeftSummed
          nextRightSummed betweenNext whole smaller unfolded
        have wholeLeft : Path.whole (Frame.toLeft n key weight nextSum nextRight :: nextPath)
            nextLeft = path.whole (.node n left key weight sum right) := entries_up.trans whole
        have wholeRight : Path.whole (Frame.toRight n nextLeft key weight nextSum :: nextPath)
            nextRight = path.whole (.node n left key weight sum right) := entries_up.trans whole
        obtain ⟨after, newMarks, newPath, returns, steadyAfter, betweenAfter, wholeAfter⟩ :=
          descend_step steadyNext (whole ▸ sorted) betweenNext different nextLeftSummed nextRightSummed
            (fun steadyLeft betweenLeft => ih _ (smaller nextLeft (.inl rfl)) steadyLeft nextLeftSummed (wholeLeft ▸ sorted) betweenLeft
              (wholeLeft ▸ absent) (wholeLeft ▸ le_rfl))
            (fun steadyRight betweenRight => ih _ (smaller nextRight (.inr rfl)) steadyRight
              nextRightSummed (wholeRight ▸ sorted) betweenRight
              (wholeRight ▸ absent) (wholeRight ▸ le_rfl))
            unfolded
        exact ⟨after, newMarks, newPath, returns, steadyAfter, betweenAfter, wholeAfter.trans whole⟩
      have unfolded : ∀ fuel, pdf.descend (fuel + 1) item path.parent (some n) = (do
          let pdf ← (if !blackOf marks left.ptr && !blackOf marks right.ptr then pdf.split n
            else pure pdf)
          let node ← pdf.get n
          if node.key = item then throw .assertion
          else (pdf.descend fuel item (some n)
            (if item < node.key then node.left else node.right))) := by
        intro fuel
        rw [PDF.descend, get_eq steady.its.below.1]
        simp only [ok_bind, isBlack_eq steady.its.below.2.1, isBlack_eq steady.its.below.2.2]
      by_cases bothRed : (!blackOf marks left.ptr && !blackOf marks right.ptr) = true
      · obtain ⟨after, newMarks, newPath, newLeft, newSum, newRight, splits, steadyAfter,
          newLeftSummed, newRightSummed, shifted, fewer⟩ :=
          split_spec steady leftSummed rightSummed
        refine children after newMarks newPath newLeft newRight newSum steadyAfter newLeftSummed
          newRightSummed ⟨fun entry member => between.1 entry (shifted.before member),
            fun entry member => between.2 entry (shifted.after member)⟩ shifted.entries
          (fun child its => ?_) (fun fuel => ?_)
        · obtain ⟨leftRed, rightRed⟩ := Bool.and_eq_true_iff.mp bothRed
          obtain ⟨i, leftRoot, iRed⟩ := root_red (by simpa using leftRed)
          obtain ⟨j, rightRoot, jRed⟩ := root_red (by simpa using rightRed)
          have less := fewer i j leftRoot rightRoot iRed jRed
          have inside : child.size ≤ (path.whole (.node n left key weight sum right)).length := by
            have length := congrArg List.length shifted.entries
            rw [← length, Path.whole]
            simp only [length_append, length_entries, Tree.size]
            rcases its with rfl | rfl
            · omega
            · omega
          refine lt_of_lt_of_le ?_ ((Nat.le_add_right _ _).trans enough)
          refine lt_of_lt_of_le ?_ (Nat.mul_le_mul_right _ less)
          rw [Nat.succ_mul]
          omega
        · rw [unfolded, if_pos bothRed, splits, ok_bind]
      · refine children pdf marks path left right sum steady leftSummed rightSummed between rfl (fun child its => ?_) (fun fuel => ?_)
        · have smaller : child.size < (Tree.node n left key weight sum right).size := by
            rw [Tree.size]
            rcases its with rfl | rfl
            · omega
            · omega
          omega
        · rw [unfolded, if_neg bothRed]
          rfl

end Search

/-! ## Operations -/

def itemsOf (entries : List (Entry τ)) : List (τ × ℚ) := entries.map Prod.snd

@[simp] theorem itemsOf_append {first : List (Entry τ)} : itemsOf (first ++ second) = itemsOf first ++ itemsOf second := map_append

@[simp] theorem itemsOf_cons {entry : Entry τ} {rest : List (Entry τ)} : itemsOf (entry :: rest) = entry.2 :: itemsOf rest := rfl

@[simp] theorem itemsOf_nil : itemsOf ([] : List (Entry τ)) = [] := rfl

variable {child : Tree τ}

section Operations

variable [LinearOrder τ] {pdf after : PDF τ} {marks : Nat → Bool} {path : Path τ}
  {tree left right : Tree τ} {frame : Frame τ} {n : Nat} {key item : τ} {weight sum : ℚ}

structure Sound (pdf : PDF τ) (marks : Nat → Bool) (tree : Tree τ) : Prop where
  steady : Steady pdf marks [] tree
  summed : tree.Summed
  sorted : Sorted tree.entries

theorem Resummed.sound (resummed : Resummed after marks path tree)
    (rootBlack : ∀ id, path.root tree.ptr = some id → marks id = false) (sorted : Sorted (path.whole tree)) :
    ∃ newTree, Sound after marks newTree ∧ newTree.entries = path.whole tree := by
  obtain ⟨newTree, its, summed, entries, root⟩ := resummed
  refine ⟨newTree, ⟨⟨its, nofun, fun id found => ?_⟩, summed, entries ▸ sorted⟩, entries⟩
  exact rootBlack id (root ▸ found)

theorem Between.sorted {entry : Entry τ} (between : Between path entry.2.1) (sorted : Sorted (path.before ++ path.after)) :
    Sorted (path.before ++ entry :: path.after) := by
  simp only [Sorted, pairwise_append, pairwise_cons, mem_cons] at sorted ⊢
  refine ⟨sorted.1, ⟨between.2, sorted.2.1⟩, fun first member second later => ?_⟩
  cases later with
  | inl same => exact same ▸ between.1 first member
  | inr later => exact sorted.2.2 first member second later

theorem Between.place (between : Between (frame :: path) item) :
    (if item < frame.key then Place.left frame.id else Place.right frame.id) = Path.place (frame :: path) := by
  obtain ⟨side, id, itsKey, itsWeight, itsSum, other⟩ := frame
  cases side with
  | left => exact if_pos (between.2 (id, itsKey, itsWeight) (by simp [Path.after, Frame.after]))
  | right =>
    exact if_neg (between.1 (id, itsKey, itsWeight) (by simp [Path.before, Frame.before])).not_gt

omit [LinearOrder τ] in
theorem newNode_at (its : At pdf marks path .leaf) (item : τ) (weight : ℚ)
    (holds : HoldsPath after (update marks pdf.allocated false) path (some pdf.allocated))
    (found : after.nodes pdf.allocated = some ⟨false, path.parent, none, none, item, weight, 0⟩)
    (allocated : after.allocated = pdf.allocated + 1) :
    At after (update marks pdf.allocated false) path (.node pdf.allocated .leaf item weight 0 .leaf) := by
  have distinct := its.distinct
  have bound := its.allocated
  refine ⟨holds, ⟨?_, trivial, trivial⟩, ?_, fun id member => ?_⟩
  · rw [found, update_self]
    rfl
  · have absent := fun member => lt_irrefl _ (bound pdf.allocated member)
    simp only [Tree.entries] at distinct absent ⊢
    grind
  · rw [allocated]
    by_cases same : id = pdf.allocated
    · omega
    · refine (bound id ?_).trans (Nat.lt_succ_self _)
      simp only [Tree.entries] at member ⊢
      grind

omit [LinearOrder τ] in
theorem newNode_holds {hole : Ptr} (its : At pdf marks path .leaf) (item : τ) (weight : ℚ) (holds : HoldsPath pdf marks path hole) :
    HoldsPath (pdf.newNode item weight path.parent) (update marks pdf.allocated false) path hole := by
  have fresh : ∀ id ∈ idsOf (path.before ++ path.after), id ≠ pdf.allocated := by
    intro id member same
    have less := its.allocated id (by simp only [Tree.entries]; grind)
    omega
  have kept : HoldsPath (pdf.newNode item weight path.parent) marks path hole := holds.congr rfl fun id member => if_neg (fresh id member)
  refine kept.recolour ⟨rfl, rfl, fun id node found colour => ?_⟩
  by_cases same : id = pdf.allocated
  · subst same
    rw [update_self, found]
    obtain rfl := Option.some.inj ((if_pos rfl).symm.trans found)
    rfl
  · rw [update_of_ne same, found, ← colour]

theorem insertBelow_spec (steady : Steady pdf marks path .leaf) (between : Between path item)
    (weight : ℚ) (sorted : Sorted (path.whole (.node pdf.allocated .leaf item weight 0 .leaf))) :
    ∃ after newMarks newTree,
      Returns (fun fuel => PDF.insertBelow fuel item weight path.parent pdf) after ∧
      Sound after newMarks newTree ∧ newTree.entries = path.whole (.node pdf.allocated .leaf item weight 0 .leaf) := by
  have its := steady.its
  cases path with
  | nil =>
    have itsNew : At { pdf.newNode item weight none with root := some pdf.allocated } _ [] _ :=
      newNode_at its item weight rfl (if_pos rfl) rfl
    obtain ⟨after, returns, resummed⟩ := propagate_from itsNew trivial trivial nofun
    have rootBlack : ∀ id, some pdf.allocated = some id → update marks pdf.allocated false id = false := by
      rintro _ ⟨⟩
      exact update_self _ _ _
    obtain ⟨newTree, sound, entries⟩ := resummed.sound rootBlack sorted
    exact ⟨after, _, newTree, returns, sound, entries⟩
  | cons frame path =>
    have holds := newNode_holds its item weight its.above
    obtain ⟨written, writes, holdsWritten, allocated, same⟩ :=
      write_spec (some pdf.allocated) holds (by have distinct := its.distinct; grind)
    have fresh : pdf.allocated ∉ idsOf (Path.before (frame :: path) ++ Path.after (frame :: path)) :=
      fun member => lt_irrefl _ (its.allocated pdf.allocated (by grind))
    have itsNew := newNode_at its item weight holdsWritten ((same _ fresh).trans (if_pos rfl)) allocated
    have steadyNew : Steady written (update marks pdf.allocated false) (frame :: path)
        (.node pdf.allocated .leaf item weight 0 .leaf) := by
      refine ⟨itsNew, steady.summed, fun id root => ?_⟩
      by_cases new : id = pdf.allocated
      · rw [new, update_self]
      · rw [update_of_ne new, steady.rootBlack id root]
    obtain ⟨divided, newMarks, newPath, newLeft, newSum, newRight, splits, steadyAfter,
      leftSummed, rightSummed, shifted, _⟩ := split_spec steadyNew trivial trivial
    obtain ⟨after, returns, resummed⟩ := propagate_from steadyAfter.its leftSummed rightSummed steadyAfter.summed
    obtain ⟨newTree, sound, entries⟩ := resummed.sound steadyAfter.rootBlack (shifted.entries ▸ sorted)
    refine ⟨after, newMarks, newTree, .congr (fun fuel => ?_) returns, sound, entries.trans shifted.entries⟩
    have parent : (pdf.newNode item weight (some frame.id)).get frame.id = _ := get_eq holds.1
    have links : (pdf.newNode item weight (some frame.id)).write (some pdf.allocated) (Path.place (frame :: path)) = _ := writes
    rw [Path.parent, PDF.insertBelow]
    simp only [parent, ok_bind, between.place, links, splits]

theorem insert_spec (sound : Sound pdf marks tree) (absent : ∀ entry ∈ tree.entries, entry.2.1 ≠ item) (weight : ℚ) :
    ∃ after newMarks newTree first second, Returns (fun fuel => pdf.insert fuel item weight) after ∧
      Sound after newMarks newTree ∧ itemsOf tree.entries = first ++ second ∧
      itemsOf newTree.entries = first ++ (item, weight) :: second := by
  have whole : Path.whole [] tree = tree.entries := whole_root
  obtain ⟨found, newMarks, path, descends, steady, between, same⟩ :=
    descend_spec _ sound.steady sound.summed (whole ▸ sound.sorted) ⟨nofun, nofun⟩ (whole ▸ absent) le_rfl
  have entries : tree.entries = path.before ++ path.after := by
    rw [← whole, ← same, Path.whole, Tree.entries, append_nil]
  have inserted : Between path (found.allocated, item, weight).2.1 := between
  obtain ⟨after, finalMarks, newTree, inserts, soundAfter, newEntries⟩ := insertBelow_spec steady between weight (by
      simpa [Path.whole, Tree.entries] using inserted.sorted (entries ▸ sound.sorted))
  have step : ∀ fuel, pdf.insert fuel item weight = (pdf.descend fuel item none pdf.root >>= fun place =>
        PDF.insertBelow fuel item weight place.1 place.2) := fun fuel => rfl
  have root : tree.ptr = pdf.root := sound.steady.its.above.symm
  refine ⟨after, finalMarks, newTree, itemsOf path.before, itemsOf path.after,
    .congr step (.bind (root ▸ descends) inserts), soundAfter, ?_, ?_⟩
  · rw [entries, itemsOf_append]
  · rw [newEntries]
    simp [Path.whole, Tree.entries]

theorem lookupFrom_spec (its : At pdf marks path tree) (sorted : Sorted (path.whole tree)) (between : Between path item) :
    ∃ newPath found, Returns (fun fuel => pdf.lookupFrom fuel item path.place) newPath.place ∧
      newPath.plug found = path.plug tree ∧
      (found = .leaf ∧ Between newPath item ∨ ∃ n left weight sum right, found = .node n left item weight sum right) := by
  induction tree generalizing path with
  | leaf =>
    refine ⟨path, .leaf, .succ (.of_eq fun fuel => ?_), rfl, .inl ⟨rfl, between⟩⟩
    rw [PDF.lookupFrom, read_at its]
    rfl
  | node n left key weight sum right leftIH rightIH =>
    have unfolded : ∀ fuel, pdf.lookupFrom (fuel + 1) item path.place =
        if key = item then .ok path.place
        else pdf.lookupFrom fuel item (if item < key then .left n else .right n) := by
      intro fuel
      rw [PDF.lookupFrom, read_at its]
      simp only [ok_bind, Tree.ptr, get_eq its.below.1]
      rfl
    by_cases same : key = item
    · refine ⟨path, _, .succ (.of_eq fun fuel => ?_), rfl, .inr ?_⟩
      · rw [unfolded, if_pos same]
      · exact ⟨n, left, weight, sum, right, same ▸ rfl⟩
    · by_cases less : item < key
      · have itsLeft : At pdf marks (Frame.toLeft n key weight sum right :: path) left := at_frame.mpr its
        obtain ⟨newPath, found, returns, plugged, result⟩ :=
          leftIH itsLeft (by rw [Path.whole, entries_up]; exact sorted) (between_left sorted between less)
        refine ⟨newPath, found, .succ (.congr (fun fuel => ?_) returns), plugged, result⟩
        rw [unfolded, if_neg same, if_pos less]
        rfl
      · have greater : key < item := lt_of_le_of_ne (not_lt.mp less) same
        have itsRight : At pdf marks (Frame.toRight n left key weight sum :: path) right := at_frame.mpr its
        obtain ⟨newPath, found, returns, plugged, result⟩ :=
          rightIH itsRight (by rw [Path.whole, entries_up]; exact sorted) (between_right sorted between greater)
        refine ⟨newPath, found, .succ (.congr (fun fuel => ?_) returns), plugged, result⟩
        rw [unfolded, if_neg same, if_neg less]
        rfl

theorem lookup_spec (sound : Sound pdf marks tree) (item : τ) :
    ∃ path found, Returns (fun fuel => pdf.lookup fuel item) (path.place, found.ptr) ∧
      At pdf marks path found ∧ path.Summed ∧ found.Summed ∧ path.plug found = tree ∧
      (found = .leaf ∧ (∀ entry ∈ tree.entries, entry.2.1 ≠ item) ∨
        ∃ n left weight sum right, found = .node n left item weight sum right) := by
  obtain ⟨path, found, returns, plugged, result⟩ :=
    lookupFrom_spec sound.steady.its (by rw [whole_root]; exact sound.sorted) ⟨nofun, nofun⟩
  have whole : path.plug found = tree := plugged
  have its : At pdf marks path found := at_whole.mpr (whole ▸ sound.steady.its)
  obtain ⟨pathSummed, foundSummed⟩ := summed_plug (whole ▸ sound.summed)
  refine ⟨path, found, returns.bind (.of_eq fun fuel => ?_), its, pathSummed, foundSummed, whole, ?_⟩
  · rw [read_at its]
    rfl
  · refine result.imp_left fun ⟨isLeaf, between⟩ => ⟨isLeaf, fun entry member => ?_⟩
    rw [← whole, entries_plug, isLeaf, Tree.entries, append_nil, mem_append] at member
    cases member with
    | inl earlier => exact (between.1 entry earlier).ne
    | inr later => exact (between.2 entry later).ne'

/-! ### Changing a weight -/

omit [LinearOrder τ] in
theorem changeItem_spec (its : At pdf marks path (.node n left key weight sum right)) (newKey : τ) (newWeight : ℚ) :
    ∃ after, pdf.modify n ({ · with key := newKey, weight := newWeight }) = .ok after ∧
      At after marks path (.node n left newKey newWeight sum right) := by
  have distinct := its.distinct
  have bound := its.allocated
  have member : n ∈ idsOf (Tree.node n left key weight sum right).entries := by simp [Tree.entries]
  have apart := its.apart member
  obtain ⟨found, leftHolds, rightHolds⟩ := its.below
  simp only [Tree.entries] at distinct bound
  refine ⟨_, modify_eq found, its.above.congr rfl fun id inPath => if_neg ?_,
    ⟨set_nodes.trans (if_pos rfl), leftHolds.congr fun id inLeft => if_neg (by grind),
      rightHolds.congr fun id inRight => if_neg (by grind)⟩, ?_, ?_⟩
  · exact fun same => apart (same ▸ inPath)
  · simp only [Tree.entries]
    grind
  · simp only [Tree.entries]
    intro id inWhole
    exact bound id (by grind)

theorem update_spec (sound : Sound pdf marks tree) (present : ∃ entry ∈ tree.entries, entry.2.1 = item) (weight : ℚ) :
    ∃ after newTree first old second, Returns (fun fuel => pdf.update fuel item weight) after ∧
      Sound after marks newTree ∧ itemsOf tree.entries = first ++ (item, old) :: second ∧
      itemsOf newTree.entries = first ++ (item, weight) :: second := by
  obtain ⟨path, found, looks, its, pathSummed, foundSummed, whole, result⟩ := lookup_spec sound item
  rcases result with ⟨_, absent⟩ | ⟨n, left, old, sum, right, rfl⟩
  · obtain ⟨entry, member, same⟩ := present
    exact absurd same (absent entry member)
  · obtain ⟨_, leftSummed, rightSummed⟩ := foundSummed
    obtain ⟨changed, changes, itsChanged⟩ := changeItem_spec its item weight
    obtain ⟨after, returns, resummed⟩ := propagate_from itsChanged leftSummed rightSummed pathSummed
    have items : itemsOf tree.entries = itemsOf (path.before ++ left.entries) ++
        (item, old) :: itemsOf (right.entries ++ path.after) := by
      rw [← whole, entries_plug]
      simp [Tree.entries]
    have sameKeys : (path.whole (.node n left item weight sum right)).map (·.2.1) = tree.entries.map (·.2.1) := by
      rw [← whole, entries_plug]
      simp [Path.whole, Tree.entries]
    obtain ⟨newTree, newSound, entries⟩ := resummed.sound
      (fun id root => sound.steady.rootBlack id (by rw [← whole, root_plug]; exact root))
      (sorted_of_keys sameKeys sound.sorted)
    refine ⟨after, newTree, _, old, _, looks.bind (.congr (fun fuel => ?_) returns), newSound, items, ?_⟩
    · have keeps : pdf.modify n ({ · with weight := weight }) = .ok changed :=
        changes.symm.trans (by rw [modify_eq its.below.1, modify_eq its.below.1]) |>.symm
      simp only [Tree.ptr, keeps, ok_bind]
    · rw [entries]
      simp [Path.whole, Tree.entries]

/-! ### Removing -/

omit [LinearOrder τ] in
theorem unlink_spec (its : At pdf marks path (.node n left key weight sum right)) (holds : Holds pdf marks (some n) child)
    (inside : (idsOf child.entries).Sublist (idsOf (left.entries ++ right.entries))) :
    ∃ middle after, pdf.write child.ptr path.place = .ok middle ∧
      middle.setParent child.ptr path.parent = .ok after ∧ At after marks path child := by
  have distinct := its.distinct
  have bound := its.allocated
  have subset := inside.subset
  have nodup : (idsOf (left.entries ++ right.entries)).Nodup := by
    simp only [Tree.entries] at distinct
    grind
  have childDistinct := inside.nodup nodup
  obtain ⟨middle, writes, aboveMiddle, allocatedMiddle, sameMiddle⟩ := write_spec child.ptr its.above (by grind)
  have apart : ∀ id ∈ idsOf child.entries, id ∉ idsOf (path.before ++ path.after) := by
    intro id member
    refine its.apart ?_
    simp only [Tree.entries]
    grind
  have holdsMiddle : Holds middle marks (some n) child := holds.congr fun id member => sameMiddle id (apart id member)
  obtain ⟨after, adopts, holdsAfter, rootAfter, allocatedAfter, sameAfter⟩ := setParent_spec path.parent holdsMiddle childDistinct
  refine ⟨middle, after, writes, adopts, aboveMiddle.congr rootAfter fun id inPath => ?_, holdsAfter, ?_, ?_⟩
  · exact sameAfter id fun member => apart id member inPath
  · simp only [Tree.entries] at distinct
    grind
  · rw [allocatedAfter, allocatedMiddle]
    intro id member
    refine bound id ?_
    simp only [Tree.entries]
    grind

omit [LinearOrder τ] in
theorem relengthen_spec {next : PDF τ} (steady : Steady pdf marks path (.node n left key weight sum right))
    (its : At next marks path child) :
    ∃ after newMarks newPath,
      Returns (fun fuel => (match child.ptr with
        | some c => if marks n then pure next else next.lengthen fuel c
        | none => pure next)) after ∧
      Steady after newMarks newPath child ∧ SamePlace path newPath := by
  have rootBlack : marks n = true ∨ path ≠ [] → ∀ id, path.root child.ptr = some id → marks id = false := by
    intro deeper id root
    cases path with
    | nil =>
      have black : marks n = false := steady.rootBlack n rfl
      rw [black] at deeper
      simp at deeper
    | cons frame path => exact steady.rootBlack id root
  cases child with
  | leaf =>
    refine ⟨next, marks, path, .of_eq fun fuel => rfl, ⟨its, steady.summed, ?_⟩, .refl path⟩
    intro id root
    cases path with
    | nil => cases root
    | cons frame path => exact steady.rootBlack id root
  | node c childLeft childKey childWeight childSum childRight =>
    by_cases red : marks n = true
    · refine ⟨next, marks, path, .of_eq fun fuel => if_pos red, ⟨its, steady.summed, rootBlack (.inl red)⟩, .refl path⟩
    · have lengthened : Lengthened next path (.node c childLeft childKey childWeight childSum childRight) c := by
        cases path with
        | cons frame path =>
          exact lengthen_spec ⟨its, steady.summed, rootBlack (.inr (cons_ne_nil _ _))⟩ rfl
        | nil =>
          by_cases childRed : marks c = true
          · refine lengthen_red its steady.summed (fun id root other => ?_) rfl childRed
            exact absurd (Option.some.inj root).symm other
          · refine lengthen_spec ⟨its, steady.summed, fun id root => ?_⟩ rfl
            rw [← Option.some.inj root]
            exact Bool.eq_false_iff.mpr childRed
      obtain ⟨after, newMarks, newPath, returns, steadyAfter, place⟩ := lengthened
      exact ⟨after, newMarks, newPath, .congr (fun fuel => if_neg red) returns, steadyAfter, place⟩

omit [LinearOrder τ] in
theorem Resummed.free {tree : Tree τ} (resummed : Resummed after marks path tree)
    (absent : n ∉ idsOf (path.whole tree)) : Resummed (after.set n none) marks path tree := by
  obtain ⟨newTree, its, summed, entries, root⟩ := resummed
  refine ⟨newTree, ⟨its.above, its.below.congr fun id member => if_neg ?_, its.distinct, its.allocated⟩, summed, entries, root⟩
  rintro rfl
  exact absent (entries ▸ member)

theorem removeAt_spec (steady : Steady pdf marks path (.node n left key weight sum right))
    (only : left = .leaf ∧ child = right ∨ right = .leaf ∧ child = left)
    (childSummed : child.Summed) (sorted : Sorted (path.whole child)) :
    ∃ after newMarks newTree, Returns (fun fuel => pdf.removeAt fuel path.place n) after ∧
      Sound after newMarks newTree ∧ newTree.entries = path.whole child := by
  obtain ⟨found, leftHolds, rightHolds⟩ := steady.its.below
  have distinct := steady.its.distinct
  have chosen : (if left.ptr.isSome then left.ptr else right.ptr) = child.ptr := by
    rcases only with ⟨rfl, rfl⟩ | ⟨rfl, rfl⟩
    · rfl
    · cases child with
      | leaf => rfl
      | node => rfl
  have childHolds : Holds pdf marks (some n) child := by
    rcases only with ⟨rfl, rfl⟩ | ⟨rfl, rfl⟩
    · exact rightHolds
    · exact leftHolds
  have entries : left.entries ++ right.entries = child.entries := by
    rcases only with ⟨rfl, rfl⟩ | ⟨rfl, rfl⟩
    · rfl
    · rw [Tree.entries, append_nil]
  have absent : n ∉ idsOf (path.whole child) := by
    simp only [Tree.entries] at distinct
    grind
  obtain ⟨written, unlinked, writes, adopts, its⟩ := unlink_spec steady.its childHolds (entries ▸ .refl _)
  obtain ⟨relengthened, newMarks, newPath, lengthens, steadyAfter, place⟩ := relengthen_spec steady its
  obtain ⟨after, propagates, resummed⟩ := propagate_above steadyAfter.its childSummed steadyAfter.summed
  have whole : newPath.whole child = path.whole child := by
    rw [Path.whole, Path.whole, place.before, place.after]
  obtain ⟨newTree, sound, newEntries⟩ := (resummed.free (whole ▸ absent)).sound steadyAfter.rootBlack (whole ▸ sorted)
  refine ⟨after.set n none, newMarks, newTree, ?_, sound, newEntries.trans whole⟩
  have step : ∀ fuel, pdf.removeAt fuel path.place n = (do
      let pdf ← (match child.ptr with
        | some c => if marks n then pure unlinked else unlinked.lengthen fuel c
        | none => pure unlinked)
      let pdf ← pdf.propogateSumsUp fuel newPath.parent
      pure (pdf.set n none)) := by
    intro fuel
    rw [PDF.removeAt, get_eq found, place.parent]
    simp only [ok_bind, chosen, writes, adopts]
    all_goals rfl
  exact .congr step (lengthens.bind (propagates.map_pure _))

omit [LinearOrder τ] in
theorem plug_append : Path.plug (first ++ path) tree = path.plug (first.plug tree) := by
  induction first generalizing tree with
  | nil => rfl
  | cons frame first ih => exact ih

omit [LinearOrder τ] in
theorem after_append : Path.after (first ++ path) = Path.after first ++ path.after := by
  induction first with
  | nil => rfl
  | cons frame first ih => rw [cons_append, Path.after, ih, Path.after, append_assoc]

omit [LinearOrder τ] in
theorem before_append : Path.before (first ++ path) = path.before ++ Path.before first := by
  induction first with
  | nil => exact (append_nil _).symm
  | cons frame first ih => rw [cons_append, Path.before, ih, Path.before, append_assoc]

omit [LinearOrder τ] in
theorem leftMax_spec (its : At pdf marks path tree) (notEmpty : tree ≠ .leaf) :
    ∃ first m mLeft mKey mWeight mSum,
      Returns (fun fuel => pdf.leftMax fuel path.place) (Path.place (first ++ path)) ∧
      Path.plug first (.node m mLeft mKey mWeight mSum .leaf) = tree ∧ Path.after first = [] := by
  induction tree generalizing path with
  | leaf => exact absurd rfl notEmpty
  | node n left key weight sum right leftIH rightIH =>
    have unfolded : ∀ fuel, pdf.leftMax (fuel + 1) path.place =
        if right.ptr.isSome then pdf.leftMax fuel (.right n) else .ok path.place := by
      intro fuel
      rw [PDF.leftMax, read_at its]
      simp only [ok_bind, Tree.ptr, pointee, pure_bind, get_eq its.below.1]
      rfl
    cases right with
    | leaf =>
      exact ⟨[], n, left, key, weight, sum, .succ (.of_eq unfolded), rfl, rfl⟩
    | node =>
      have itsRight : At pdf marks (Frame.toRight n left key weight sum :: path) _ := at_frame.mpr its
      obtain ⟨first, m, mLeft, mKey, mWeight, mSum, returns, plugged, last⟩ := rightIH itsRight (by simp)
      refine ⟨first ++ [Frame.toRight n left key weight sum], m, mLeft, mKey, mWeight, mSum, .succ (.congr unfolded ?_), ?_, ?_⟩
      · rw [append_assoc]
        exact returns
      · rw [plug_append, plugged]
        rfl
      · rw [after_append, last]
        rfl

theorem Sorted.of_items {first : List (Entry τ)} (sorted : Sorted second)
    (items : (itemsOf first).Sublist (itemsOf second)) : Sorted first := by
  have ordered : (itemsOf second).Pairwise fun before after => before.1 < after.1 := List.pairwise_map.mpr sorted
  have kept := ordered.sublist items
  rw [itemsOf, pairwise_map] at kept
  exact kept

theorem remove_spec (sound : Sound pdf marks tree) (present : ∃ entry ∈ tree.entries, entry.2.1 = item) :
    ∃ after newMarks newTree first weight second, Returns (fun fuel => pdf.remove fuel item) after ∧
      Sound after newMarks newTree ∧ itemsOf tree.entries = first ++ (item, weight) :: second ∧
      itemsOf newTree.entries = first ++ second := by
  obtain ⟨path, found, looks, its, pathSummed, foundSummed, whole, result⟩ := lookup_spec sound item
  rcases result with ⟨_, absent⟩ | ⟨n, left, weight, sum, right, rfl⟩
  · obtain ⟨entry, member, same⟩ := present
    exact absurd same (absent entry member)
  obtain ⟨_, leftSummed, rightSummed⟩ := foundSummed
  have items : itemsOf tree.entries = itemsOf (path.before ++ left.entries) ++
      (item, weight) :: itemsOf (right.entries ++ path.after) := by
    rw [← whole, entries_plug]
    simp [Tree.entries]
  have rootBlack : ∀ id, path.root (some n) = some id → marks id = false := fun id root =>
    sound.steady.rootBlack id (by rw [← whole, root_plug]; exact root)
  have shorter : ∀ entries : List (Entry τ), itemsOf entries =
      itemsOf (path.before ++ left.entries) ++ itemsOf (right.entries ++ path.after) →
      Sorted entries := by
    intro entries same
    refine sound.sorted.of_items ?_
    rw [same, items]
    exact (List.Sublist.refl _).append (sublist_cons_self _ _)
  by_cases empty : left = .leaf
  · subst empty
    obtain ⟨after, newMarks, newTree, removes, soundAfter, entries⟩ :=
      removeAt_spec ⟨its, pathSummed, rootBlack⟩ (.inl ⟨rfl, rfl⟩) rightSummed (shorter _ (by simp [Path.whole, Tree.entries]))
    refine ⟨after, newMarks, newTree, _, weight, _, looks.bind (.congr (fun fuel => ?_) removes), soundAfter, items, ?_⟩
    · simp only [Tree.ptr, get_eq its.below.1, ok_bind]
      rfl
    · rw [entries]
      simp [Path.whole, Tree.entries]
  · have itsLeft : At pdf marks (Frame.toLeft n item weight sum right :: path) left := at_frame.mpr its
    obtain ⟨first, m, mLeft, mKey, mWeight, mSum, finds, plugged, last⟩ := leftMax_spec itsLeft empty
    obtain ⟨changed, changes, itsChanged⟩ := changeItem_spec its mKey mWeight
    have itsMax : At pdf marks (first ++ Frame.toLeft n item weight sum right :: path) (.node m mLeft mKey mWeight mSum .leaf) := by
      rw [at_plug, plugged]
      exact itsLeft
    have itsLower : At changed marks (first ++ Frame.toLeft n mKey mWeight sum right :: path)
        (.node m mLeft mKey mWeight mSum .leaf) := by
      rw [at_plug, plugged, at_frame]
      exact itsChanged
    obtain ⟨firstSummed, maxSummed⟩ := summed_plug (plugged ▸ leftSummed)
    have summed : Path.Summed (first ++ Frame.toLeft n mKey mWeight sum right :: path) := by
      intro frame member
      rcases List.mem_append.mp member with inFirst | later
      · exact firstSummed frame inFirst
      · rcases List.mem_cons.mp later with rfl | above
        · exact rightSummed
        · exact pathSummed frame above
    have rootSame : Path.root (first ++ Frame.toLeft n mKey mWeight sum right :: path) (some m) = path.root (some n) := by
      rw [root_append]
      rfl
    have leftEntries : itemsOf left.entries = itemsOf (Path.before first ++ mLeft.entries) ++ [(mKey, mWeight)] := by
      rw [← plugged, entries_plug, last]
      simp [Tree.entries]
    have newItems : itemsOf (Path.whole (first ++ Frame.toLeft n mKey mWeight sum right :: path)
        mLeft) = itemsOf (path.before ++ left.entries) ++ itemsOf (right.entries ++ path.after) := by
      simp only [itemsOf_append, leftEntries, before_append, after_append, last]
      simp [Frame.toLeft, Path.before, Path.after, Frame.before, Frame.after]
    obtain ⟨after, newMarks, newTree, removes, soundAfter, entries⟩ :=
      removeAt_spec ⟨itsLower, summed, fun id root => rootBlack id (rootSame ▸ root)⟩ (.inr ⟨rfl, rfl⟩) maxSummed.2.1 (shorter _ newItems)
    refine ⟨after, newMarks, newTree, _, weight, _, looks.bind ?_, soundAfter, items, entries ▸ newItems⟩
    have leftRoot : left.ptr.isSome = true := by
      cases left with
      | leaf => exact absurd rfl empty
      | node => rfl
    have step : ∀ fuel, (do
        let node ← pdf.get n
        if node.left.isSome then do
          let leftMaxp ← pdf.leftMax fuel (.left n)
          let max ← pointee (← pdf.read leftMaxp)
          let maxNode ← pdf.get max
          let pdf ← pdf.modify n ({ · with key := maxNode.key, weight := maxNode.weight })
          pdf.removeAt fuel leftMaxp max
        else pdf.removeAt fuel path.place n) =
        (pdf.leftMax fuel (.left n) >>= fun leftMaxp => do
          let max ← pointee (← pdf.read leftMaxp)
          let maxNode ← pdf.get max
          let pdf ← pdf.modify n ({ · with key := maxNode.key, weight := maxNode.weight })
          pdf.removeAt fuel leftMaxp max) := by
      intro fuel
      simp only [get_eq its.below.1, ok_bind, leftRoot, if_true]
    refine .congr step (finds.bind (.congr (fun fuel => ?_) removes))
    rw [read_at itsMax]
    simp only [ok_bind, Tree.ptr, pointee, pure_bind, get_eq itsMax.below.1, changes]
    have samePlace : Path.place (first ++ Frame.toLeft n item weight sum right :: path) =
        Path.place (first ++ Frame.toLeft n mKey mWeight sum right :: path) := by
      cases first with
      | nil => rfl
      | cons => rfl
    rw [samePlace]

end Operations

end NeuroMerge.DiscretePDF
