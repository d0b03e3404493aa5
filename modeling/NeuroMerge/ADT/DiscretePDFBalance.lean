import Mathlib.Tactic.Linarith
import NeuroMerge.ADT.DiscretePDFLinks

/-!
# Splitting and lengthening keep the tree

Whatever colours the nodes have, `split` and `lengthen` return as long as the
root is black, and leave it black. They rotate nodes next to the path from a node
to the root only, so the sums beside the path are right afterwards if they were
before; those on the path are taken again by `propogateSumsUp`.
-/

namespace NeuroMerge.DiscretePDF

open List Function

variable {τ : Type}

def Path.root : Path τ → Ptr → Ptr
  | [], p => p
  | frame :: path, _ => root path (some frame.id)

structure Steady (pdf : PDF τ) (marks : Nat → Bool) (path : Path τ) (tree : Tree τ) : Prop where
  its : At pdf marks path tree
  summed : path.Summed
  rootBlack : ∀ id, path.root tree.ptr = some id → marks id = false

/-- The subtree becomes the one beside the path, and the other one that in the hole. -/
def Frame.flip (frame : Frame τ) (tree : Tree τ) : Frame τ :=
  match frame.side with
  | .left => ⟨.right, frame.id, frame.key, frame.weight, frame.sum, tree⟩
  | .right => ⟨.left, frame.id, frame.key, frame.weight, frame.sum, tree⟩

def Frame.near (frame : Frame τ) (left right : Tree τ) : Tree τ :=
  match frame.side with
  | .left => left
  | .right => right

def Frame.far (frame : Frame τ) (left right : Tree τ) : Tree τ :=
  match frame.side with
  | .left => right
  | .right => left

section Marks

variable {pdf after : PDF τ} {marks : Nat → Bool} {path : Path τ} {tree : Tree τ} {frame : Frame τ} {n id : Nat}

theorem root_mem {p : Ptr} (root : path.root p = some id) : p = some id ∨ id ∈ idsOf (path.before ++ path.after) := by
  induction path generalizing p with
  | nil => exact .inl root
  | cons frame path ih =>
    refine .inr ((path_nodes frame path id).mpr ?_)
    cases ih root with
    | inl here => exact .inl (Option.some.inj here).symm
    | inr above => exact .inr (.inr above)

theorem At.apart (its : At pdf marks path tree) (member : n ∈ idsOf tree.entries) : n ∉ idsOf (path.before ++ path.after) := by
  have distinct := its.distinct
  grind

theorem Steady.mark (red : Bool) (steady : Steady pdf marks path tree)
    (member : n ∈ idsOf (path.before ++ tree.entries ++ path.after)) (notRoot : red = true → path.root tree.ptr ≠ some n) :
    ∃ after, pdf.setMark (some n) red = .ok after ∧ Steady after (update marks n red) path tree := by
  obtain ⟨after, marked, its⟩ := setMark_spec red steady.its member
  refine ⟨after, marked, its, steady.summed, fun id root => ?_⟩
  by_cases same : id = n
  · subst same
    rw [update_self]
    cases red with
    | false => rfl
    | true => exact absurd root (notRoot rfl)
  · rw [update_of_ne same]
    exact steady.rootBlack id root

theorem At.below_not_root (its : At pdf marks (frame :: path) tree)
    (member : n ∈ idsOf tree.entries) : Path.root (frame :: path) tree.ptr ≠ some n := by
  intro root
  have apart := its.apart member
  have rootAbove : Path.root path (some frame.id) = some n := root
  cases root_mem rootAbove with
  | inl here => exact apart ((path_nodes _ _ n).mpr (.inl (Option.some.inj here).symm))
  | inr above => exact apart ((path_nodes _ _ n).mpr (.inr (.inr above)))

theorem root_frame : path.root (frame.plug tree).ptr = Path.root (frame :: path) tree.ptr := by
  rw [ptr_frame]
  rfl

theorem steady_frame : Steady pdf marks (frame :: path) tree ↔ Steady pdf marks path (frame.plug tree) ∧ frame.other.Summed := by
  constructor
  · rintro ⟨its, summed, rootBlack⟩
    exact ⟨⟨at_frame.mp its, fun other member => summed other (mem_cons_of_mem _ member),
      fun id root => rootBlack id (root_frame.symm.trans root)⟩, summed frame mem_cons_self⟩
  · rintro ⟨⟨its, summed, rootBlack⟩, other⟩
    refine ⟨at_frame.mpr its, fun next member => ?_, fun id root => ?_⟩
    · cases mem_cons.mp member with
      | inl same => exact same ▸ other
      | inr later => exact summed next later
    · exact rootBlack id (root_frame.trans root)

@[simp] theorem id_flip : (frame.flip tree).id = frame.id := by
  rw [Frame.flip]
  split <;> rfl

@[simp] theorem other_flip : (frame.flip tree).other = tree := by
  rw [Frame.flip]
  split <;> rfl

theorem side_flip (frame : Frame τ) (tree : Tree τ) : (frame.flip tree).side ≠ frame.side := by
  obtain ⟨side, _⟩ := frame
  cases side with
  | left => exact nofun
  | right => exact nofun

theorem plug_flip : (frame.flip tree).plug frame.other = frame.plug tree := by
  obtain ⟨side, id, itsKey, itsWeight, itsSum, other⟩ := frame
  cases side with
  | left => rfl
  | right => rfl

theorem at_flip : At pdf marks (frame :: path) tree ↔ At pdf marks (frame.flip tree :: path) frame.other := by
  rw [at_frame, at_frame, plug_flip]

theorem summed_resum {other : Tree τ} (frameSummed : frame.other.Summed) (summed : other.Summed) :
    ((frame.resum other.sum).plug other).Summed := by
  obtain ⟨side, _⟩ := frame
  cases side with
  | left => exact ⟨rfl, summed, frameSummed⟩
  | right => exact ⟨rfl, frameSummed, summed⟩

end Marks

/-! ## Splitting -/

def reds (marks : Nat → Bool) (entries : List (Entry τ)) : Nat := (idsOf entries).countP marks

theorem countP_update {ids : List Nat} {n : Nat} (marks : Nat → Bool) (red : Bool) (distinct : ids.Nodup) (member : n ∈ ids) :
    ids.countP (update marks n red) + (if marks n then 1 else 0) = ids.countP marks + (if red then 1 else 0) := by
  induction ids with
  | nil => cases member
  | cons id ids ih =>
    obtain ⟨absent, distinct⟩ := nodup_cons.mp distinct
    rw [countP_cons, countP_cons]
    cases mem_cons.mp member with
    | inl same =>
      subst same
      have unchanged : ids.countP (update marks n red) = ids.countP marks := countP_congr fun m inRest => by
          have different : m ≠ n := fun equal => absent (equal ▸ inRest)
          rw [update_of_ne different]
      rw [update_self, unchanged]
      omega
    | inr later =>
      have different : id ≠ n := fun same => absent (same ▸ later)
      have rest := ih distinct later
      rw [update_of_ne different]
      omega

def blacken (marks : Nat → Bool) : Ptr → Nat → Bool
  | none => marks
  | some n => Function.update marks n false

section Split

variable {pdf : PDF τ} {marks : Nat → Bool} {path : Path τ} {tree : Tree τ} {frame : Frame τ}
  {left right : Tree τ} {n : Nat} {key : τ} {weight sum : ℚ}

theorem Steady.blackenChild (child : Tree τ) (steady : Steady pdf marks path tree)
    (below : ∀ id ∈ idsOf child.entries, id ∈ idsOf tree.entries) :
    ∃ after, pdf.markChildBlack child.ptr = .ok after ∧ Steady after (blacken marks child.ptr) path tree := by
  cases child with
  | leaf => exact ⟨pdf, rfl, steady⟩
  | node id left key weight sum right =>
    refine steady.mark false ?_ nofun
    have member := below id (by simp [Tree.entries])
    simp [member]

abbrev Path.whole (path : Path τ) (tree : Tree τ) : List (Entry τ) :=
  path.before ++ tree.entries ++ path.after

/-- The items keep their order while a subtree takes in some of the path above it. -/
structure Shifted (path newPath : Path τ) (tree newTree : Tree τ) : Prop where
  entries : newPath.whole newTree = path.whole tree
  before : newPath.before ⊆ path.before
  after : newPath.after ⊆ path.after

theorem rotateParent_spec {upper : Frame τ} (sides : frame.side = upper.side)
    (whole : At pdf marks (frame :: upper :: path) tree) (summed : Path.Summed (frame :: upper :: path)) :
    ∃ after newFrame, pdf.rotate frame.id = .ok after ∧ newFrame.id = frame.id ∧
      newFrame.other.Summed ∧ At after marks (newFrame :: path) tree ∧
      Path.before (newFrame :: path) = Path.before (frame :: upper :: path) ∧
      Path.after (newFrame :: path) = Path.after (frame :: upper :: path) := by
  obtain ⟨after, rotated, its⟩ := rotate_spec (at_flip.mp whole) (sides ▸ side_flip _ _)
  have upperSummed : ((upper.resum frame.other.sum).plug frame.other).Summed :=
    summed_resum (summed upper (by simp)) (summed frame mem_cons_self)
  refine ⟨after, ((frame.flip tree).resum upper.sum).flip
    ((upper.resum frame.other.sum).plug frame.other), id_flip ▸ rotated, id_flip.trans id_flip, ?_,
    ?_, ?_⟩
  · rwa [other_flip]
  · have flipped := at_flip.mp (at_frame.mp its)
    rwa [show ((frame.flip tree).resum upper.sum).other = tree from other_flip] at flipped
  · obtain ⟨side, p, parentKey, parentWeight, parentSum, other⟩ := frame
    obtain ⟨upperSide, pp, upperKey, upperWeight, upperSum, far⟩ := upper
    obtain rfl : side = upperSide := sides
    cases side with
    | left => simp [Path.before, Path.after, Frame.before, Frame.after, Frame.flip, Frame.resum, Frame.plug, Tree.entries]
    | right => simp [Path.before, Path.after, Frame.before, Frame.after, Frame.flip, Frame.resum, Frame.plug, Tree.entries]

theorem rotateTwice_spec {upper : Frame τ} (sides : frame.side ≠ upper.side)
    (whole : At pdf marks (frame :: upper :: path) (.node n left key weight sum right))
    (summed : Path.Summed (frame :: upper :: path)) (leftSummed : left.Summed) (rightSummed : right.Summed) :
    ∃ middle after newLeft newSum newRight, pdf.rotate n = .ok middle ∧
      middle.rotate n = .ok after ∧
      At after marks path (.node n newLeft key weight newSum newRight) ∧
      newLeft.Summed ∧ newRight.Summed ∧
      (Tree.node n newLeft key weight newSum newRight).entries =
        (upper.plug (frame.plug (.node n left key weight sum right))).entries := by
  have otherSummed := summed frame mem_cons_self
  have upperSummed := summed upper (by simp)
  obtain ⟨side, p, parentKey, parentWeight, parentSum, other⟩ := frame
  obtain ⟨upperSide, pp, upperKey, upperWeight, upperSum, far⟩ := upper
  cases side with
  | left =>
    cases upperSide with
    | left => exact absurd rfl sides
    | right =>
      have child : At pdf marks (⟨.right, n, key, weight, sum, left⟩ :: _) right := at_frame.mpr whole
      obtain ⟨middle, first, its⟩ := rotate_spec child (by simp)
      obtain ⟨after, second, its⟩ := rotate_spec (at_flip.mp (at_frame.mp its)) (by simp [Frame.flip, Frame.resum])
      exact ⟨middle, after, _, _, _, first, second, at_frame.mp (at_frame.mp its),
        ⟨rfl, upperSummed, leftSummed⟩, ⟨rfl, rightSummed, otherSummed⟩,
        by simp [Frame.plug, Frame.flip, Frame.resum, Tree.entries]⟩
  | right =>
    cases upperSide with
    | left =>
      have child : At pdf marks (⟨.left, n, key, weight, sum, right⟩ :: _) left := at_frame.mpr whole
      obtain ⟨middle, first, its⟩ := rotate_spec child (by simp)
      obtain ⟨after, second, its⟩ := rotate_spec (at_flip.mp (at_frame.mp its)) (by simp [Frame.flip, Frame.resum])
      exact ⟨middle, after, _, _, _, first, second, at_frame.mp (at_frame.mp its),
        ⟨rfl, otherSummed, leftSummed⟩, ⟨rfl, rightSummed, upperSummed⟩,
        by simp [Frame.plug, Frame.flip, Frame.resum, Tree.entries]⟩
    | right => exact absurd rfl sides

theorem side_left (absent : frame.other.ptr ≠ some n) : frame.leftPtr (some n) = some n ↔ frame.side = .left := by
  obtain ⟨side, id, itsKey, itsWeight, itsSum, other⟩ := frame
  cases side with
  | left => simp [Frame.leftPtr]
  | right => simpa [Frame.leftPtr] using absent

theorem side_right (absent : frame.other.ptr ≠ some n) : frame.rightPtr (some n) = some n ↔ frame.side = .right := by
  obtain ⟨side, id, itsKey, itsWeight, itsSum, other⟩ := frame
  cases side with
  | left => simpa [Frame.rightPtr] using absent
  | right => simp [Frame.rightPtr]

theorem At.other_apart (its : At pdf marks (frame :: path) tree) (root : tree.ptr = some n) : frame.other.ptr ≠ some n := fun same =>
  its.apart (mem_of_ptr root) ((path_nodes _ _ n).mpr (.inr (.inl (mem_of_ptr same))))

theorem root_cases {id : Nat} (root : path.root (some n) = some id) :
    id = n ∨ (∀ p, path.root p = some id) ∧ id ∈ idsOf (path.before ++ path.after) := by
  cases path with
  | nil => exact .inl (Option.some.inj root).symm
  | cons frame path =>
    refine .inr ⟨fun _ => root, ?_⟩
    have rootAbove : Path.root path (some frame.id) = some id := root
    cases root_mem rootAbove with
    | inl here => exact (path_nodes frame path id).mpr (.inl (Option.some.inj here).symm)
    | inr above => exact (path_nodes frame path id).mpr (.inr (.inr above))

theorem rootBlack_raised {p : Nat} (rootBlack : ∀ id, path.root (some p) = some id → marks id = false)
    (absent : p ∉ idsOf (path.before ++ path.after)) :
    ∀ id, path.root (some n) = some id → update (update marks p true) n false id = false := by
  intro id root
  by_cases same : id = n
  · rw [same, update_self]
  · rw [update_of_ne same]
    cases root_cases root with
    | inl here => exact absurd here same
    | inr above =>
      rw [update_of_ne fun its : id = p => absent (its ▸ above.2)]
      exact rootBlack id (above.1 _)

theorem splitBelowRed_spec
    (steady : Steady pdf marks (frame :: path) (.node n left key weight sum right))
    (leftSummed : left.Summed) (rightSummed : right.Summed) (red : marks n = true) (parentRed : marks frame.id = true) :
    ∃ after newMarks newPath newLeft newSum newRight, pdf.splitBelowRed n frame.id = .ok after ∧
      Steady after newMarks newPath (.node n newLeft key weight newSum newRight) ∧
      newLeft.Summed ∧ newRight.Summed ∧
      Shifted (frame :: path) newPath (.node n left key weight sum right)
        (.node n newLeft key weight newSum newRight) ∧
      reds newMarks (Path.whole (frame :: path) (.node n left key weight sum right)) ≤
        reds marks (Path.whole (frame :: path) (.node n left key weight sum right)) := by
  cases path with
  | nil =>
    have black := steady.rootBlack frame.id rfl
    rw [parentRed] at black
    cases black
  | cons upper path =>
    have its := steady.its
    have distinct : (idsOf (Path.whole (frame :: upper :: path) (.node n left key weight sum right))).Nodup := its.distinct
    have rootBlack : ∀ id, Path.root path (some upper.id) = some id → marks id = false := steady.rootBlack
    have aboveFrame := (at_frame.mp its).apart (mem_of_ptr ptr_frame)
    have upperPath := (path_nodes upper path upper.id).mpr (.inl rfl)
    have apartParent : upper.id ≠ frame.id := fun same => aboveFrame (same ▸ upperPath)
    have nMember : n ∈ idsOf (Tree.node n left key weight sum right).entries := by
      simp [Tree.entries]
    have apart : upper.id ≠ n := fun same => its.apart nMember ((path_nodes _ _ n).mpr (.inr (.inr (same ▸ upperPath))))
    have upperMember : upper.id ∈ idsOf (Path.whole (frame :: upper :: path) (.node n left key weight sum right)) := by
      have inPath := (path_nodes frame _ upper.id).mpr (.inr (.inr upperPath))
      grind
    have frameMember : frame.id ∈ idsOf (Path.whole (frame :: upper :: path) (.node n left key weight sum right)) := by
      have inPath := (path_nodes frame (upper :: path) frame.id).mpr (.inl rfl)
      grind
    have up : pdf.parentOf frame.id = .ok upper.id := by
      rw [PDF.parentOf, get_eq its.above.1]
      rfl
    have upperAbsent := (at_frame.mp (at_frame.mp its)).apart (mem_of_ptr ptr_frame)
    have recoloured : ∀ m ∈ idsOf (Path.whole (frame :: upper :: path)
        (.node n left key weight sum right)), m ≠ upper.id → marks m = true →
        reds (update (update marks upper.id true) m false) (Path.whole (frame :: upper :: path) (.node n left key weight sum right)) ≤
          reds marks (Path.whole (frame :: upper :: path) (.node n left key weight sum right)) := by
      intro m member other wasRed
      have more := countP_update marks true distinct upperMember
      have fewer := countP_update (update marks upper.id true) false distinct member
      rw [update_of_ne other, if_pos wasRed] at fewer
      simp only [reds, if_true, Bool.false_eq_true, if_false] at more fewer ⊢
      omega
    obtain ⟨marked, marking, itsMarked⟩ := setMark_spec true its upperMember
    have test : ((frame.leftPtr (some n) = some n ∧ upper.leftPtr (some frame.id) = some frame.id) ∨
        (frame.rightPtr (some n) = some n ∧ upper.rightPtr (some frame.id) = some frame.id)) ↔ frame.side = upper.side := by
      have upperApart := (at_frame.mp its).other_apart ptr_frame
      rw [side_left (its.other_apart rfl), side_right (its.other_apart rfl), side_left upperApart, side_right upperApart]
      cases frame.side <;> cases upper.side <;> simp
    rw [PDF.splitBelowRed, up]
    simp only [ok_bind, marking, get_eq itsMarked.above.1, get_eq itsMarked.above.2.2.1, Tree.ptr_node]
    by_cases sides : frame.side = upper.side
    · obtain ⟨rotated, newFrame, rotates, same, newSummed, itsRotated, before, after⟩ := rotateParent_spec sides itsMarked steady.summed
      have newMember : frame.id ∈ idsOf (Path.whole (newFrame :: path) (.node n left key weight sum right)) := by
        rw [Path.whole, before, after]
        exact frameMember
      obtain ⟨final, finishes, itsFinal⟩ := setMark_spec false itsRotated newMember
      rw [if_pos (test.mpr sides), rotates, ok_bind, finishes]
      refine ⟨final, _, newFrame :: path, left, sum, right, rfl, ⟨itsFinal, ?_, ?_⟩,
        leftSummed, rightSummed, ⟨?_, before ▸ List.Subset.refl _, after ▸ List.Subset.refl _⟩,
        recoloured frame.id frameMember apartParent.symm parentRed⟩
      · intro other member
        cases mem_cons.mp member with
        | inl its => exact its ▸ newSummed
        | inr later => exact steady.summed other (by simp [later])
      · intro id root
        refine rootBlack_raised (n := frame.id) rootBlack upperAbsent id ?_
        rw [← same]
        exact root
      · rw [Path.whole, before, after]
    · obtain ⟨middle, rotated, newLeft, newSum, newRight, first, second, itsRotated, newLeftSummed, newRightSummed, entries⟩ :=
        rotateTwice_spec sides itsMarked steady.summed leftSummed rightSummed
      have wholes : Path.whole path (.node n newLeft key weight newSum newRight) =
          Path.whole (frame :: upper :: path) (.node n left key weight sum right) := by
        rw [Path.whole, entries, Path.whole, entries_up, entries_up]
      have newMember : n ∈ idsOf (Path.whole path (.node n newLeft key weight newSum newRight)) := by
        simp [Tree.entries]
      obtain ⟨final, finishes, itsFinal⟩ := setMark_spec false itsRotated newMember
      rw [if_neg fun its => sides (test.mp its), first, ok_bind, second, ok_bind, finishes]
      refine ⟨final, _, path, newLeft, newSum, newRight, rfl, ⟨itsFinal, ?_, ?_⟩, newLeftSummed, newRightSummed, ⟨wholes, ?_, ?_⟩,
        recoloured n (wholes ▸ newMember) apart.symm red⟩
      · exact fun other member => steady.summed other (by simp [member])
      · exact rootBlack_raised rootBlack upperAbsent
      · intro entry member
        simp [Path.before, member]
      · intro entry member
        simp [Path.after, member]

theorem reds_update {entries : List (Entry τ)} (marks : Nat → Bool) (red : Bool)
    (distinct : (idsOf entries).Nodup) (member : n ∈ idsOf entries) :
    reds (update marks n red) entries + (if marks n then 1 else 0) = reds marks entries + (if red then 1 else 0) :=
  countP_update marks red distinct member

theorem split_spec (steady : Steady pdf marks path (.node n left key weight sum right))
    (leftSummed : left.Summed) (rightSummed : right.Summed) :
    ∃ after newMarks newPath newLeft newSum newRight, pdf.split n = .ok after ∧
      Steady after newMarks newPath (.node n newLeft key weight newSum newRight) ∧
      newLeft.Summed ∧ newRight.Summed ∧
      Shifted path newPath (.node n left key weight sum right)
        (.node n newLeft key weight newSum newRight) ∧
      ∀ i j, left.ptr = some i → right.ptr = some j → marks i = true → marks j = true →
        reds newMarks (path.whole (.node n left key weight sum right)) < reds marks (path.whole (.node n left key weight sum right)) := by
  have distinct : (idsOf (path.whole (.node n left key weight sum right))).Nodup := steady.its.distinct
  have nMember : n ∈ idsOf (path.whole (.node n left key weight sum right)) := by
    simp [Tree.entries]
  obtain ⟨first, blackensLeft, steady1⟩ := steady.blackenChild left fun id member => by
    simp [Tree.entries, member]
  obtain ⟨second, blackensRight, steady2⟩ := steady1.blackenChild right fun id member => by
    simp [Tree.entries, member]
  have fewer : ∀ i j, left.ptr = some i → right.ptr = some j → marks i = true → marks j = true →
      reds (blacken (blacken marks left.ptr) right.ptr) (path.whole (.node n left key weight sum right)) + 2 ≤
        reds marks (path.whole (.node n left key weight sum right)) := by
    intro i j leftRoot rightRoot leftRed rightRed
    have inLeft := mem_of_ptr leftRoot
    have inRight := mem_of_ptr rightRoot
    have apart : j ≠ i := by
      rw [Path.whole, Tree.entries] at distinct
      grind
    have leftFewer := reds_update marks false distinct (n := i) (by simp [Tree.entries, inLeft])
    have rightFewer := reds_update (update marks i false) false distinct (n := j) (by simp [Tree.entries, inRight])
    rw [update_of_ne apart] at rightFewer
    simp only [leftRoot, rightRoot, blacken, leftRed, rightRed] at leftFewer rightFewer ⊢
    simp only [if_true, Bool.false_eq_true, if_false] at leftFewer rightFewer
    omega
  have found : pdf.get n = _ := get_eq steady.its.below.1
  cases path with
  | nil =>
    refine ⟨second, _, [], left, sum, right, ?_, steady2, leftSummed, rightSummed, ⟨rfl, .refl _, .refl _⟩, fun i j l r a b => ?_⟩
    · rw [PDF.split, found]
      simp only [ok_bind, blackensLeft, blackensRight]
      rfl
    · have less := fewer i j l r a b
      omega
  | cons frame path =>
    obtain ⟨third, marking, steady3⟩ := steady2.mark true nMember fun _ => steady2.its.below_not_root (by simp [Tree.entries])
    have oneMore := reds_update (blacken (blacken marks left.ptr) right.ptr) true distinct nMember
    rw [if_pos rfl] at oneMore
    have parentFound : third.get frame.id = _ := get_eq steady3.its.above.1
    have unfolded : pdf.split n = if update (blacken (blacken marks left.ptr) right.ptr)
        n true frame.id then third.splitBelowRed n frame.id else .ok third := by
      rw [PDF.split, found]
      simp only [ok_bind, blackensLeft, blackensRight, Path.parent, marking, parentFound]
      rfl
    rw [unfolded]
    by_cases red : update (blacken (blacken marks left.ptr) right.ptr) n true frame.id
    · obtain ⟨after, newMarks, newPath, newLeft, newSum, newRight, splits, steady4, newLeftSummed,
        newRightSummed, shifted, notMore⟩ := splitBelowRed_spec steady3 leftSummed rightSummed
        (update_self _ _ _) red
      refine ⟨after, newMarks, newPath, newLeft, newSum, newRight, (if_pos red).trans splits,
        steady4, newLeftSummed, newRightSummed, shifted, fun i j l r a b => ?_⟩
      have less := fewer i j l r a b
      omega
    · refine ⟨third, _, frame :: path, left, sum, right, if_neg red, steady3, leftSummed,
        rightSummed, ⟨rfl, .refl _, .refl _⟩, fun i j l r a b => ?_⟩
      have less := fewer i j l r a b
      omega

end Split

/-! ## Lengthening -/

structure Replaces (frame newFrame : Frame τ) : Prop where
  id : newFrame.id = frame.id
  side : newFrame.side = frame.side

structure SamePlace (path newPath : Path τ) : Prop where
  before : newPath.before = path.before
  after : newPath.after = path.after
  parent : newPath.parent = path.parent

theorem SamePlace.refl (path : Path τ) : SamePlace path path := ⟨rfl, rfl, rfl⟩

section Lengthen

variable {pdf : PDF τ} {marks : Nat → Bool} {path : Path τ} {tree : Tree τ} {frame : Frame τ}
  {left right : Tree τ} {n s : Nat} {key : τ} {weight sum : ℚ}

theorem At.node (its : At pdf marks path tree) (root : tree.ptr = some n) :
    ∃ node, pdf.nodes n = some node ∧ node.mark = marks n ∧ node.parent = path.parent := by
  cases tree with
  | leaf => cases root
  | node id left key weight sum right =>
    obtain rfl := Option.some.inj root
    exact ⟨_, its.below.1, rfl, rfl⟩

section

variable (its : At pdf marks (frame :: path) tree)
include its

theorem At.parentOf (root : tree.ptr = some n) : pdf.parentOf n = .ok frame.id := by
  obtain ⟨node, found, _, parent⟩ := its.node root
  rw [PDF.parentOf, get_eq found, ok_bind, parent]
  rfl

theorem At.sibling (root : tree.ptr = some n) : pdf.sibling n = .ok frame.other.ptr := by
  rw [PDF.sibling, its.parentOf root, ok_bind, get_eq its.above.1, ok_bind, root]
  have left := side_left (its.other_apart root)
  obtain ⟨side, id, itsKey, itsWeight, itsSum, other⟩ := frame
  cases side with
  | left =>
    simp only [if_pos (left.mpr rfl)]
    rfl
  | right =>
    have notLeft : ¬ Frame.leftPtr ⟨.right, id, itsKey, itsWeight, itsSum, other⟩ (some n) =
        some n := fun same => nomatch left.mp same
    simp only [if_neg notLeft]
    rfl

theorem rotateSibling_spec (other : frame.other = .node s left key weight sum right) :
    ∃ after lower upper, pdf.rotate s = .ok after ∧
      At after marks (lower :: upper :: path) tree ∧ Replaces frame lower ∧
      lower.other = frame.near left right ∧ upper.id = s ∧ upper.side = frame.side ∧
      upper.other = frame.far left right ∧ SamePlace (frame :: path) (lower :: upper :: path) := by
  let inner : Frame τ := ⟨frame.side, s, key, weight, sum, frame.far left right⟩
  have flipped := at_flip.mp its
  have plugged : frame.other = inner.plug (frame.near left right) := by
    rw [other]
    obtain ⟨side, _⟩ := frame
    cases side with
    | left => rfl
    | right => rfl
  rw [plugged] at flipped
  obtain ⟨after, rotated, itsRotated⟩ := rotate_spec (at_frame.mpr flipped) (side_flip frame tree).symm
  have back := at_flip.mp itsRotated
  refine ⟨after, ((frame.flip tree).resum (frame.near left right).sum).flip
    (frame.near left right), inner.resum (frame.flip tree).sum, rotated, ?_, ⟨?_, ?_⟩, other_flip,
    rfl, rfl, rfl, ?_⟩
  · rwa [show ((frame.flip tree).resum (frame.near left right).sum).other = tree from
      other_flip] at back
  · exact id_flip.trans id_flip
  · obtain ⟨side, _⟩ := frame
    cases side with
    | left => rfl
    | right => rfl
  · obtain ⟨side, p, parentKey, parentWeight, parentSum, itsOther⟩ := frame
    obtain rfl : itsOther = _ := other
    cases side with
    | left => exact ⟨by simp [inner, Path.before, Frame.before, Frame.flip, Frame.resum],
        by simp [inner, Path.after, Frame.after, Frame.flip, Frame.resum, Frame.near, Frame.far, Tree.entries], rfl⟩
    | right => exact ⟨by simp [inner, Path.before, Frame.before, Frame.flip, Frame.resum, Frame.near, Frame.far, Tree.entries],
        by simp [inner, Path.after, Frame.after, Frame.flip, Frame.resum], rfl⟩

end

def blackOf (marks : Nat → Bool) : Ptr → Bool
  | none => true
  | some n => !marks n

theorem isBlack_eq {parent : Ptr} (holds : Holds pdf marks parent tree) : pdf.isBlack tree.ptr = .ok (blackOf marks tree.ptr) := by
  cases tree with
  | leaf => rfl
  | node id left key weight sum right =>
    rw [Tree.ptr_node, PDF.isBlack, get_eq holds.1]
    rfl

theorem At.sibling_apart (its : At pdf marks (frame :: path) tree)
    (other : s ∈ idsOf frame.other.entries) : s ≠ frame.id ∧ s ∉ idsOf (Path.before path ++ Path.after path) := by
  have apart := (at_flip.mp its).apart other
  have parent : (frame.flip tree).id = frame.id := by
    obtain ⟨side, id, itsKey, itsWeight, itsSum, itsOther⟩ := frame
    cases side with
    | left => rfl
    | right => rfl
  exact ⟨fun same => apart ((path_nodes _ _ s).mpr (.inl (same.trans parent.symm))),
    fun above => apart ((path_nodes _ _ s).mpr (.inr (.inr above)))⟩

theorem At.parent_member (its : At pdf marks (frame :: path) tree) :
    frame.id ∈ idsOf (Path.whole (frame :: path) tree) ∧ frame.id ∉ idsOf (Path.before path ++ Path.after path) := by
  refine ⟨?_, (at_frame.mp its).apart (mem_of_ptr ptr_frame)⟩
  have inPath := (path_nodes frame path frame.id).mpr (.inl rfl)
  grind

theorem At.other_member (other : s ∈ idsOf frame.other.entries) : s ∈ idsOf (Path.whole (frame :: path) tree) := by
  have inPath := (path_nodes frame path s).mpr (.inr (.inl other))
  grind

theorem summed_turned {lower upper : Frame τ} (leftSummed : left.Summed)
    (rightSummed : right.Summed) (near : lower.other = frame.near left right)
    (far : upper.other = frame.far left right) (summed : path.Summed) : Path.Summed (lower :: upper :: path) := by
  refine forall_mem_cons.mpr ⟨?_, forall_mem_cons.mpr ⟨?_, summed⟩⟩
  · rw [near, Frame.near]
    cases frame.side with
    | left => exact leftSummed
    | right => exact rightSummed
  · rw [far, Frame.far]
    cases frame.side with
    | left => exact rightSummed
    | right => exact leftSummed

theorem lowerParent_spec (steady : Steady pdf marks (frame :: path) tree) (root : tree.ptr = some n) :
    ∃ after newMarks newFrame newPath,
      pdf.lowerParent n frame.other.ptr = .ok (newFrame.other.ptr, after) ∧
      Steady after newMarks (newFrame :: newPath) tree ∧ Replaces frame newFrame ∧
      SamePlace (frame :: path) (newFrame :: newPath) ∧
      ((newPath = path ∧ ∀ id, newFrame.other.ptr = some id → newMarks id = false) ∨ (newMarks frame.id = true ∧ newPath ≠ [])) := by
  have its := steady.its
  cases other : frame.other with
  | leaf =>
    refine ⟨pdf, marks, frame, path, ?_, steady, ⟨rfl, rfl⟩, .refl _, .inl ⟨rfl, ?_⟩⟩
    · rw [other]
      rfl
    · rw [other]
      nofun
  | node s left key weight sum right =>
    have otherRoot : frame.other.ptr = some s := by rw [other]; rfl
    have otherHolds := its.above.2.1
    rw [other] at otherHolds
    by_cases red : marks s = true
    · obtain ⟨first, marksParent, its1⟩ := setMark_spec true its its.parent_member.1
      obtain ⟨second, marksSibling, its2⟩ := setMark_spec false its1 (At.other_member (mem_of_ptr otherRoot))
      obtain ⟨after, lower, upper, rotates, its3, replaces, lowerOther, upperId, upperSide,
        upperOther, place⟩ := rotateSibling_spec its2 other
      have otherSummed := steady.summed frame mem_cons_self
      rw [other] at otherSummed
      refine ⟨after, _, lower, upper :: path, ?_, ⟨its3, ?_, ?_⟩, replaces, place, .inr ⟨?_, ?_⟩⟩
      · rw [Tree.ptr_node, PDF.lowerParent, get_eq otherHolds.1]
        simp only [ok_bind, red, its.parentOf root, marksParent, marksSibling, rotates, its3.sibling root]
        rfl
      · exact summed_turned otherSummed.2.1 otherSummed.2.2 lowerOther upperOther fun next later =>
          steady.summed next (mem_cons_of_mem _ later)
      · intro id rootAbove
        have black : ∀ id, path.root (some frame.id) = some id → marks id = false := steady.rootBlack
        have rootHere : path.root (some upper.id) = some id := rootAbove
        rw [upperId] at rootHere
        exact rootBlack_raised black its.parent_member.2 id rootHere
      · rw [update_of_ne (its.sibling_apart (mem_of_ptr otherRoot)).1.symm, update_self]
      · exact cons_ne_nil _ _
    · have black : marks s = false := by simpa using red
      refine ⟨pdf, marks, frame, path, ?_, steady, ⟨rfl, rfl⟩, .refl _, .inl ⟨rfl, ?_⟩⟩
      · rw [Tree.ptr_node, PDF.lowerParent, get_eq otherHolds.1, otherRoot]
        simp only [ok_bind, black]
        rfl
      · intro id same
        rw [otherRoot] at same
        exact Option.some.inj same ▸ black

/-- The sibling before it is raised: its children hold the right sums, and there is one on
the far side. -/
structure Turned (marks : Nat → Bool) (path : Path τ) (frame : Frame τ) (s : Nat) : Prop where
  sibling : ∃ left key weight sum right, frame.other = .node s left key weight sum right ∧
    left.Summed ∧ right.Summed ∧ (frame.far left right).ptr ≠ none
  blackAtTop : path = [] → marks s = false

theorem raised_colours {child : Nat} (steady : Steady pdf marks (frame :: path) tree)
    (inOther : s ∈ idsOf frame.other.entries) (childInOther : child ∈ idsOf frame.other.entries) :
    update (update marks s true) child false frame.id = marks frame.id ∧
      ∀ id, path.root (some frame.id) = some id → update (update marks s true) child false id = false := by
  obtain ⟨apart, above⟩ := steady.its.sibling_apart inOther
  obtain ⟨childApart, childAbove⟩ := steady.its.sibling_apart childInOther
  constructor
  · rw [update_of_ne childApart.symm, update_of_ne apart.symm]
  · intro id root
    have notIn : ∀ m, m ≠ frame.id → m ∉ idsOf (Path.before path ++ Path.after path) → id ≠ m := by
      rintro m notParent notAbove rfl
      cases root_mem root with
      | inl here => exact notParent (Option.some.inj here).symm
      | inr inPath => exact notAbove inPath
    rw [update_of_ne (notIn child childApart childAbove), update_of_ne (notIn s apart above)]
    exact steady.rootBlack id root

theorem raiseChild_spec {child : Nat} {childLeft childRight : Tree τ} {childKey : τ}
    {childWeight childSum : ℚ} (steady : Steady pdf marks (frame :: path) tree) (other : frame.other = .node s left key weight sum right)
    (near : frame.near left right =
      .node child childLeft childKey childWeight childSum childRight) :
    ∃ after newMarks newFrame, pdf.raiseChild s child = .ok (child, after) ∧
      At after newMarks (newFrame :: path) tree ∧ Replaces frame newFrame ∧
      SamePlace (frame :: path) (newFrame :: path) ∧ Turned newMarks path newFrame child ∧
      newMarks frame.id = marks frame.id ∧ ∀ id, path.root (some frame.id) = some id → newMarks id = false := by
  let inner : Frame τ := ⟨frame.side, s, key, weight, sum, frame.far left right⟩
  let lower : Frame τ := ⟨(frame.flip tree).side, child, childKey, childWeight, childSum, frame.near childLeft childRight⟩
  have plugged : frame.other = inner.plug (lower.plug (frame.far childLeft childRight)) := by
    obtain ⟨side, _⟩ := frame
    cases side with
    | left =>
      obtain rfl : left = _ := near
      exact other
    | right =>
      obtain rfl : right = _ := near
      exact other
  have inOther : s ∈ idsOf frame.other.entries := by
    rw [plugged]
    exact mem_of_ptr ptr_frame
  have childInOther : child ∈ idsOf frame.other.entries := by
    have member : child ∈ idsOf (lower.plug (frame.far childLeft childRight)).entries := mem_of_ptr ptr_frame
    rw [plugged, entries_frame]
    simp [member]
  obtain ⟨sameParent, rootBlack⟩ := raised_colours steady inOther childInOther
  have otherSummed := steady.summed frame mem_cons_self
  have flipped := at_flip.mp steady.its
  rw [plugged] at otherSummed flipped
  obtain ⟨rotated, rotates, itsRotated⟩ := rotate_spec (at_frame.mpr (at_frame.mpr flipped)) (side_flip _ _)
  obtain ⟨first, marksRed, its1⟩ : ∃ after, rotated.setMark (some s) true = .ok after ∧ _ :=
    setMark_spec true itsRotated itsRotated.parent_member.1
  have its1 := at_frame.mp its1
  obtain ⟨second, marksBlack, its2⟩ : ∃ after, first.setMark (some child) false = .ok after ∧ _ :=
    setMark_spec false its1 its1.parent_member.1
  have up : first.parentOf s = .ok child := its1.parentOf ptr_frame
  have back := at_flip.mp (at_frame.mp its2)
  rw [other_flip] at back
  refine ⟨second, _, _, ?_, back, ⟨id_flip.trans id_flip, ?_⟩, ?_, ⟨?_, fun _ => update_self _ _ _⟩, sameParent, rootBlack⟩
  · rw [PDF.raiseChild, rotates]
    simp only [ok_bind, marksRed, up, marksBlack]
    rfl
  · obtain ⟨side, _⟩ := frame
    cases side with
    | left => rfl
    | right => rfl
  · have entries := congrArg Tree.entries plugged
    obtain ⟨side, p, parentKey, parentWeight, parentSum, itsOther⟩ := frame
    cases side with
    | left => exact ⟨rfl, by simp [inner, lower, Path.after, Frame.after, Frame.flip, Frame.resum,
        Frame.plug, Frame.near, Frame.far, Tree.entries, entries], rfl⟩
    | right => exact ⟨by simp [inner, lower, Path.before, Frame.before, Frame.flip, Frame.resum,
        Frame.plug, Frame.near, Frame.far, Tree.entries, entries], rfl, rfl⟩
  · obtain ⟨side, _⟩ := frame
    cases side with
    | left => exact ⟨_, _, _, _, _, rfl, otherSummed.2.1.2.1, ⟨rfl, otherSummed.2.1.2.2, otherSummed.2.2⟩, by rintro ⟨⟩⟩
    | right => exact ⟨_, _, _, _, _, rfl, ⟨rfl, otherSummed.2.1, otherSummed.2.2.2.1⟩, otherSummed.2.2.2.2, by rintro ⟨⟩⟩

theorem blackOf_eq_false (red : blackOf marks tree.ptr = false) :
    ∃ id left key weight sum right, tree = .node id left key weight sum right := by
  cases tree with
  | leaf => cases red
  | node id left key weight sum right => exact ⟨id, left, key, weight, sum, right, rfl⟩

theorem turnSibling_spec (steady : Steady pdf marks (frame :: path) tree)
    (root : tree.ptr = some n) (other : frame.other = .node s left key weight sum right)
    (redChild : blackOf marks left.ptr = false ∨ blackOf marks right.ptr = false) (blackAtTop : path = [] → marks s = false) :
    ∃ sibling after newMarks newFrame, pdf.turnSibling n s = .ok (sibling, after) ∧
      At after newMarks (newFrame :: path) tree ∧ Replaces frame newFrame ∧
      SamePlace (frame :: path) (newFrame :: path) ∧ Turned newMarks path newFrame sibling ∧
      newMarks frame.id = marks frame.id ∧ ∀ id, path.root (some frame.id) = some id → newMarks id = false := by
  have its := steady.its
  have otherSummed := steady.summed frame mem_cons_self
  have otherHolds := its.above.2.1
  rw [other] at otherSummed otherHolds
  have toLeft := side_left (its.other_apart root)
  have toRight := side_right (its.other_apart root)
  have unfolded : pdf.turnSibling n s =
      if blackOf marks (frame.far left right).ptr then
        pointee (frame.near left right).ptr >>= fun child => pdf.raiseChild s child
      else .ok (s, pdf) := by
    rw [PDF.turnSibling, its.parentOf root]
    simp only [ok_bind, get_eq its.above.1, get_eq otherHolds.1, isBlack_eq otherHolds.2.1,
      isBlack_eq otherHolds.2.2, root, toLeft, toRight]
    obtain ⟨side, _⟩ := frame
    cases side with
    | left => simp [Frame.far, Frame.near]; rfl
    | right => simp [Frame.far, Frame.near]; rfl
  have red : blackOf marks (frame.near left right).ptr = false ∨ blackOf marks (frame.far left right).ptr = false := by
    rw [Frame.near, Frame.far]
    cases frame.side with
    | left => exact redChild
    | right => exact redChild.symm
  rw [unfolded]
  cases beyond : blackOf marks (frame.far left right).ptr with
  | true =>
    obtain ⟨child, childLeft, childKey, childWeight, childSum, childRight, near⟩ :=
      blackOf_eq_false (red.resolve_right (by simp [beyond]))
    obtain ⟨after, newMarks, newFrame, raises, rest⟩ := raiseChild_spec steady other near
    rw [near]
    exact ⟨child, after, newMarks, newFrame, raises, rest⟩
  | false =>
    refine ⟨s, pdf, marks, frame, rfl, its, ⟨rfl, rfl⟩, .refl _, ⟨⟨left, key, weight, sum, right,
      other, otherSummed.2.1, otherSummed.2.2, fun none => ?_⟩, blackAtTop⟩, rfl, steady.rootBlack⟩
    rw [none] at beyond
    cases beyond

theorem blackenBoth_spec {first second : Nat} {path : Path τ} (its : At pdf marks path tree)
    (firstMember : first ∈ idsOf (path.whole tree)) (secondMember : second ∈ idsOf (path.whole tree)) :
    ∃ middle after, pdf.setMark (some first) false = .ok middle ∧
      middle.setMark (some second) false = .ok after ∧ At after (update (update marks first false) second false) path tree := by
  obtain ⟨middle, marksFirst, itsMiddle⟩ := setMark_spec false its firstMember
  obtain ⟨after, marksSecond, itsAfter⟩ := setMark_spec false itsMiddle secondMember
  exact ⟨middle, after, marksFirst, marksSecond, itsAfter⟩

theorem update_false_of_false {first second id : Nat} (black : marks id = false) :
    update (update marks first false) second false id = false := by
  by_cases isSecond : id = second
  · rw [isSecond, update_self]
  · rw [update_of_ne isSecond]
    by_cases isFirst : id = first
    · rw [isFirst, update_self]
    · rw [update_of_ne isFirst, black]

theorem raiseSibling_spec (its : At pdf marks (frame :: path) tree) (root : tree.ptr = some n)
    (turned : Turned marks path frame s) (summed : path.Summed)
    (rootBlack : ∀ id, path.root (some frame.id) = some id → marks id = false) :
    ∃ after newMarks newPath, pdf.raiseSibling n s = .ok after ∧
      Steady after newMarks newPath tree ∧ SamePlace (frame :: path) newPath := by
  obtain ⟨⟨left, key, weight, sum, right, other, leftSummed, rightSummed, beyond⟩, blackAtTop⟩ := turned
  obtain ⟨rotated, lower, upper, rotates, itsRotated, replaces, lowerOther, upperId, upperSide,
    upperOther, place⟩ := rotateSibling_spec its other
  have upperMember : s ∈ idsOf (Path.whole (lower :: upper :: path) tree) := by
    have inPath := (path_nodes lower (upper :: path) s).mpr (.inr (.inr ((path_nodes upper path s).mpr (.inl upperId.symm))))
    grind
  have siblingAbove := (its.sibling_apart (mem_of_ptr (other ▸ rfl : frame.other.ptr = some s))).2
  have coloured : ∃ after newMarks, (if marks frame.id then rotated.setMark (some s) true
      else .ok rotated) = .ok after ∧ At after newMarks (lower :: upper :: path) tree ∧
        ∀ id, path.root (some s) = some id → newMarks id = false := by
    by_cases red : marks frame.id = true
    · obtain ⟨after, marksRed, itsAfter⟩ := setMark_spec true itsRotated upperMember
      refine ⟨after, _, (if_pos red).trans marksRed, itsAfter, fun id rootAbove => ?_⟩
      cases path with
      | nil =>
        rw [rootBlack frame.id rfl] at red
        cases red
      | cons top path =>
        have inPath : id ∈ idsOf (Path.before (top :: path) ++ Path.after (top :: path)) := by
          have above : Path.root path (some top.id) = some id := rootAbove
          cases root_mem above with
          | inl here => exact (path_nodes _ _ id).mpr (.inl (Option.some.inj here).symm)
          | inr inPath => exact (path_nodes _ _ id).mpr (.inr (.inr inPath))
        rw [update_of_ne fun same : id = s => siblingAbove (same ▸ inPath)]
        exact rootBlack id rootAbove
    · refine ⟨rotated, marks, if_neg red, itsRotated, fun id rootAbove => ?_⟩
      cases path with
      | nil => exact Option.some.inj rootAbove ▸ blackAtTop rfl
      | cons top path => exact rootBlack id rootAbove
  obtain ⟨colouredPdf, newMarks, colours, itsColoured, topBlack⟩ := coloured
  have parent : rotated.parentOf n = .ok frame.id := by
    rw [itsRotated.parentOf root, replaces.id]
  have parentFound := itsRotated.above.1
  have siblingFound := itsColoured.above.2.2.1
  rw [replaces.id] at parentFound
  rw [upperId, replaces.id] at siblingFound
  have unfolded : pdf.raiseSibling n s = (colouredPdf.setMark (upper.leftPtr (some frame.id)) false >>=
      fun pdf => pdf.setMark (upper.rightPtr (some frame.id)) false) := by
    rw [PDF.raiseSibling, rotates]
    simp only [ok_bind, parent, get_eq parentFound]
    rw [show (pure rotated : Except Fault (PDF τ)) = .ok rotated from rfl, colours]
    simp only [ok_bind, get_eq siblingFound]
  have lowerMember : frame.id ∈ idsOf (Path.whole (lower :: upper :: path) tree) := by
    rw [← replaces.id]
    exact itsColoured.parent_member.1
  have farMember : ∀ far, upper.other.ptr = some far → far ∈ idsOf (Path.whole (lower :: upper :: path) tree) := by
    intro far root
    have inPath := (path_nodes lower (upper :: path) far).mpr
      (.inr (.inr ((path_nodes upper path far).mpr (.inr (.inl (mem_of_ptr root))))))
    grind
  rw [← upperOther] at beyond
  obtain ⟨far, farRoot⟩ := Option.ne_none_iff_exists'.mp beyond
  have summedAfter := summed_turned leftSummed rightSummed lowerOther upperOther summed
  have rootAfter : ∀ first second id, Path.root (lower :: upper :: path) tree.ptr = some id →
        update (update newMarks first false) second false id = false := by
    intro first second id rootAbove
    have here : path.root (some upper.id) = some id := rootAbove
    rw [upperId] at here
    exact update_false_of_false (topBlack id here)
  rw [unfolded]
  cases side : upper.side with
  | left =>
    obtain ⟨middle, after, marksFirst, marksSecond, itsAfter⟩ := blackenBoth_spec itsColoured lowerMember (farMember far farRoot)
    refine ⟨after, _, lower :: upper :: path, ?_, ⟨itsAfter, summedAfter, rootAfter _ _⟩, place⟩
    rw [Frame.leftPtr, Frame.rightPtr, side, farRoot]
    simp only [marksFirst, ok_bind, marksSecond]
  | right =>
    obtain ⟨middle, after, marksFirst, marksSecond, itsAfter⟩ := blackenBoth_spec itsColoured (farMember far farRoot) lowerMember
    refine ⟨after, _, lower :: upper :: path, ?_, ⟨itsAfter, summedAfter, rootAfter _ _⟩, place⟩
    rw [Frame.leftPtr, Frame.rightPtr, side, farRoot]
    simp only [marksFirst, ok_bind, marksSecond]

/-- What `lengthen` does for a node: the tree below it stays at its place. -/
def Lengthened (pdf : PDF τ) (path : Path τ) (tree : Tree τ) (n : Nat) : Prop :=
  ∃ after newMarks newPath, Returns (fun fuel => pdf.lengthen fuel n) after ∧
    Steady after newMarks newPath tree ∧ SamePlace path newPath

theorem lengthen_red (its : At pdf marks path tree) (summed : path.Summed)
    (rootBlack : ∀ id, path.root tree.ptr = some id → id ≠ n → marks id = false)
    (root : tree.ptr = some n) (red : marks n = true) : Lengthened pdf path tree n := by
  obtain ⟨node, found, colour, _⟩ := its.node root
  have member := mem_of_ptr root
  obtain ⟨after, marked, itsAfter⟩ := setMark_spec false its (n := n) (by simp [member])
  refine ⟨after, _, path, .succ (.of_eq fun fuel => ?_), ⟨itsAfter, summed, ?_⟩, .refl path⟩
  · rw [PDF.lengthen, get_eq found, ok_bind, if_pos (colour.trans red)]
    exact marked
  · intro id isRoot
    by_cases same : id = n
    · rw [same, update_self]
    · rw [update_of_ne same]
      exact rootBlack id isRoot same

theorem Steady.lengthen_red (steady : Steady pdf marks path tree) (root : tree.ptr = some n)
    (red : marks n = true) : Lengthened pdf path tree n :=
  DiscretePDF.lengthen_red steady.its steady.summed (fun id isRoot _ => steady.rootBlack id isRoot) root red

theorem Lengthened.below (lengthened : Lengthened pdf path (frame.plug tree) n)
    (summed : frame.other.Summed) : ∃ after newMarks newPath,
      Returns (fun fuel => pdf.lengthen fuel n) after ∧ Steady after newMarks newPath tree ∧ SamePlace (frame :: path) newPath := by
  obtain ⟨after, newMarks, newPath, returns, steady, place⟩ := lengthened
  refine ⟨after, newMarks, frame :: newPath, returns, steady_frame.mpr ⟨steady, summed⟩, ?_, ?_, rfl⟩
  · simp only [Path.before, place.before]
  · simp only [Path.after, place.after]

theorem SamePlace.trans {first second third : Path τ} (one : SamePlace first second)
    (two : SamePlace second third) : SamePlace first third :=
  ⟨two.before.trans one.before, two.after.trans one.after, two.parent.trans one.parent⟩

theorem lengthen_succ {newMarks : Nat → Bool} {newFrame : Frame τ} {newPath : Path τ}
    {lowered : PDF τ} (steady : Steady pdf marks (frame :: path) tree) (root : tree.ptr = some n) (black : ¬ marks n = true)
    (lowers : pdf.lowerParent n frame.other.ptr = .ok (newFrame.other.ptr, lowered))
    (steadyLowered : Steady lowered newMarks (newFrame :: newPath) tree) (fuel : Nat) :
    pdf.lengthen (fuel + 1) n = (match newFrame.other.ptr with
      | none => lowered.lengthen fuel newFrame.id
      | some s => do
        let node ← lowered.get s
        let leftIsBlack ← lowered.isBlack node.left
        let rightIsBlack ← lowered.isBlack node.right
        if leftIsBlack && rightIsBlack then do
          let parent ← lowered.get newFrame.id
          let pdf ← lowered.setMark (some s) true
          if parent.mark then pdf.setMark (some newFrame.id) false
          else pdf.lengthen fuel newFrame.id
        else do
          let (s, pdf) ← lowered.turnSibling n s
          pdf.raiseSibling n s) := by
  obtain ⟨node, found, colour, parent⟩ := steady.its.node root
  rw [PDF.lengthen, get_eq found, ok_bind, if_neg (colour ▸ black), parent]
  simp only [Path.parent, Option.isSome_some, if_true, steady.its.sibling root, ok_bind, lowers, steadyLowered.its.parentOf root]
  all_goals rfl

theorem lengthen_spec (steady : Steady pdf marks path tree) (root : tree.ptr = some n) : Lengthened pdf path tree n := by
  induction path generalizing pdf marks tree n with
  | nil =>
    by_cases red : marks n = true
    · exact steady.lengthen_red root red
    · obtain ⟨node, found, colour, parent⟩ := steady.its.node root
      refine ⟨pdf, marks, [], .succ (.of_eq fun fuel => ?_), steady, .refl _⟩
      rw [PDF.lengthen, get_eq found, ok_bind, if_neg (colour ▸ red), parent]
      rfl
  | cons frame path ih =>
    by_cases red : marks n = true
    · exact steady.lengthen_red root red
    obtain ⟨lowered, newMarks, newFrame, newPath, lowers, steadyLowered, replaces, place, kind⟩ := lowerParent_spec steady root
    -- The call for the parent: its path is not longer, or it is red.
    have recursive : ∀ (next : PDF τ) (nextMarks : Nat → Bool), Steady next nextMarks (newFrame :: newPath) tree →
        (newPath = path ∨ nextMarks newFrame.id = true) →
        ∃ after finalMarks finalPath, Returns (fun fuel => next.lengthen fuel newFrame.id) after ∧
          Steady after finalMarks finalPath tree ∧ SamePlace (newFrame :: newPath) finalPath := by
      intro next nextMarks steadyNext cases
      obtain ⟨steadyParent, summed⟩ := steady_frame.mp steadyNext
      cases cases with
      | inl same =>
        subst same
        exact (ih steadyParent ptr_frame).below summed
      | inr parentRed => exact (steadyParent.lengthen_red ptr_frame parentRed).below summed
    have unfolded := lengthen_succ steady root red lowers steadyLowered
    cases other : newFrame.other with
    | leaf =>
      obtain ⟨after, finalMarks, finalPath, returns, steadyAfter, samePlace⟩ :=
        recursive lowered newMarks steadyLowered (kind.imp And.left fun parentRed => replaces.id ▸ parentRed.1)
      refine ⟨after, finalMarks, finalPath, .succ (.congr (fun fuel => ?_) returns), steadyAfter, place.trans samePlace⟩
      rw [unfolded, other]
      rfl
    | node s left key weight sum right =>
      have otherRoot : newFrame.other.ptr = some s := by rw [other]; rfl
      have otherHolds := steadyLowered.its.above.2.1
      rw [other] at otherHolds
      have tested : ∀ fuel, pdf.lengthen (fuel + 1) n = (if blackOf newMarks left.ptr && blackOf newMarks right.ptr then do
            let pdf ← lowered.setMark (some s) true
            if newMarks newFrame.id then pdf.setMark (some newFrame.id) false
            else pdf.lengthen fuel newFrame.id
          else do
            let (s, pdf) ← lowered.turnSibling n s
            pdf.raiseSibling n s) := by
        intro fuel
        rw [unfolded, otherRoot]
        simp only [get_eq otherHolds.1, ok_bind, isBlack_eq otherHolds.2.1, isBlack_eq otherHolds.2.2, get_eq steadyLowered.its.above.1]
      by_cases bothBlack : (blackOf newMarks left.ptr && blackOf newMarks right.ptr) = true
      · obtain ⟨apart, above⟩ := steadyLowered.its.sibling_apart (mem_of_ptr otherRoot)
        obtain ⟨marked, marks', steadyMarked⟩ := steadyLowered.mark true (At.other_member (mem_of_ptr otherRoot)) fun _ rootAbove => by
            have here : Path.root newPath (some newFrame.id) = some s := rootAbove
            cases root_mem here with
            | inl parent => exact apart (Option.some.inj parent).symm
            | inr inPath => exact above inPath
        by_cases parentRed : newMarks newFrame.id = true
        · obtain ⟨after, finishes, steadyAfter⟩ := steadyMarked.mark false (n := newFrame.id) steadyMarked.its.parent_member.1 (by simp)
          refine ⟨after, _, _, .succ (.of_eq fun fuel => ?_), steadyAfter, place⟩
          rw [tested, if_pos bothBlack, marks', ok_bind, if_pos parentRed]
          exact finishes
        · obtain ⟨after, finalMarks, finalPath, returns, steadyAfter, samePlace⟩ :=
            recursive marked _ steadyMarked (.inl (kind.resolve_right fun both =>
              parentRed (replaces.id ▸ both.1)).1)
          refine ⟨after, finalMarks, finalPath, .succ (.congr (fun fuel => ?_) returns), steadyAfter, place.trans samePlace⟩
          rw [tested, if_pos bothBlack, marks', ok_bind, if_neg parentRed]
      · have redChild : blackOf newMarks left.ptr = false ∨
            blackOf newMarks right.ptr = false := by simpa [imp_iff_not_or] using bothBlack
        obtain ⟨sibling, turned, turnedMarks, turnedFrame, turns, itsTurned, replacesTurned, placeTurned, isTurned, _, topBlack⟩ :=
          turnSibling_spec steadyLowered root other redChild fun none => by
            cases kind with
            | inl same => exact same.2 s otherRoot
            | inr above => exact absurd none above.2
        obtain ⟨after, finalMarks, finalPath, raises, steadyAfter, placeAfter⟩ :=
          raiseSibling_spec itsTurned root isTurned (fun next member => steadyLowered.summed next (mem_cons_of_mem _ member))
            (replacesTurned.id ▸ topBlack)
        refine ⟨after, finalMarks, finalPath, .succ (.of_eq fun fuel => ?_), steadyAfter, (place.trans placeTurned).trans placeAfter⟩
        rw [tested, if_neg bothBlack, turns, ok_bind]
        exact raises

end Lengthen

end NeuroMerge.DiscretePDF
