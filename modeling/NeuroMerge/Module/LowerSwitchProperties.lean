import NeuroMerge.Foundations.Through
import NeuroMerge.Module.LowerSwitch
import NeuroMerge.Module.PhiProperties

/-!
# Lowering a switch preserves meaning

Every block that the pass makes takes over some of the edges of the block with the switch:
the new default block the edge to the default block, and each comparison the edge of its
case. One such step keeps the number of entries in the PHI nodes right and changes nothing
that the original registers show; the pass is a sequence of them.
-/

namespace NeuroMerge.Module.LowerSwitch

open List NeuroMerge.Module.LowerSwitch.Function

variable {V M : Type}

section Entries

variable {phi phi' : PHINode V} {orig new block next : Nat}

def Unambiguous (phi : PHINode V) : Prop :=
  ∀ block v w, (block, v) ∈ phi.incoming → (block, w) ∈ phi.incoming → v = w

def Redirected (orig new : Nat) (phi phi' : PHINode V) : Prop :=
  phi'.id = phi.id ∧ ∃ before value after, phi.incoming = before ++ (orig, value) :: after ∧
    phi'.incoming = before ++ (new, value) :: after

theorem setIncomingBlock_redirected (new : Nat) (member : orig ∈ phi.blocks) :
    ∃ index, phi.getBasicBlockIndex orig = some index ∧ Redirected orig new phi (phi.setIncomingBlock index new) := by
  cases found : phi.getBasicBlockIndex orig with
  | none =>
    rw [PHINode.getBasicBlockIndex, findIdx?_eq_none_iff] at found
    have absent := found orig member
    simp at absent
  | some index =>
    refine ⟨index, rfl, rfl, ?_⟩
    rw [PHINode.getBasicBlockIndex, findIdx?_eq_some_iff_getElem] at found
    obtain ⟨within, isOrig, -⟩ := found
    have inIncoming : index < phi.incoming.length := by
      simpa [PHINode.blocks] using within
    have key : phi.incoming[index].1 = orig := by
      simpa [PHINode.blocks] using isOrig
    refine ⟨phi.incoming.take index, phi.incoming[index].2, phi.incoming.drop (index + 1), ?_, ?_⟩
    · have whole : phi.incoming.take index ++ phi.incoming[index] :: phi.incoming.drop (index + 1) = phi.incoming := by
        rw [getElem_cons_drop, take_append_drop]
      rw [← key]
      exact whole.symm
    · exact modify_eq_take_cons_drop inIncoming

namespace Redirected

section

variable (redirected : Redirected orig new phi phi')
include redirected

theorem count (block : Nat) : phi'.blocks.count block + [orig].count block = phi.blocks.count block + [new].count block := by
  obtain ⟨-, before, value, after, split, split'⟩ := redirected
  simp only [PHINode.blocks, split, split', map_append, map_cons, count_append, count_cons, count_nil]
  omega

theorem getIncomingValueForBlock_other (notOrig : block ≠ orig) (notNew : block ≠ new) :
    phi'.getIncomingValueForBlock block = phi.getIncomingValueForBlock block := by
  obtain ⟨-, before, value, after, split, split'⟩ := redirected
  simp [PHINode.getIncomingValueForBlock, split, split', find?_append, notOrig.symm, notNew.symm]

theorem mem_iff :
    ∃ value, (orig, value) ∈ phi.incoming ∧ (new, value) ∈ phi'.incoming ∧
      ∀ entry ∈ phi'.incoming, entry = (new, value) ∨ entry ∈ phi.incoming := by
  obtain ⟨-, before, value, after, split, split'⟩ := redirected
  refine ⟨value, by simp [split], by simp [split'], fun entry member => ?_⟩
  rw [split', mem_append, mem_cons] at member
  rw [split, mem_append, mem_cons]
  tauto

theorem unambiguous (unambiguous : Unambiguous phi) (fresh : new ∉ phi.blocks) : Unambiguous phi' := by
  obtain ⟨value, -, -, members⟩ := redirected.mem_iff
  have old {block : Nat} {v : Value V} (member : (block, v) ∈ phi.incoming) : block ≠ new := by
    rintro rfl
    exact fresh (mem_map_of_mem member)
  intro block v w memberV memberW
  obtain sameV | oldV := members _ memberV
  · obtain sameW | oldW := members _ memberW
    · rw [Prod.mk.injEq] at sameV sameW
      exact sameV.2.trans sameW.2.symm
    · exact absurd (congrArg Prod.fst sameV) (old oldW)
  · obtain sameW | oldW := members _ memberW
    · exact absurd (congrArg Prod.fst sameW) (old oldV)
    · exact unambiguous block v w oldV oldW

theorem getIncomingValueForBlock_new (unambiguous : Unambiguous phi) (fresh : new ∉ phi.blocks) :
    phi'.getIncomingValueForBlock new = phi.getIncomingValueForBlock orig := by
  have unambiguous' := redirected.unambiguous unambiguous fresh
  obtain ⟨value, isOrig, isNew, -⟩ := redirected.mem_iff
  rw [PHINode.getIncomingValueForBlock_of_mem (unambiguous' new) isNew, PHINode.getIncomingValueForBlock_of_mem (unambiguous orig) isOrig]

theorem getIncomingValueForBlock_orig (unambiguous : Unambiguous phi) (different : orig ≠ new) (left : orig ∈ phi'.blocks) :
    phi'.getIncomingValueForBlock orig = phi.getIncomingValueForBlock orig := by
  obtain ⟨value, -, -, members⟩ := redirected.mem_iff
  obtain ⟨w, found, member⟩ := PHINode.exists_getIncomingValueForBlock left
  obtain same | old := members _ member
  · exact absurd (congrArg Prod.fst same) different
  · rw [found, PHINode.getIncomingValueForBlock_of_mem (unambiguous orig) old]

end

end Redirected

end Entries

section WellFormed

def Terminator.Below (next : Nat) : Terminator V M → Prop
  | .switch condition _ _ => condition.Below next
  | .br _ => True
  | .condBr condition _ _ => condition.Below next
  | .other operands _ _ => ∀ value ∈ operands, value.Below next

structure BasicBlock.Below (next : Nat) (b : BasicBlock V M) : Prop where
  phis : ∀ phi ∈ b.phis, phi.id < next ∧ ∀ entry ∈ phi.incoming, entry.2.Below next
  body : ∀ instruction ∈ b.body, instruction.Below next
  terminator : b.terminator.Below next

theorem Terminator.Below.mono {terminator : Terminator V M} {next later : Nat}
    (below : terminator.Below next) (grows : next ≤ later) : terminator.Below later := by
  cases terminator with
  | switch condition cases defaultDest => exact Value.Below.mono below grows
  | br dest => trivial
  | condBr condition ifTrue ifFalse => exact Value.Below.mono below grows
  | other operands successors branch =>
    exact fun value member => (below value member).mono grows

theorem BasicBlock.Below.mono {b : BasicBlock V M} {next later : Nat} (below : b.Below next) (grows : next ≤ later) : b.Below later where
  phis phi isPhi := by
    obtain ⟨id, entries⟩ := below.phis phi isPhi
    exact ⟨Nat.lt_of_lt_of_le id grows, fun entry member => (entries entry member).mono grows⟩
  body instruction member := (below.body instruction member).mono grows
  terminator := below.terminator.mono grows

def Function.Has (f : Function V M) (name : Nat) : Prop := ∃ b ∈ f.blocks, b.name = name

def Function.edges (f : Function V M) (src dst : Nat) : Nat :=
  ((f.block? src).map fun b => b.terminator.successors.count dst).getD 0

/-- What LLVM ensures: every PHI node has exactly one entry for each incoming edge, and the
entries of one block agree. -/
structure Function.WellFormed (f : Function V M) : Prop where
  names : (f.blocks.map BasicBlock.name).Nodup
  fresh : ∀ b ∈ f.blocks, b.name < f.nextBlock
  closed : ∀ b ∈ f.blocks, ∀ dst ∈ b.terminator.successors, f.Has dst
  entries : ∀ b ∈ f.blocks, ∀ phi ∈ b.phis, ∀ src, phi.blocks.count src = f.edges src b.name
  unambiguous : ∀ b ∈ f.blocks, ∀ phi ∈ b.phis, Unambiguous phi
  below : ∀ b ∈ f.blocks, b.Below f.next

variable {f f' : Function V M} {b b' node : BasicBlock V M} {name src dst : Nat}

theorem Function.block?_eq_some (names : (f.blocks.map BasicBlock.name).Nodup) :
    f.block? name = some b ↔ b ∈ f.blocks ∧ b.name = name := by
  rw [block?]
  constructor
  · intro found
    exact ⟨mem_of_find?_eq_some found, by simpa using find?_some found⟩
  · rintro ⟨member, rfl⟩
    cases found : f.blocks.find? fun other => other.name = b.name with
    | none =>
      rw [find?_eq_none] at found
      exact absurd (decide_eq_true rfl) (found b member)
    | some other =>
      have same : other.name = b.name := by simpa using find?_some found
      rw [inj_on_of_nodup_map names (mem_of_find?_eq_some found) member same]

theorem Function.edges_of_mem (names : (f.blocks.map BasicBlock.name).Nodup)
    (member : b ∈ f.blocks) : f.edges b.name dst = b.terminator.successors.count dst := by
  rw [Function.edges, (block?_eq_some names).mpr ⟨member, rfl⟩]
  rfl

theorem Function.edges_of_not_has (absent : ¬ f.Has src) : f.edges src dst = 0 := by
  have none : f.block? src = none := by
    rw [block?, find?_eq_none]
    intro b member same
    exact absent ⟨b, member, by simpa using same⟩
  rw [Function.edges, none]
  rfl

end WellFormed

section Splits

/-- A block, and what becomes of it when another one takes over an edge to the target. -/
structure MovedBlock (orig : Nat) (terminator : Terminator V M) (new target : Nat)
    (b b' : BasicBlock V M) : Prop where
  name : b'.name = b.name
  body : b'.body = b.body
  terminator : b'.terminator = if b.name = orig then terminator else b.terminator
  phis : if b.name = target then List.Forall₂ (Redirected orig new) b.phis b'.phis
    else b'.phis = b.phis

theorem MovedBlock.map_name {orig new target : Nat} {terminator : Terminator V M} {blocks moved : List (BasicBlock V M)}
    (related : List.Forall₂ (MovedBlock orig terminator new target) blocks moved) :
    moved.map BasicBlock.name = blocks.map BasicBlock.name := by
  induction related with
  | nil => rfl
  | cons moves _ ih => rw [map_cons, map_cons, moves.name, ih]

theorem MovedBlock.phi_cases {orig new target : Nat} {terminator : Terminator V M}
    {b b' : BasicBlock V M} (moved : MovedBlock orig terminator new target b b') {phi' : PHINode V} (isPhi : phi' ∈ b'.phis) :
    (b.name = target ∧ ∃ phi ∈ b.phis, Redirected orig new phi phi') ∨ b.name ≠ target ∧ phi' ∈ b.phis := by
  have phis := moved.phis
  split at phis
  · rename_i isTarget
    exact .inl ⟨isTarget, exists_of_mem_right phis isPhi⟩
  · rename_i notTarget
    exact .inr ⟨notTarget, phis ▸ isPhi⟩

/-- A new block takes over some edges of a block, among them one edge to the target. The
other blocks to which these edges lead have no PHI nodes. -/
structure Splits (f f' : Function V M) (b₀ : BasicBlock V M) (terminator : Terminator V M)
    (node : BasicBlock V M) (target : Nat) : Prop where
  member : b₀ ∈ f.blocks
  blocks : ∃ moved,
    List.Forall₂ (MovedBlock b₀.name terminator node.name target) f.blocks moved ∧
      f'.blocks.Perm (node :: moved)
  name : node.name = f.nextBlock
  nextBlock : f'.nextBlock = f.nextBlock + 1
  next : f.next ≤ f'.next
  phis : node.phis = []
  nodeBelow : node.Below f'.next
  below : terminator.Below f.next
  successors : (node.terminator.successors ++ terminator.successors).Perm
    (node.name :: b₀.terminator.successors)
  reached : node.name ∈ terminator.successors
  once : node.terminator.successors.count target = 1
  plain : ∀ b ∈ f.blocks, b.name ∈ node.terminator.successors → b.name ≠ target → b.phis = []

namespace Splits

variable {f f' : Function V M} {b₀ b b' node : BasicBlock V M} {terminator : Terminator V M} {target name src dst : Nat}

section

variable (splits : Splits f f' b₀ terminator node target)

include splits

theorem node_mem : node ∈ f'.blocks := by
  obtain ⟨moved, -, perm⟩ := splits.blocks
  exact perm.mem_iff.mpr (by simp)

theorem exists_moved (member : b ∈ f.blocks) : ∃ b' ∈ f'.blocks, MovedBlock b₀.name terminator node.name target b b' := by
  obtain ⟨moved, related, perm⟩ := splits.blocks
  obtain ⟨b', isMoved, relates⟩ := exists_of_mem_right related.flip member
  exact ⟨b', perm.mem_iff.mpr (by simp [isMoved]), relates⟩

theorem cases_mem (member : b' ∈ f'.blocks) : b' = node ∨ ∃ b ∈ f.blocks, MovedBlock b₀.name terminator node.name target b b' := by
  obtain ⟨moved, related, perm⟩ := splits.blocks
  rw [perm.mem_iff, mem_cons] at member
  exact member.imp_right fun isMoved => exists_of_mem_right related isMoved

theorem names_perm : (f'.blocks.map BasicBlock.name).Perm (node.name :: f.blocks.map BasicBlock.name) := by
  obtain ⟨moved, related, perm⟩ := splits.blocks
  rw [← MovedBlock.map_name related]
  exact perm.map BasicBlock.name

theorem has_iff : f'.Has name ↔ name = node.name ∨ f.Has name := by
  have names := splits.names_perm.mem_iff (a := name)
  simp only [mem_map, mem_cons] at names
  exact names

theorem count_successors (dst : Nat) :
    node.terminator.successors.count dst + terminator.successors.count dst =
      [node.name].count dst + b₀.terminator.successors.count dst := by
  have counts := splits.successors.count_eq dst
  rw [count_append, ← singleton_append, count_append] at counts
  exact counts

variable (wellFormed : f.WellFormed)

include wellFormed

theorem not_has_node : ¬ f.Has node.name := by
  rintro ⟨b, member, same⟩
  have below := wellFormed.fresh b member
  rw [same, splits.name] at below
  exact Nat.lt_irrefl _ below

theorem ne_node (member : b ∈ f.blocks) : b.name ≠ node.name :=
  fun same => splits.not_has_node wellFormed ⟨b, member, same⟩

theorem names : (f'.blocks.map BasicBlock.name).Nodup := by
  rw [splits.names_perm.nodup_iff, nodup_cons]
  refine ⟨fun member => ?_, wellFormed.names⟩
  obtain ⟨b, isMember, same⟩ := List.mem_map.mp member
  exact splits.ne_node wellFormed isMember same

theorem edges_eq (src dst : Nat) :
    f'.edges src dst = if src = node.name then node.terminator.successors.count dst
      else if src = b₀.name then terminator.successors.count dst else f.edges src dst := by
  have names := splits.names wellFormed
  by_cases isNode : src = node.name
  · rw [if_pos isNode, isNode, edges_of_mem names splits.node_mem]
  · rw [if_neg isNode]
    by_cases has : f.Has src
    · obtain ⟨b, member, rfl⟩ := has
      obtain ⟨b', member', moved⟩ := splits.exists_moved member
      rw [← moved.name, edges_of_mem names member', moved.terminator, moved.name, edges_of_mem wellFormed.names member]
      split <;> rfl
    · have notOrig : src ≠ b₀.name := fun same => has ⟨b₀, splits.member, same.symm⟩
      rw [if_neg notOrig, edges_of_not_has has, edges_of_not_has]
      rw [splits.has_iff]
      exact not_or.mpr ⟨isNode, has⟩

theorem node_successors_has (member : dst ∈ node.terminator.successors) : f.Has dst := by
  have within : dst ∈ node.name :: b₀.terminator.successors := splits.successors.mem_iff.mp (mem_append_left _ member)
  cases within with
  | head =>
    -- the original terminator does not lead to the new block, and the new one does once
    have counts := splits.count_successors node.name
    have absent : b₀.terminator.successors.count node.name = 0 := by
      rw [count_eq_zero]
      intro isSuccessor
      exact splits.not_has_node wellFormed (wellFormed.closed b₀ splits.member _ isSuccessor)
    have first := count_pos_iff.mpr member
    have second := count_pos_iff.mpr splits.reached
    rw [absent, count_singleton_self] at counts
    omega
  | tail _ old => exact wellFormed.closed b₀ splits.member dst old

theorem successors_has (member : dst ∈ terminator.successors) : dst = node.name ∨ f.Has dst := by
  have within : dst ∈ node.name :: b₀.terminator.successors := splits.successors.mem_iff.mp (mem_append_right _ member)
  cases within with
  | head => exact .inl rfl
  | tail _ old => exact .inr (wellFormed.closed b₀ splits.member dst old)

theorem not_mem_blocks (member : b ∈ f.blocks) {phi : PHINode V} (isPhi : phi ∈ b.phis) : node.name ∉ phi.blocks := by
  rw [← count_eq_zero, wellFormed.entries b member phi isPhi, edges_of_not_has (splits.not_has_node wellFormed)]

theorem entries (member' : b' ∈ f'.blocks) {phi' : PHINode V} (isPhi : phi' ∈ b'.phis)
    (src : Nat) : phi'.blocks.count src = f'.edges src b'.name := by
  obtain rfl | ⟨b, member, moved⟩ := splits.cases_mem member'
  · rw [splits.phis] at isPhi
    cases isPhi
  · have counts := splits.count_successors b.name
    have different : [node.name].count b.name = 0 := List.count_eq_zero.mpr fun isNode =>
        splits.ne_node wellFormed member (mem_singleton.mp isNode)
    rw [moved.name, splits.edges_eq wellFormed]
    obtain ⟨isTarget, phi, isOld, redirected⟩ | ⟨notTarget, isOld⟩ := moved.phi_cases isPhi
    · have redirects := redirected.count src
      have old := wellFormed.entries b member phi isOld src
      have once := splits.once
      rw [← isTarget] at once
      by_cases isNode : src = node.name
      · have notOrig : [b₀.name].count src = 0 := List.count_eq_zero.mpr fun isOrig =>
          splits.ne_node wellFormed splits.member ((mem_singleton.mp isOrig).symm.trans isNode)
        rw [isNode, edges_of_not_has (splits.not_has_node wellFormed), ← isNode] at old
        rw [if_pos isNode]
        rw [notOrig, old, isNode, count_singleton_self] at redirects
        rw [isNode]
        omega
      · have notNew : [node.name].count src = 0 := List.count_eq_zero.mpr fun isNew => isNode (mem_singleton.mp isNew)
        rw [if_neg isNode]
        by_cases isOrig : src = b₀.name
        · rw [isOrig, edges_of_mem wellFormed.names splits.member, ← isOrig] at old
          rw [if_pos isOrig]
          rw [notNew, old, isOrig, count_singleton_self] at redirects
          rw [isOrig]
          omega
        · have notOrig : [b₀.name].count src = 0 := List.count_eq_zero.mpr fun isOld => isOrig (mem_singleton.mp isOld)
          rw [if_neg isOrig]
          omega
    · have old := wellFormed.entries b member phi' isOld src
      have untouched : node.terminator.successors.count b.name = 0 := by
        rw [count_eq_zero]
        intro isSuccessor
        rw [splits.plain b member isSuccessor notTarget] at isOld
        cases isOld
      by_cases isNode : src = node.name
      · rw [isNode, edges_of_not_has (splits.not_has_node wellFormed), ← isNode] at old
        rw [if_pos isNode]
        omega
      · rw [if_neg isNode]
        by_cases isOrig : src = b₀.name
        · rw [isOrig, edges_of_mem wellFormed.names splits.member, ← isOrig] at old
          rw [if_pos isOrig]
          omega
        · rw [if_neg isOrig]
          exact old

theorem moved_of_name (member : b ∈ f.blocks) (member' : b' ∈ f'.blocks) (same : b'.name = b.name) :
    MovedBlock b₀.name terminator node.name target b b' := by
  obtain ⟨other, isOther, moved⟩ := splits.exists_moved member
  rw [inj_on_of_nodup_map (splits.names wellFormed) member' isOther (same.trans moved.name.symm)]
  exact moved

theorem eq_node_of_name (member' : b' ∈ f'.blocks) (same : b'.name = node.name) : b' = node :=
  inj_on_of_nodup_map (splits.names wellFormed) member' splits.node_mem same

theorem blocks_below (member' : b' ∈ f'.blocks) : b'.Below f'.next := by
  obtain rfl | ⟨b, member, moved⟩ := splits.cases_mem member'
  · exact splits.nodeBelow
  · have old := (wellFormed.below b member).mono splits.next
    constructor
    · intro phi' isPhi
      obtain ⟨-, phi, isOld, redirected⟩ | ⟨-, isOld⟩ := moved.phi_cases isPhi
      · obtain ⟨value, isOrig, -, members⟩ := redirected.mem_iff
        have belowPhi := old.phis phi isOld
        rw [redirected.1]
        refine ⟨belowPhi.1, fun entry isEntry => ?_⟩
        obtain rfl | isOldEntry := members entry isEntry
        · exact belowPhi.2 (b₀.name, value) isOrig
        · exact belowPhi.2 entry isOldEntry
      · exact old.phis phi' isOld
    · rw [moved.body]
      exact old.body
    · rw [moved.terminator]
      split
      · exact splits.below.mono splits.next
      · exact old.terminator

theorem preserves : f'.WellFormed where
  names := splits.names wellFormed
  fresh b' member' := by
    rw [splits.nextBlock]
    obtain rfl | ⟨b, member, moved⟩ := splits.cases_mem member'
    · exact splits.name ▸ Nat.lt_succ_self _
    · exact moved.name ▸ Nat.lt_succ_of_lt (wellFormed.fresh b member)
  closed b' member' dst isSuccessor := by
    rw [splits.has_iff]
    obtain rfl | ⟨b, member, moved⟩ := splits.cases_mem member'
    · exact .inr (splits.node_successors_has wellFormed isSuccessor)
    · rw [moved.terminator] at isSuccessor
      split at isSuccessor
      · exact splits.successors_has wellFormed isSuccessor
      · exact .inr (wellFormed.closed b member dst isSuccessor)
  entries b' member' phi' isPhi src := splits.entries wellFormed member' isPhi src
  unambiguous b' member' phi' isPhi := by
    obtain rfl | ⟨b, member, moved⟩ := splits.cases_mem member'
    · rw [splits.phis] at isPhi
      cases isPhi
    · obtain ⟨-, phi, isOld, redirected⟩ | ⟨-, isOld⟩ := moved.phi_cases isPhi
      · exact redirected.unambiguous (wellFormed.unambiguous b member phi isOld) (splits.not_mem_blocks wellFormed member isOld)
      · exact wellFormed.unambiguous b member phi' isOld
  below b' member' := splits.blocks_below wellFormed member'

end

end Splits

end Splits

end NeuroMerge.Module.LowerSwitch
