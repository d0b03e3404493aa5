import NeuroMerge.Module.PhiCleaner

/-!
# PHI nodes are executed as if at once

After the pass no PHI node reads what an earlier one of its block defines, and all of
them list their incoming blocks in the same order. So the interpreter, which executes
them one after the other with one incoming index, gives them the values that they
have in LLVM.
-/

namespace NeuroMerge.Module

open List Instruction

variable {V M : Type} {next : Nat} {phis : List Nat} {copies : List (Copy V)} {s : Cleaning V}
  {reference phi pi pi' : PHINode V} {block src : Nat} {value value' : Value V}

section WellFormed

def Value.Below (next : Nat) : Value V → Prop
  | .constant _ => True
  | .register id => id < next

def Instruction.Below (next : Nat) : Instruction V M → Prop
  | .bitCast id value => id < next ∧ value.Below next
  | .other id operands _ =>
    (∀ target ∈ id, target < next) ∧ ∀ value ∈ operands, value.Below next

theorem Value.Below.mono {later : Nat} (below : value.Below next) (grows : next ≤ later) : value.Below later := by
  cases value with
  | constant _ => trivial
  | register id => exact Nat.lt_of_lt_of_le below grows

theorem Instruction.Below.mono {instruction : Instruction V M} {later : Nat}
    (below : instruction.Below next) (grows : next ≤ later) : instruction.Below later := by
  cases instruction with
  | bitCast id value => exact ⟨Nat.lt_of_lt_of_le below.1 grows, below.2.mono grows⟩
  | other id operands compute =>
    exact ⟨fun target isId => Nat.lt_of_lt_of_le (below.1 target isId) grows, fun value member => (below.2 value member).mono grows⟩

/-- What LLVM ensures of the PHI nodes of a block: all have the same incoming blocks, in
whatever order and however often, and one value for each of them. -/
structure Consistent (phis : List (PHINode V)) : Prop where
  distinct : (phis.map PHINode.id).Nodup
  blocks : ∀ phi ∈ phis, ∀ psi ∈ phis, phi.blocks.Perm psi.blocks
  unambiguous : ∀ phi ∈ phis, ∀ block v w,
    (block, v) ∈ phi.incoming → (block, w) ∈ phi.incoming → v = w

structure Function.WellFormed (f : Function V M) : Prop where
  names : (f.blocks.map BasicBlock.name).Nodup
  consistent : ∀ b ∈ f.blocks, Consistent b.phis
  incoming : ∀ src ∈ f.blocks, ∀ dst ∈ f.blocks, dst.name ∈ src.successors →
    ∀ phi ∈ dst.phis, src.name ∈ phi.blocks
  phis : ∀ b ∈ f.blocks, ∀ phi ∈ b.phis,
    phi.id < f.next ∧ ∀ incoming ∈ phi.incoming, incoming.2.Below f.next
  body : ∀ b ∈ f.blocks, ∀ instruction ∈ b.body, instruction.Below f.next
  operands : ∀ b ∈ f.blocks, ∀ value ∈ b.operands, value.Below f.next

end WellFormed

section Incoming

theorem PHINode.getIncomingValueForBlock_of_mem
    (unambiguous : ∀ v w, (block, v) ∈ phi.incoming → (block, w) ∈ phi.incoming → v = w)
    (member : (block, value) ∈ phi.incoming) : phi.getIncomingValueForBlock block = some value := by
  rw [getIncomingValueForBlock]
  cases found : phi.incoming.find? fun incoming => incoming.1 = block with
  | none =>
    rw [find?_eq_none] at found
    exact absurd (decide_eq_true rfl) (found (block, value) member)
  | some incoming =>
    have same : incoming.1 = block := by simpa using find?_some found
    have isMember : (block, incoming.2) ∈ phi.incoming := same ▸ mem_of_find?_eq_some found
    rw [Option.map_some, unambiguous _ _ isMember member]

theorem PHINode.mem_of_getIncomingValueForBlock
    (found : phi.getIncomingValueForBlock block = some value) : (block, value) ∈ phi.incoming := by
  rw [getIncomingValueForBlock, Option.map_eq_some_iff] at found
  obtain ⟨incoming, isIncoming, rfl⟩ := found
  have same : incoming.1 = block := by simpa using find?_some isIncoming
  exact same ▸ mem_of_find?_eq_some isIncoming

theorem PHINode.exists_getIncomingValueForBlock (member : block ∈ phi.blocks) :
    ∃ value, phi.getIncomingValueForBlock block = some value ∧ (block, value) ∈ phi.incoming := by
  rw [getIncomingValueForBlock]
  cases found : phi.incoming.find? fun incoming => incoming.1 = block with
  | none =>
    rw [find?_eq_none] at found
    obtain ⟨incoming, isIncoming, same⟩ := mem_map.mp member
    exact absurd (decide_eq_true same) (found incoming isIncoming)
  | some incoming =>
    have same : incoming.1 = block := by simpa using find?_some found
    exact ⟨incoming.2, rfl, same ▸ mem_of_find?_eq_some found⟩

theorem PHINode.getIncomingValueForBlock_eq (phi : PHINode V) (block : Nat) :
    phi.getIncomingValueForBlock block = (phi.getBasicBlockIndex block).bind fun index => phi.incoming[index]?.map Prod.snd := by
  rw [getIncomingValueForBlock, getBasicBlockIndex, blocks, findIdx?_map, find?_eq_bind_findIdx?_getElem?, Option.map_bind]
  rfl

end Incoming

section PhiCleaner

/-- The registers of the copies are new, and what they copy is not. -/
structure Cleaning.Valid (next : Nat) (s : Cleaning V) : Prop where
  bound : next ≤ s.next
  distinct : (s.copies.map Copy.id).Nodup
  fresh : ∀ copy ∈ s.copies, next ≤ copy.id ∧ copy.id < s.next
  values : ∀ copy ∈ s.copies, copy.value.Below next

theorem Cleaning.Valid.copy (valid : s.Valid next) (old : value.Below next) (changed : Bool) :
    Cleaning.Valid next ⟨s.next + 1, s.copies ++ [⟨block, s.next, value⟩], changed⟩ := by
  constructor
  · exact Nat.le_succ_of_le valid.bound
  · rw [map_append, nodup_append]
    refine ⟨valid.distinct, nodup_singleton _, ?_⟩
    intro id before new isNew same
    obtain ⟨copy, member, rfl⟩ := mem_map.mp before
    have bound := (valid.fresh copy member).2
    rw [same, mem_singleton.mp isNew] at bound
    exact Nat.lt_irrefl _ bound
  · intro copy member
    cases mem_append.mp member with
    | inl earlier =>
      obtain ⟨lower, upper⟩ := valid.fresh copy earlier
      exact ⟨lower, Nat.lt_succ_of_lt upper⟩
    | inr new =>
      rw [mem_singleton.mp new]
      exact ⟨valid.bound, Nat.lt_succ_self _⟩
  · intro copy member
    cases mem_append.mp member with
    | inl earlier => exact valid.values copy earlier
    | inr new =>
      rw [mem_singleton.mp new]
      exact old

/-- What a value on the edge from a block becomes: it stays, unless one of the earlier
nodes defines it. -/
inductive Moved (copies : List (Copy V)) (phis : List Nat) (block : Nat) (value : Value V) :
    Value V → Prop where
  | same (notAmong : value.isAmong phis = false) : Moved copies phis block value value
  | copied (tmp : Nat) (member : ⟨block, tmp, value⟩ ∈ copies) :
      Moved copies phis block value (.register tmp)

theorem Moved.mono {further : List (Copy V)} (moved : Moved copies phis block value value')
    (more : copies ⊆ further) : Moved further phis block value value' := by
  cases moved with
  | same notAmong => exact .same notAmong
  | copied tmp member => exact .copied tmp (more member)

theorem copyIncoming_spec (phis : List Nat) (valid : s.Valid next)
    {incoming : List (Nat × Value V)} (old : ∀ entry ∈ incoming, entry.2.Below next) :
    (copyIncoming phis s incoming).1.Valid next ∧
      s.copies ⊆ (copyIncoming phis s incoming).1.copies ∧
      (copyIncoming phis s incoming).2.map Prod.fst = incoming.map Prod.fst ∧
      ∀ entry ∈ (copyIncoming phis s incoming).2, ∃ value, (entry.1, value) ∈ incoming ∧
        Moved (copyIncoming phis s incoming).1.copies phis entry.1 value entry.2 := by
  induction incoming generalizing s with
  | nil => exact ⟨valid, .refl _, rfl, nofun⟩
  | cons head incoming ih =>
    obtain ⟨block, value⟩ := head
    rw [forall_mem_cons] at old
    obtain ⟨oldValue, oldRest⟩ := old
    rw [copyIncoming]
    split
    · obtain ⟨validRest, more, blocks, moved⟩ := ih (valid.copy oldValue true) oldRest
      rw [append_subset] at more
      refine ⟨validRest, more.1, congrArg (List.cons block) blocks, ?_⟩
      intro entry member
      obtain _ | ⟨_, later⟩ := member
      · exact ⟨value, .head _, .copied s.next (more.2 (by simp))⟩
      · obtain ⟨original, isOriginal, isMoved⟩ := moved entry later
        exact ⟨original, .tail _ isOriginal, isMoved⟩
    · rename_i notAmong
      have validSame : Cleaning.Valid next { s with changed := true } :=
        ⟨valid.bound, valid.distinct, valid.fresh, valid.values⟩
      obtain ⟨validRest, more, blocks, moved⟩ := ih validSame oldRest
      refine ⟨validRest, more, congrArg (List.cons block) blocks, ?_⟩
      intro entry member
      obtain _ | ⟨_, later⟩ := member
      · exact ⟨value, .head _, .same (by simpa using notAmong)⟩
      · obtain ⟨original, isOriginal, isMoved⟩ := moved entry later
        exact ⟨original, .tail _ isOriginal, isMoved⟩

theorem PHINode.reorder_spec (perm : pi.blocks.Perm reference.blocks)
    (unambiguous : ∀ block v w, (block, v) ∈ pi.incoming → (block, w) ∈ pi.incoming → v = w) :
    ∃ pi' reordered, reference.reorder pi = some (pi', reordered) ∧ pi'.id = pi.id ∧
      pi'.blocks = reference.blocks ∧
      ∀ entry ∈ pi'.incoming, pi.getIncomingValueForBlock entry.1 = some entry.2 ∧ entry ∈ pi.incoming := by
  rw [reorder]
  split
  · rename_i same
    refine ⟨pi, false, rfl, rfl, same, ?_⟩
    intro entry member
    exact ⟨getIncomingValueForBlock_of_mem (unambiguous entry.1) member, member⟩
  · have values : ∀ blocks : List Nat, blocks ⊆ pi.blocks →
        ∃ values, blocks.mapM pi.getIncomingValueForBlock = some values ∧
          (blocks.zip values).map Prod.fst = blocks ∧
          ∀ entry ∈ blocks.zip values, pi.getIncomingValueForBlock entry.1 = some entry.2 ∧ entry ∈ pi.incoming := by
      intro blocks within
      induction blocks with
      | nil => exact ⟨[], rfl, rfl, nofun⟩
      | cons block blocks ih =>
        rw [cons_subset] at within
        obtain ⟨value, found, member⟩ := exists_getIncomingValueForBlock within.1
        obtain ⟨values, mapped, firsts, related⟩ := ih within.2
        refine ⟨value :: values, by simp [found, mapped], by simp [firsts], ?_⟩
        rw [zip_cons_cons, forall_mem_cons]
        exact ⟨⟨found, member⟩, related⟩
    obtain ⟨values, mapped, firsts, related⟩ := values reference.blocks perm.symm.subset
    rw [mapped]
    exact ⟨{ pi with incoming := reference.blocks.zip values }, true, rfl, rfl, firsts, related⟩

structure CleanedPhi (reference : PHINode V) (copies : List (Copy V)) (phis : List Nat)
    (phi phi' : PHINode V) : Prop where
  id : phi'.id = phi.id
  blocks : phi'.blocks = reference.blocks
  values : ∀ entry ∈ phi'.incoming, ∃ value,
    phi.getIncomingValueForBlock entry.1 = some value ∧ Moved copies phis entry.1 value entry.2

/-- The nodes of a block, behind those with the given registers. -/
inductive CleanedPhis (reference : PHINode V) (copies : List (Copy V)) :
    List Nat → List (PHINode V) → List (PHINode V) → Prop where
  | nil {phis : List Nat} : CleanedPhis reference copies phis [] []
  | cons {phis : List Nat} {phi phi' : PHINode V} {rest rest' : List (PHINode V)}
      (head : CleanedPhi reference copies phis phi phi')
      (tail : CleanedPhis reference copies (phis ++ [phi.id]) rest rest') :
      CleanedPhis reference copies phis (phi :: rest) (phi' :: rest')

theorem CleanedPhis.mono {further : List (Copy V)} {nodes nodes' : List (PHINode V)}
    (cleaned : CleanedPhis reference copies phis nodes nodes') (more : copies ⊆ further) :
    CleanedPhis reference further phis nodes nodes' := by
  induction cleaned with
  | nil => exact .nil
  | cons head tail ih =>
    refine .cons ⟨head.id, head.blocks, ?_⟩ ih
    intro entry member
    obtain ⟨value, found, moved⟩ := head.values entry member
    exact ⟨value, found, moved.mono more⟩

theorem cleanPhis_spec (phis : List Nat) (valid : s.Valid next) {nodes : List (PHINode V)}
    (perm : ∀ pi ∈ nodes, pi.blocks.Perm reference.blocks)
    (unambiguous : ∀ pi ∈ nodes, ∀ block v w,
      (block, v) ∈ pi.incoming → (block, w) ∈ pi.incoming → v = w) (old : ∀ pi ∈ nodes, ∀ entry ∈ pi.incoming, entry.2.Below next) :
    ∃ s' nodes', cleanPhis reference phis s nodes = some (s', nodes') ∧ s'.Valid next ∧
      s.copies ⊆ s'.copies ∧ CleanedPhis reference s'.copies phis nodes nodes' := by
  induction nodes generalizing s phis with
  | nil => exact ⟨s, [], rfl, valid, .refl _, .nil⟩
  | cons pi rest ih =>
    rw [forall_mem_cons] at perm unambiguous old
    have sameLength : reference.incoming.length = pi.incoming.length := by
      have length := perm.1.length_eq
      rw [PHINode.blocks, PHINode.blocks, length_map, length_map] at length
      exact length.symm
    obtain ⟨pi', reordered, isReordered, id, blocks, values⟩ := PHINode.reorder_spec perm.1 unambiguous.1
    have validSame : Cleaning.Valid next { s with changed := s.changed || reordered } :=
      ⟨valid.bound, valid.distinct, valid.fresh, valid.values⟩
    obtain ⟨validCopied, more, sameBlocks, moved⟩ := copyIncoming_spec phis validSame
      fun entry member => old.1 entry (values entry member).2
    obtain ⟨s', rest', isCleaned, valid', more', tail⟩ := ih (phis ++ [pi'.id]) validCopied perm.2 unambiguous.2 old.2
    rw [id] at tail
    refine ⟨s', { pi' with incoming := (copyIncoming phis
        { s with changed := s.changed || reordered } pi'.incoming).2 } :: rest', ?_, valid',
      List.Subset.trans more more', .cons ⟨id, ?_, ?_⟩ tail⟩
    · rw [cleanPhis, if_pos sameLength, isReordered]
      dsimp only [Option.bind_eq_bind, Option.bind_some]
      rw [isCleaned]
      rfl
    · exact sameBlocks.trans blocks
    · intro entry member
      obtain ⟨value, isValue, isMoved⟩ := moved entry member
      exact ⟨value, (values _ isValue).1, isMoved.mono more'⟩

end PhiCleaner

section Edges

variable {nodes nodes' : List (PHINode V)} {state state' : State V M} {dst dst' : BasicBlock V M}

theorem incomingMoves_cons (phi : PHINode V) (rest : List (PHINode V)) (src : Nat) :
    incomingMoves (phi :: rest) src = (phi.getIncomingValueForBlock src).bind fun value =>
      (incomingMoves rest src).map (List.cons ⟨phi.id, fun locals => value.eval locals⟩) := by
  rw [incomingMoves, mapM_cons]
  cases phi.getIncomingValueForBlock src with
  | none => rfl
  | some value =>
    change (incomingMoves rest src >>= fun moves => pure (_ :: moves)) = _
    cases incomingMoves rest src <;> rfl

def MovesTo (next : Nat) (copies : List (Copy V)) (src : Nat) (move move' : Move Nat V) : Prop :=
  move.target = move'.target ∧ ∃ phis value value', Moved copies phis src value value' ∧
    value.Below next ∧ move.value = (fun locals => value.eval locals) ∧
    move'.value = fun locals => value'.eval locals

theorem incomingMoves_spec (cleaned : CleanedPhis reference copies phis nodes nodes')
    (old : ∀ node ∈ nodes, ∀ entry ∈ node.incoming, entry.2.Below next) (member : src ∈ reference.blocks) :
    ∃ moves moves', incomingMoves nodes src = some moves ∧ incomingMoves nodes' src = some moves' ∧
      moves'.map Move.target = nodes.map PHINode.id ∧ List.Forall₂ (MovesTo next copies src) moves moves' := by
  induction cleaned with
  | nil => exact ⟨[], [], rfl, rfl, rfl, .nil⟩
  | @cons phis phi phi' rest rest' head tail ih =>
    rw [forall_mem_cons] at old
    obtain ⟨moves, moves', original, cleaned, targets, related⟩ := ih old.2
    rw [← head.blocks] at member
    obtain ⟨value', found', isIncoming⟩ := PHINode.exists_getIncomingValueForBlock member
    obtain ⟨value, found, moved⟩ := head.values _ isIncoming
    refine ⟨⟨phi.id, fun locals => value.eval locals⟩ :: moves,
      ⟨phi'.id, fun locals => value'.eval locals⟩ :: moves', ?_, ?_, ?_, .cons ?_ related⟩
    · rw [incomingMoves_cons, found, original]
      rfl
    · rw [incomingMoves_cons, found', cleaned]
      rfl
    · rw [map_cons, map_cons, targets, head.id]
    · exact ⟨head.id.symm, phis, value, value', moved, old.1 _ (PHINode.mem_of_getIncomingValueForBlock found), rfl, rfl⟩

theorem moves_independent (cleaned : CleanedPhis reference copies phis nodes nodes')
    (fresh : ∀ copy ∈ copies, next ≤ copy.id) (old : ∀ id ∈ phis, id < next)
    (oldNodes : ∀ node ∈ nodes, node.id < next) {moves : List (Move Nat V)} (isMoves : incomingMoves nodes' src = some moves) :
    (∀ move ∈ moves, ∀ id ∈ phis, move.Ignores id) ∧ moves.Pairwise fun earlier later => later.Ignores earlier.target := by
  induction cleaned generalizing moves with
  | nil =>
    cases isMoves
    exact ⟨nofun, .nil⟩
  | @cons phis phi phi' rest rest' head tail ih =>
    rw [forall_mem_cons] at oldNodes
    rw [incomingMoves_cons, Option.bind_eq_some_iff] at isMoves
    obtain ⟨value', found, isMoves⟩ := isMoves
    obtain ⟨later, isLater, rfl⟩ := Option.map_eq_some_iff.mp isMoves
    have oldPhis : ∀ id ∈ phis ++ [phi.id], id < next := by
      intro id member
      cases mem_append.mp member with
      | inl earlier => exact old id earlier
      | inr new => exact mem_singleton.mp new ▸ oldNodes.1
    obtain ⟨ignores, independent⟩ := ih oldPhis oldNodes.2 isLater
    have headIgnores (id : Nat) (member : id ∈ phis) : Move.Ignores ⟨phi'.id, fun locals => value'.eval locals⟩ id := by
      intro locals a
      obtain ⟨value, -, moved⟩ := head.values _ (PHINode.mem_of_getIncomingValueForBlock found)
      cases moved with
      | same notAmong =>
        cases value' with
        | constant _ => rfl
        | register register =>
          have different : register ≠ id := by
            intro same
            rw [Value.isAmong, same, contains_iff_mem.mpr member] at notAmong
            contradiction
          exact Function.update_of_ne different _ _
      | copied tmp isCopy =>
        have bound := fresh _ isCopy
        have older := old id member
        exact Function.update_of_ne (by dsimp only at bound; omega) _ _
    constructor
    · rw [forall_mem_cons]
      exact ⟨headIgnores, fun move member id isOld => ignores move member id (by simp [isOld])⟩
    · refine .cons ?_ independent
      intro move member
      rw [head.id]
      exact ignores move member phi.id (by simp)

theorem executePhi_eq (index : state.incomingBBIndex = phi.getBasicBlockIndex src) :
    executePhi state phi = (phi.getIncomingValueForBlock src).map fun value =>
      { state with locals := Function.update state.locals phi.id (value.eval state.locals) } := by
  rw [executePhi, index, phi.getIncomingValueForBlock_eq]
  cases phi.getBasicBlockIndex src with
  | none => rfl
  | some index =>
    cases found : phi.incoming[index]? with
    | none => simp [found]
    | some entry => simp [found]

theorem executePhis_eq (index : ∀ phi ∈ nodes, state.incomingBBIndex = phi.getBasicBlockIndex src) :
    nodes.foldlM executePhi state = (incomingMoves nodes src).map fun moves =>
      { state with locals := Move.sequential state.locals moves } := by
  induction nodes generalizing state with
  | nil => rfl
  | cons phi rest ih =>
    rw [forall_mem_cons] at index
    rw [foldlM_cons, executePhi_eq index.1, incomingMoves_cons]
    cases phi.getIncomingValueForBlock src with
    | none => rfl
    | some value =>
      dsimp only [Option.map_some, Option.bind_eq_bind, Option.bind_some]
      have later (locals : Nat → V) : rest.foldlM executePhi { state with locals := locals } =
          (incomingMoves rest src).map fun moves =>
            { state with locals := Move.sequential locals moves } :=
        ih index.2
      rw [later, Option.map_map]
      rfl

structure CleanedBlock (copies : List (Copy V)) (b b' : BasicBlock V M) : Prop where
  name : b'.name = b.name
  operands : b'.operands = b.operands
  successors : b'.successors = b.successors
  branch : b'.branch = b.branch
  body : b'.body = b.body ++
    (copies.filter fun copy => copy.block = b.name).map fun copy => .bitCast copy.id copy.value
  phis : ∃ reference, CleanedPhis reference copies [] b.phis b'.phis ∧
    ∀ phi ∈ b.phis, phi.blocks ⊆ reference.blocks

theorem CleanedPhis.blocks (cleaned : CleanedPhis reference copies phis nodes nodes') :
    ∀ phi' ∈ nodes', phi'.blocks = reference.blocks := by
  induction cleaned with
  | nil => exact nofun
  | cons head _ ih =>
    rw [forall_mem_cons]
    exact ⟨head.blocks, ih⟩

theorem CleanedPhis.eq_nil (cleaned : CleanedPhis reference copies phis [] nodes') : nodes' = [] := by
  cases cleaned
  rfl

theorem enter_eq (cleaned : CleanedPhis reference copies [] nodes dst'.phis)
    (fresh : ∀ copy ∈ copies, next ≤ copy.id) (old : ∀ node ∈ nodes, node.id < next)
    (distinct : (nodes.map PHINode.id).Nodup) {moves : List (Move Nat V)} (isMoves : incomingMoves dst'.phis src = some moves)
    (targets : moves.map Move.target = nodes.map PHINode.id) :
    enter dst' src state = some { transferToBasicBlock dst' src state with
      locals := Move.simultaneous state.locals moves } := by
  obtain ⟨-, independent⟩ := moves_independent cleaned fresh nofun old isMoves
  have distinctTargets : (moves.map Move.target).Nodup := targets ▸ distinct
  have index : ∀ phi ∈ dst'.phis, (transferToBasicBlock dst' src state).incomingBBIndex = phi.getBasicBlockIndex src := by
    rw [transferToBasicBlock]
    cases isFirst : dst'.phis with
    | nil => exact nofun
    | cons first rest =>
      intro phi isPhi
      have blocks := cleaned.blocks
      rw [isFirst] at blocks
      dsimp only
      rw [PHINode.getBasicBlockIndex, PHINode.getBasicBlockIndex, blocks first (by simp), blocks phi isPhi]
  have locals : (transferToBasicBlock dst' src state).locals = state.locals := by
    rw [transferToBasicBlock]
    cases dst'.phis <;> rfl
  rw [enter, executePhis_eq index, isMoves, locals, Option.map_some, Move.sequential_eq_simultaneous distinctTargets independent]

end Edges

section Runs

variable {state state' : State V M} {b b' dst dst' : BasicBlock V M} {f f' : Function V M}

/-- The states differ in the registers of copies and in the incoming index only. -/
structure Agrees (next : Nat) (state state' : State V M) : Prop where
  block : state.block = state'.block
  memory : state.memory = state'.memory
  locals : ∀ id < next, state.locals id = state'.locals id

theorem Agrees.refl (state : State V M) : Agrees next state state :=
  ⟨rfl, rfl, fun _ _ => rfl⟩

theorem Agrees.trans {state'' : State V M} {later : Nat} (first : Agrees next state state')
    (second : Agrees later state' state'') (grows : next ≤ later) : Agrees next state state'' where
  block := first.block.trans second.block
  memory := first.memory.trans second.memory
  locals id old := (first.locals id old).trans (second.locals id (Nat.lt_of_lt_of_le old grows))

theorem Value.eval_agrees (old : value.Below next) (agrees : Agrees next state state') :
    value.eval state.locals = value.eval state'.locals := by
  cases value with
  | constant _ => rfl
  | register id => exact agrees.locals id old

theorem Value.map_eval_agrees {values : List (Value V)} (old : ∀ value ∈ values, value.Below next)
    (agrees : Agrees next state state') : values.map (Value.eval state.locals) = values.map (Value.eval state'.locals) :=
  map_congr_left fun value member => Value.eval_agrees (old value member) agrees

theorem Agrees.update (agrees : Agrees next state state') (id : Nat) (a : V) (memory : M) :
    Agrees next { state with locals := Function.update state.locals id a, memory := memory }
      { state' with locals := Function.update state'.locals id a, memory := memory } := by
  refine ⟨agrees.block, rfl, ?_⟩
  intro other old
  simp only [Function.update_apply, agrees.locals other old]

theorem Instruction.execute_agrees {instruction : Instruction V M} (old : instruction.Below next)
    (agrees : Agrees next state state') : Agrees next (instruction.execute state) (instruction.execute state') := by
  cases instruction with
  | bitCast id value =>
    have updated := agrees.update id (value.eval state.locals) state.memory
    rw [execute, execute, ← Value.eval_agrees old.2 agrees]
    exact ⟨updated.block, agrees.memory, updated.locals⟩
  | other id operands compute =>
    rw [execute, execute, ← Value.map_eval_agrees old.2 agrees, ← agrees.memory]
    cases id with
    | none => exact ⟨agrees.block, rfl, agrees.locals⟩
    | some id => exact agrees.update id _ _

theorem body_agrees {body : List (Instruction V M)} (old : ∀ i ∈ body, i.Below next) (agrees : Agrees next state state') :
    Agrees next (body.foldl execute state) (body.foldl execute state') := by
  induction body generalizing state state' with
  | nil => exact agrees
  | cons instruction body ih =>
    rw [forall_mem_cons] at old
    exact ih old.2 (execute_agrees old.1 agrees)

theorem copies_eq (made : List (Copy V)) (state : State V M) :
    (made.map fun copy => Instruction.bitCast copy.id copy.value).foldl execute state =
      { state with
        locals := Move.sequential state.locals (made.map fun copy => ⟨copy.id, fun locals => copy.value.eval locals⟩) } := by
  induction made generalizing state with
  | nil => rfl
  | cons copy made ih => exact ih _

theorem copies_spec (made : List (Copy V)) (distinct : (made.map Copy.id).Nodup)
    (fresh : ∀ copy ∈ made, next ≤ copy.id) (old : ∀ copy ∈ made, copy.value.Below next) (state : State V M) :
    ∃ locals, (made.map fun copy => Instruction.bitCast copy.id copy.value).foldl execute state = { state with locals := locals } ∧
      (∀ id < next, locals id = state.locals id) ∧
      ∀ copy ∈ made, locals copy.id = copy.value.eval state.locals := by
  have targets : (made.map fun copy => (⟨copy.id, fun locals => copy.value.eval locals⟩ :
      Move Nat V)).map Move.target = made.map Copy.id := by
    rw [map_map]
    rfl
  have independent : (made.map fun copy => (⟨copy.id, fun locals => copy.value.eval locals⟩ :
      Move Nat V)).Pairwise fun earlier later => later.Ignores earlier.target := by
    rw [pairwise_map]
    apply pairwise_of_forall_mem_list
    intro earlier isEarlier later isLater locals a
    cases isValue : later.value with
    | constant _ => rfl
    | register id =>
      have isOld := old later isLater
      rw [isValue] at isOld
      have different : id ≠ earlier.id := Nat.ne_of_lt (Nat.lt_of_lt_of_le isOld (fresh earlier isEarlier))
      exact Function.update_of_ne different _ _
  refine ⟨_, copies_eq made state, ?_, ?_⟩
  · intro id isOld
    rw [Move.sequential_eq_simultaneous (targets ▸ distinct) independent]
    apply Move.simultaneous_of_forall_ne
    intro move member
    obtain ⟨copy, isCopy, rfl⟩ := mem_map.mp member
    have bound := fresh copy isCopy
    dsimp only
    omega
  · intro copy isCopy
    rw [Move.sequential_eq_simultaneous (targets ▸ distinct) independent]
    have member : (⟨copy.id, fun locals => copy.value.eval locals⟩ : Move Nat V) ∈
        made.map fun copy => ⟨copy.id, fun locals => copy.value.eval locals⟩ :=
      mem_map_of_mem isCopy
    exact Move.simultaneous_of_mem (targets ▸ distinct) member

/-- What is known of the PHI nodes of a block and of the edges into it. -/
structure Enterable (next : Nat) (dst : BasicBlock V M) : Prop where
  consistent : Consistent dst.phis
  old : ∀ phi ∈ dst.phis, phi.id < next ∧ ∀ entry ∈ phi.incoming, entry.2.Below next

theorem CleanedBlock.moves (cleaned : CleanedBlock copies dst dst') (enterable : Enterable next dst)
    (incoming : ∀ phi ∈ dst.phis, src ∈ phi.blocks) :
    ∃ moves moves', incomingMoves dst.phis src = some moves ∧
      incomingMoves dst'.phis src = some moves' ∧ moves'.map Move.target = dst.phis.map PHINode.id ∧
      List.Forall₂ (MovesTo next copies src) moves moves' := by
  obtain ⟨reference, cleanedPhis, within⟩ := cleaned.phis
  cases isNodes : dst.phis with
  | nil =>
    rw [isNodes] at cleanedPhis
    rw [cleanedPhis.eq_nil]
    exact ⟨[], [], rfl, rfl, rfl, .nil⟩
  | cons first rest =>
    rw [← isNodes]
    have isFirst : first ∈ dst.phis := by simp [isNodes]
    exact incomingMoves_spec cleanedPhis (fun phi member => (enterable.old phi member).2) (within first isFirst (incoming first isFirst))

theorem enter_agrees (cleaned : CleanedBlock copies dst dst') (fresh : ∀ copy ∈ copies, next ≤ copy.id)
    (enterable : Enterable next dst) (incoming : ∀ phi ∈ dst.phis, src ∈ phi.blocks) (agrees : Agrees next state state')
    (copied : ∀ copy ∈ copies, copy.block = src →
      state'.locals copy.id = copy.value.eval state.locals) :
    ∃ after after', enterSimultaneously dst src state = some after ∧ enter dst' src state' = some after' ∧ Agrees next after after' := by
  obtain ⟨reference, cleanedPhis, -⟩ := cleaned.phis
  obtain ⟨moves, moves', isMoves, isMoves', targets, related⟩ := cleaned.moves enterable incoming
  have transfers : (transferToBasicBlock dst' src state').block = dst'.name ∧
      (transferToBasicBlock dst' src state').memory = state'.memory := by
    rw [transferToBasicBlock]
    cases dst'.phis <;> exact ⟨rfl, rfl⟩
  obtain ⟨block, memory⟩ := transfers
  have entered : enter dst' src state' = some { transferToBasicBlock dst' src state' with
      locals := Move.simultaneous state'.locals moves' } :=
    enter_eq cleanedPhis fresh (fun phi member => (enterable.old phi member).1) enterable.consistent.distinct isMoves' targets
  refine ⟨_, _, by rw [enterSimultaneously, isMoves]; rfl, entered, ?_⟩
  refine ⟨(block.trans cleaned.name).symm, agrees.memory.trans memory.symm, ?_⟩
  intro id old
  apply Move.simultaneous_congr _ (agrees.locals id old)
  apply related.imp
  intro move move' movesTo
  obtain ⟨target, phis, value, value', moved, oldValue, isValue, isValue'⟩ := movesTo
  refine ⟨target, ?_⟩
  rw [isValue, isValue']
  cases moved with
  | same _ => exact Value.eval_agrees oldValue agrees
  | copied tmp isCopy => exact (copied _ isCopy rfl).symm

theorem body_spec (cleaned : CleanedBlock copies b b') (valid : s.Valid next)
    (sameCopies : s.copies = copies) (old : ∀ i ∈ b.body, i.Below next) (agrees : Agrees next state state') :
    Agrees next (b.body.foldl execute state) (b'.body.foldl execute state') ∧
      ∀ copy ∈ copies, copy.block = b.name →
        (b'.body.foldl execute state').locals copy.id = copy.value.eval (b.body.foldl execute state).locals := by
  subst sameCopies
  have before := body_agrees old agrees
  have sublist : (s.copies.filter fun copy => copy.block = b.name).Sublist s.copies := filter_sublist
  have isCopy {copy : Copy V} (member : copy ∈ s.copies.filter fun copy => copy.block = b.name) : copy ∈ s.copies := sublist.subset member
  obtain ⟨locals, executed, same, copied⟩ := copies_spec
    (s.copies.filter fun copy => copy.block = b.name) (valid.distinct.sublist (sublist.map Copy.id))
    (fun copy member => (valid.fresh copy (isCopy member)).1)
    (fun copy member => valid.values copy (isCopy member)) (b.body.foldl execute state')
  rw [cleaned.body, foldl_append, executed]
  constructor
  · exact ⟨before.block, before.memory, fun id isOld => (before.locals id isOld).trans (same id isOld).symm⟩
  · intro copy member here
    rw [Value.eval_agrees (valid.values copy member) before]
    exact copied copy (mem_filter.mpr ⟨member, by simp [here]⟩)

end Runs

section Function

variable {b : BasicBlock V M} {f f' : Function V M}

theorem cleanBlock_spec (valid : s.Valid next) (consistent : Consistent b.phis)
    (old : ∀ phi ∈ b.phis, ∀ entry ∈ phi.incoming, entry.2.Below next) :
    ∃ s' b', cleanBlock s b = some (s', b') ∧ s'.Valid next ∧ s.copies ⊆ s'.copies ∧ b' = { b with phis := b'.phis } ∧
      ∃ reference, CleanedPhis reference s'.copies [] b.phis b'.phis ∧ ∀ phi ∈ b.phis, phi.blocks ⊆ reference.blocks := by
  rw [cleanBlock]
  cases isNodes : b.phis with
  | nil =>
    refine ⟨s, b, rfl, valid, .refl _, rfl, ⟨0, []⟩, ?_, nofun⟩
    rw [isNodes]
    exact .nil
  | cons reference rest =>
    have isReference : reference ∈ b.phis := by simp [isNodes]
    have isNode (phi : PHINode V) (member : phi ∈ rest) : phi ∈ b.phis := by simp [isNodes, member]
    obtain ⟨s', rest', isCleaned, valid', more, cleaned⟩ := cleanPhis_spec [reference.id] valid
      (fun phi member => consistent.blocks phi (isNode phi member) reference isReference)
      (fun phi member => consistent.unambiguous phi (isNode phi member))
      (fun phi member => old phi (isNode phi member))
    refine ⟨s', { b with phis := reference :: rest' }, ?_, valid', more, rfl, reference,
      .cons ⟨rfl, rfl, ?_⟩ cleaned, ?_⟩
    · dsimp only
      rw [isCleaned]
      rfl
    · intro entry member
      refine ⟨entry.2, PHINode.getIncomingValueForBlock_of_mem (consistent.unambiguous reference isReference entry.1) member, .same ?_⟩
      cases entry.2 <;> rfl
    · intro phi member
      rw [← isNodes] at member
      exact (consistent.blocks phi member reference isReference).subset

theorem cleanBlocks_spec (valid : s.Valid next) {blocks : List (BasicBlock V M)} (enterable : ∀ b ∈ blocks, Enterable next b) :
    ∃ s' blocks', cleanBlocks s blocks = some (s', blocks') ∧ s'.Valid next ∧ s.copies ⊆ s'.copies ∧
      List.Forall₂ (fun b b' => b' = { b with phis := b'.phis } ∧
        ∃ reference, CleanedPhis reference s'.copies [] b.phis b'.phis ∧
          ∀ phi ∈ b.phis, phi.blocks ⊆ reference.blocks) blocks blocks' := by
  induction blocks generalizing s with
  | nil => exact ⟨s, [], rfl, valid, .refl _, .nil⟩
  | cons b blocks ih =>
    rw [forall_mem_cons] at enterable
    obtain ⟨s', b', isBlock, valid', more, rest, reference, cleaned, within⟩ :=
      cleanBlock_spec valid enterable.1.consistent fun phi member => (enterable.1.old phi member).2
    obtain ⟨s'', blocks', isBlocks, valid'', more', related⟩ := ih valid' enterable.2
    refine ⟨s'', b' :: blocks', ?_, valid'', List.Subset.trans more more', .cons ⟨rest, reference, cleaned.mono more', within⟩ related⟩
    rw [cleanBlocks, isBlock]
    dsimp only [Option.bind_eq_bind, Option.bind_some]
    rw [isBlocks]
    rfl

theorem Function.WellFormed.enterable (wellFormed : f.WellFormed) : ∀ b ∈ f.blocks, Enterable f.next b :=
  fun b member => ⟨wellFormed.consistent b member, wellFormed.phis b member⟩

theorem runOnFunction_spec (wellFormed : f.WellFormed) :
    ∃ s changed f', runOnFunction f = some (changed, f') ∧ Cleaning.Valid f.next s ∧
      List.Forall₂ (CleanedBlock s.copies) f.blocks f'.blocks := by
  have start : Cleaning.Valid f.next (⟨f.next, [], false⟩ : Cleaning V) := ⟨Nat.le_refl _, .nil, nofun, nofun⟩
  obtain ⟨s, blocks, isCleaned, valid, -, related⟩ := cleanBlocks_spec start wellFormed.enterable
  refine ⟨s, s.changed, ⟨blocks.map (BasicBlock.withCopies s.copies), s.next⟩, ?_, valid, ?_⟩
  · rw [runOnFunction, isCleaned]
    rfl
  · rw [forall₂_map_right_iff]
    apply related.imp
    intro b b' facts
    obtain ⟨rest, phis⟩ := facts
    rw [rest]
    exact ⟨rfl, rfl, rfl, rfl, rfl, phis⟩

theorem block?_spec (related : List.Forall₂ (CleanedBlock copies) f.blocks f'.blocks) (name : Nat) :
    Option.Rel (fun b b' => CleanedBlock copies b b' ∧ b ∈ f.blocks ∧ b.name = name) (f.block? name) (f'.block? name) := by
  have located : ∀ blocks blocks' : List (BasicBlock V M), List.Forall₂ (CleanedBlock copies) blocks blocks' → blocks ⊆ f.blocks →
      Option.Rel (fun b b' => CleanedBlock copies b b' ∧ b ∈ f.blocks ∧ b.name = name)
        (blocks.find? fun b => b.name = name) (blocks'.find? fun b => b.name = name) := by
    intro blocks blocks' related within
    induction related with
    | nil => exact .none
    | @cons b b' blocks blocks' cleaned _ ih =>
      rw [cons_subset] at within
      rw [find?_cons, find?_cons, cleaned.name]
      by_cases same : b.name = name
      · simp only [same, decide_true]
        exact .some ⟨cleaned, within.1, same⟩
      · simp only [same, decide_false]
        exact ih within.2
  exact located f.blocks f'.blocks related (.refl _)

end Function

section Simulation

variable {f f' : Function V M} {state state' : State V M}

theorem rel_bind {α β γ δ : Type} {related : α → β → Prop} {result : γ → δ → Prop}
    {x : Option α} {y : Option β} {next : α → Option γ} {next' : β → Option δ} (first : Option.Rel related x y)
    (later : ∀ a b, related a b → Option.Rel result (next a) (next' b)) : Option.Rel result (x >>= next) (y >>= next') := by
  cases first with
  | none => exact .none
  | some isRelated => exact later _ _ isRelated

theorem rel_bind_same {α γ δ : Type} {result : γ → δ → Prop} {x : Option α} {next : α → Option γ} {next' : α → Option δ}
    (later : ∀ a, x = some a → Option.Rel result (next a) (next' a)) : Option.Rel result (x >>= next) (x >>= next') := by
  cases x with
  | none => exact .none
  | some a => exact later a rfl

section

variable (wellFormed : f.WellFormed) (valid : s.Valid f.next)
  (related : List.Forall₂ (CleanedBlock s.copies) f.blocks f'.blocks)
include wellFormed valid related

theorem step_agrees (agrees : Agrees f.next state state') :
    Option.Rel (Agrees f.next) (step f enterSimultaneously state) (step f' enter state') := by
  rw [step, step, ← agrees.block]
  apply rel_bind (block?_spec related state.block)
  intro b b' facts
  obtain ⟨cleaned, member, -⟩ := facts
  obtain ⟨agreesEnd, copied⟩ := body_spec cleaned valid rfl (wellFormed.body b member) agrees
  dsimp only
  rw [cleaned.branch, cleaned.operands, cleaned.successors, cleaned.name,
    ← Value.map_eval_agrees (wellFormed.operands b member) agreesEnd, ← agreesEnd.memory]
  apply rel_bind_same
  intro number _
  apply rel_bind_same
  intro successor isSuccessor
  apply rel_bind (block?_spec related successor)
  intro dst dst' facts
  obtain ⟨cleanedDst, memberDst, isName⟩ := facts
  have edge : dst.name ∈ b.successors := isName ▸ mem_of_getElem? isSuccessor
  obtain ⟨after, after', entered, entered', agreesAfter⟩ := enter_agrees cleanedDst
    (fun copy isCopy => (valid.fresh copy isCopy).1) (wellFormed.enterable dst memberDst)
    (wellFormed.incoming b member dst memberDst edge) agreesEnd copied
  rw [entered, entered']
  exact .some agreesAfter

theorem run_agrees (n : Nat) (agrees : Agrees f.next state state') :
    Option.Rel (Agrees f.next) (run f enterSimultaneously n state) (run f' enter n state') := by
  induction n generalizing state state' with
  | zero => exact .some agrees
  | succ n ih =>
    apply rel_bind (step_agrees wellFormed valid related agrees)
    exact fun _ _ => ih

end

theorem exists_of_mem_right {α β : Type} {related : α → β → Prop} {xs : List α} {ys : List β}
    (all : List.Forall₂ related xs ys) {y : β} (member : y ∈ ys) : ∃ x ∈ xs, related x y := by
  induction all with
  | nil => cases member
  | @cons x y' xs ys head _ ih =>
    obtain _ | ⟨_, later⟩ := member
    · exact ⟨x, by simp, head⟩
    · obtain ⟨x, isMember, isRelated⟩ := ih later
      exact ⟨x, by simp [isMember], isRelated⟩

/-- After the pass the PHI nodes of a block can be executed one after the other, with
the index that the first of them gives, as if they were executed at once; and so the
interpreter runs the cleaned function like LLVM the original one. -/
theorem phis_execute_simultaneously (f : Function V M) (wellFormed : f.WellFormed) :
    ∃ changed f', runOnFunction f = some (changed, f') ∧
      (∀ src ∈ f'.blocks, ∀ dst ∈ f'.blocks, dst.name ∈ src.successors → ∀ state : State V M,
        ∃ after simultaneous, enter dst src.name state = some after ∧
          enterSimultaneously dst src.name state = some simultaneous ∧
          after.locals = simultaneous.locals) ∧
      ∀ (n : Nat) (state state' : State V M), Agrees f.next state state' →
        Option.Rel (Agrees f.next) (run f enterSimultaneously n state) (run f' enter n state') := by
  obtain ⟨s, changed, f', isCleaned, valid, related⟩ := runOnFunction_spec wellFormed
  refine ⟨changed, f', isCleaned, ?_, fun n state state' => run_agrees wellFormed valid related n⟩
  intro src' isSrc dst' isDst edge state
  obtain ⟨src, isOriginal, cleanedSrc⟩ := exists_of_mem_right related isSrc
  obtain ⟨dst, isOriginalDst, cleanedDst⟩ := exists_of_mem_right related isDst
  rw [cleanedDst.name, cleanedSrc.successors] at edge
  obtain ⟨reference, cleanedPhis, -⟩ := cleanedDst.phis
  have enterable := wellFormed.enterable dst isOriginalDst
  obtain ⟨-, moves, -, isMoves, targets, -⟩ := cleanedDst.moves enterable
    (wellFormed.incoming src isOriginal dst isOriginalDst edge)
  rw [cleanedSrc.name, enterSimultaneously, isMoves]
  exact ⟨_, _, enter_eq cleanedPhis (fun copy isCopy => (valid.fresh copy isCopy).1)
    (fun phi member => (enterable.old phi member).1) enterable.consistent.distinct isMoves targets,
    rfl, rfl⟩

/-- A loop that swaps two registers, whose nodes list the blocks in different orders. -/
def swapping : Function Nat Unit where
  blocks :=
    [⟨0, [], [], [], [1], fun _ _ => some 0⟩,
      ⟨1, [⟨0, [(0, .constant 5), (1, .register 1)]⟩, ⟨1, [(1, .register 0), (0, .constant 7)]⟩],
        [], [], [1], fun _ _ => some 0⟩]
  next := 2

theorem swapping_wellFormed : swapping.WellFormed := by
  have blocks (b : BasicBlock Nat Unit) (member : b ∈ swapping.blocks) : b.body = [] ∧ b.operands = [] := by
    obtain _ | ⟨_, _ | ⟨_, _ | _⟩⟩ := member <;> exact ⟨rfl, rfl⟩
  constructor
  · decide
  · intro b member
    obtain _ | ⟨_, _ | ⟨_, _ | _⟩⟩ := member
    · exact ⟨.nil, nofun, nofun⟩
    · refine ⟨by decide, ?_, ?_⟩
      · intro phi isPhi psi isPsi
        obtain _ | ⟨_, _ | ⟨_, _ | _⟩⟩ := isPhi <;> obtain _ | ⟨_, _ | ⟨_, _ | _⟩⟩ := isPsi <;> decide
      · intro phi isPhi block v w isV isW
        obtain _ | ⟨_, _ | ⟨_, _ | _⟩⟩ := isPhi <;> simp at isV isW <;> aesop
  · intro src isSrc dst isDst _ phi isPhi
    obtain _ | ⟨_, _ | ⟨_, _ | _⟩⟩ := isDst <;> obtain _ | ⟨_, _ | ⟨_, _ | _⟩⟩ := isPhi <;>
      obtain _ | ⟨_, _ | ⟨_, _ | _⟩⟩ := isSrc <;> decide
  · intro b member phi isPhi
    obtain _ | ⟨_, _ | ⟨_, _ | _⟩⟩ := member <;> obtain _ | ⟨_, _ | ⟨_, _ | _⟩⟩ := isPhi <;>
      simp [swapping, Value.Below]
  · intro b member instruction isInstruction
    rw [(blocks b member).1] at isInstruction
    cases isInstruction
  · intro b member value isValue
    rw [(blocks b member).2] at isValue
    cases isValue

theorem phis_execute_simultaneously_sample :
    ∃ changed f', runOnFunction swapping = some (changed, f') ∧
      Option.Rel (Agrees 2) (run swapping enterSimultaneously 3 ⟨0, none, fun _ => 0, ()⟩)
        (run f' enter 3 ⟨0, none, fun _ => 0, ()⟩) := by
  obtain ⟨changed, f', isCleaned, -, runs⟩ :=
    phis_execute_simultaneously swapping swapping_wellFormed
  exact ⟨changed, f', isCleaned, runs 3 _ _ ⟨rfl, rfl, fun _ _ => rfl⟩⟩

example : ((runOnFunction swapping).bind fun cleaned =>
    (run cleaned.2 enter 2 ⟨0, none, fun _ => 0, ()⟩).map fun state =>
      (state.locals 0, state.locals 1)) = some (7, 5) := rfl

end Simulation

end NeuroMerge.Module
