import NeuroMerge.Module.LowerSwitchProperties

/-!
# The lowered function refines the original one

A step of the original function is one or more steps of the lowered one, through blocks
that the original function does not have.
-/

namespace NeuroMerge.Module.LowerSwitch

open List Instruction Terminator

variable {V M : Type} {next : Nat} {s s' t : State V M} {f f' f'' : Function V M}
  {b b' dst node b₀ : BasicBlock V M} {terminator before : Terminator V M} {target src : Nat}

variable {phis : List (PHINode V)} {moves : List (Move Nat V)}

section Entering

theorem exists_incomingMoves (entries : ∀ phi ∈ phis, src ∈ phi.blocks) : ∃ moves, incomingMoves phis src = some moves := by
  induction phis with
  | nil => exact ⟨[], rfl⟩
  | cons phi phis ih =>
    rw [forall_mem_cons] at entries
    obtain ⟨moves, rest⟩ := ih entries.2
    obtain ⟨value, found, -⟩ := PHINode.exists_getIncomingValueForBlock entries.1
    rw [incomingMoves_cons, found, rest]
    exact ⟨_, rfl⟩

theorem incomingMoves_congr {phis' : List (PHINode V)} {src' : Nat}
    (related : List.Forall₂ (fun phi phi' => phi'.id = phi.id ∧
      phi'.getIncomingValueForBlock src' = phi.getIncomingValueForBlock src) phis phis') :
    incomingMoves phis' src' = incomingMoves phis src := by
  induction related with
  | nil => rfl
  | cons same _ ih => rw [incomingMoves_cons, incomingMoves_cons, same.1, same.2, ih]

theorem mem_incomingMoves (isMoves : incomingMoves phis src = some moves) {move : Move Nat V} (member : move ∈ moves) :
    ∃ phi ∈ phis, ∃ entry ∈ phi.incoming, move.value = fun locals => entry.2.eval locals := by
  induction phis generalizing moves with
  | nil =>
    cases Option.some.inj isMoves
    cases member
  | cons phi phis ih =>
    rw [incomingMoves_cons] at isMoves
    obtain ⟨value, found, isMoves⟩ := Option.bind_eq_some_iff.mp isMoves
    obtain ⟨rest, isRest, rfl⟩ := Option.map_eq_some_iff.mp isMoves
    cases member with
    | head =>
      have entry := PHINode.mem_of_getIncomingValueForBlock found
      exact ⟨phi, by simp, (src, value), entry, rfl⟩
    | tail _ later =>
      obtain ⟨other, isPhi, rest⟩ := ih isRest later
      exact ⟨other, by simp [isPhi], rest⟩

def arrive (s : State V M) (block : Nat) (moves : List (Move Nat V)) : State V M :=
  { s with block := block, locals := Move.simultaneous s.locals moves }

theorem arrive_agrees (agrees : Agrees next s s') (below : b.Below next)
    (isMoves : incomingMoves b.phis src = some moves) (block : Nat) : Agrees next (arrive s block moves) (arrive s' block moves) := by
  refine ⟨rfl, agrees.memory, fun id old => ?_⟩
  rw [arrive, arrive]
  dsimp only [Move.simultaneous]
  cases found : moves.find? fun move => move.target = id with
  | none => exact agrees.locals id old
  | some move =>
    obtain ⟨phi, isPhi, entry, isEntry, value⟩ := mem_incomingMoves isMoves (mem_of_find?_eq_some found)
    simp only [value]
    exact Value.eval_agrees ((below.phis phi isPhi).2 entry isEntry) agrees

end Entering

section Steps

variable [DecidableEq V] {booleans : Booleans V}

theorem Terminator.target_mem {dst : Nat} (goes : terminator.target booleans s = some dst) : dst ∈ terminator.successors := by
  cases terminator with
  | switch condition cases defaultDest =>
    cases Option.some.inj goes
    cases found : cases.lookup (condition.eval s.locals) with
    | none => exact mem_cons_self
    | some bb =>
      obtain ⟨before, after, split, -⟩ := lookup_eq_some_iff.mp found
      simp [Terminator.successors, split]
  | br dest =>
    cases Option.some.inj goes
    exact mem_singleton_self _
  | condBr condition ifTrue ifFalse =>
    cases Option.some.inj goes
    split <;> simp [Terminator.successors]
  | other operands successors branch =>
    obtain ⟨number, -, found⟩ := Option.bind_eq_some_iff.mp goes
    exact mem_of_getElem? found

theorem Terminator.target_agrees (below : terminator.Below next) (agrees : Agrees next s s') :
    terminator.target booleans s' = terminator.target booleans s := by
  cases terminator with
  | switch condition cases defaultDest =>
    rw [Terminator.target, Terminator.target, Value.eval_agrees below agrees]
  | br dest => rfl
  | condBr condition ifTrue ifFalse =>
    rw [Terminator.target, Terminator.target, Value.eval_agrees below agrees]
  | other operands successors branch =>
    rw [Terminator.target, Terminator.target, Value.map_eval_agrees below agrees, agrees.memory]

theorem Function.WellFormed.step_none (wellFormed : f.WellFormed) (member : b ∈ f.blocks) (here : s.block = b.name)
    (leaves : b.terminator.target booleans (b.body.foldl execute s) = none) : step booleans f s = none := by
  rw [step, here, (Function.block?_eq_some wellFormed.names).mpr ⟨member, rfl⟩]
  dsimp only [Option.bind_eq_bind, Option.bind_some]
  rw [leaves]
  rfl

theorem Function.WellFormed.step_some (wellFormed : f.WellFormed) (member : b ∈ f.blocks)
    (here : s.block = b.name) {target : Nat} (goes : b.terminator.target booleans (b.body.foldl execute s) = some target) :
    ∃ dst ∈ f.blocks, dst.name = target ∧ ∃ moves, incomingMoves dst.phis b.name = some moves ∧
      step booleans f s = some (arrive (b.body.foldl execute s) target moves) := by
  have isSuccessor := target_mem goes
  obtain ⟨dst, memberDst, rfl⟩ := wellFormed.closed b member target isSuccessor
  have entries : ∀ phi ∈ dst.phis, b.name ∈ phi.blocks := by
    intro phi isPhi
    rw [← count_pos_iff, wellFormed.entries dst memberDst phi isPhi, Function.edges_of_mem wellFormed.names member]
    exact List.count_pos_iff.mpr isSuccessor
  obtain ⟨moves, isMoves⟩ := exists_incomingMoves entries
  refine ⟨dst, memberDst, rfl, moves, isMoves, ?_⟩
  rw [step, here, (Function.block?_eq_some wellFormed.names).mpr ⟨member, rfl⟩]
  dsimp only [Option.bind_eq_bind, Option.bind_some]
  rw [goes]
  dsimp only [Option.bind_some]
  rw [(Function.block?_eq_some wellFormed.names).mpr ⟨memberDst, rfl⟩]
  dsimp only [Option.bind_some]
  rw [isMoves]
  rfl

theorem Function.WellFormed.step_has (wellFormed : f.WellFormed) (here : f.Has s.block)
    (goes : step booleans f s = some t) : f.Has t.block := by
  obtain ⟨b, member, here⟩ := here
  cases leaves : b.terminator.target booleans (b.body.foldl execute s) with
  | none =>
    rw [wellFormed.step_none member here.symm leaves] at goes
    cases goes
  | some target =>
    obtain ⟨dst, memberDst, rfl, moves, -, steps⟩ := wellFormed.step_some member here.symm leaves
    rw [steps] at goes
    cases Option.some.inj goes
    exact ⟨dst, memberDst, rfl⟩

end Steps

section Moved

theorem MovedBlock.incomingMoves_eq {orig new src' : Nat} (moved : MovedBlock orig terminator new target b b')
    (redirects : b.name = target → ∀ phi ∈ b.phis, ∀ phi', Redirected orig new phi phi' →
      phi'.getIncomingValueForBlock src' = phi.getIncomingValueForBlock src)
    (plain : b.name ≠ target → src' = src ∨ b.phis = []) : incomingMoves b'.phis src' = incomingMoves b.phis src := by
  have phis := moved.phis
  split at phis
  · rename_i isTarget
    have related := (forall₂_and_left (p := fun phi => phi ∈ b.phis) b.phis b'.phis).mpr ⟨fun _ => id, phis⟩
    apply incomingMoves_congr
    exact related.imp fun phi phi' both =>
      ⟨both.2.1, redirects isTarget phi both.1 phi' both.2⟩
  · rename_i notTarget
    rw [phis]
    obtain rfl | none := plain notTarget
    · rfl
    · rw [none]
      rfl

theorem MovedBlock.incomingMoves_other {orig new : Nat}
    (moved : MovedBlock orig terminator new target b b') (notOrig : src ≠ orig) (notNew : src ≠ new) :
    incomingMoves b'.phis src = incomingMoves b.phis src :=
  moved.incomingMoves_eq (fun _ _ _ _ redirected => redirected.getIncomingValueForBlock_other notOrig notNew) fun _ => .inl rfl

variable (splits : Splits f f' b₀ terminator node target) (wellFormed : f.WellFormed)
  (member : b ∈ f.blocks) (moved : MovedBlock b₀.name terminator node.name target b b')

include splits wellFormed member moved

theorem Splits.incomingMoves_orig (left : b.name ∈ terminator.successors) :
    incomingMoves b'.phis b₀.name = incomingMoves b.phis b₀.name := by
  apply moved.incomingMoves_eq _ fun _ => .inl rfl
  intro isTarget phi isPhi phi' redirected
  have different := splits.ne_node wellFormed splits.member
  apply redirected.getIncomingValueForBlock_orig (wellFormed.unambiguous b member phi isPhi) different
  -- one entry has been taken, and the terminator still has an edge
  have counts := splits.count_successors b.name
  have redirects := redirected.count b₀.name
  have old := wellFormed.entries b member phi isPhi b₀.name
  have once := splits.once
  have remaining := List.count_pos_iff.mpr left
  rw [Function.edges_of_mem wellFormed.names splits.member] at old
  rw [← isTarget] at once
  have notNew : [node.name].count b₀.name = 0 := count_eq_zero.mpr fun isNew => different (mem_singleton.mp isNew)
  have notNode : [node.name].count b.name = 0 := count_eq_zero.mpr fun isNode =>
      splits.ne_node wellFormed member (mem_singleton.mp isNode)
  rw [count_singleton_self, notNew] at redirects
  rw [← count_pos_iff]
  omega

theorem Splits.incomingMoves_node (taken : b.name ∈ node.terminator.successors) :
    incomingMoves b'.phis node.name = incomingMoves b.phis b₀.name :=
  moved.incomingMoves_eq (fun _ phi isPhi _ redirected => redirected.getIncomingValueForBlock_new
      (wellFormed.unambiguous b member phi isPhi) (splits.not_mem_blocks wellFormed member isPhi))
    fun notTarget => .inr (splits.plain b member taken notTarget)

end Moved

def Function.Edge (f : Function V M) (src dst : Nat) : Prop :=
  ∃ b ∈ f.blocks, b.name = src ∧ dst ∈ b.terminator.successors

theorem Function.Edge.has_right (wellFormed : f.WellFormed) {dst : Nat} (edge : f.Edge src dst) : f.Has dst := by
  obtain ⟨b, member, -, isSuccessor⟩ := edge
  exact wellFormed.closed b member dst isSuccessor

theorem Splits.edge_iff (splits : Splits f f' b₀ terminator node target)
    (wellFormed : f.WellFormed) (hasSrc : f.Has src) {dst : Nat} (hasDst : f.Has dst) :
    Through f'.Edge (fun name => ¬ f.Has name) src dst ↔ f.Edge src dst := by
  have notNode : ¬ f.Has node.name := splits.not_has_node wellFormed
  have old {name : Nat} (has : f.Has name) (member : name ∈ node.terminator.successors ∨ name ∈ terminator.successors) :
      name ∈ b₀.terminator.successors := by
    rw [← mem_append, splits.successors.mem_iff, mem_cons] at member
    exact member.resolve_left fun same => notNode (same ▸ has)
  -- an edge from an original block is an old one, or leads from the split block
  have edge_cases {name : Nat} (edge : f'.Edge src name) : f.Edge src name ∨ src = b₀.name ∧ name ∈ terminator.successors := by
    obtain ⟨b', member', rfl, isSuccessor⟩ := edge
    obtain rfl | ⟨b, member, moved⟩ := splits.cases_mem member'
    · exact absurd hasSrc notNode
    · rw [moved.terminator] at isSuccessor
      split at isSuccessor
      · rename_i isOrig
        exact .inr ⟨moved.name.trans isOrig, isSuccessor⟩
      · exact .inl ⟨b, member, moved.name.symm, isSuccessor⟩
  have node_edge {name : Nat} (edge : f'.Edge node.name name) : name ∈ node.terminator.successors := by
    obtain ⟨b', member', same, isSuccessor⟩ := edge
    rw [splits.eq_node_of_name wellFormed member' same] at isSuccessor
    exact isSuccessor
  constructor
  · intro through
    cases through with
    | direct edge =>
      obtain edge | ⟨rfl, isSuccessor⟩ := edge_cases edge
      · exact edge
      · exact ⟨b₀, splits.member, rfl, old hasDst (.inr isSuccessor)⟩
    | @via _ m _ edge skips rest =>
      obtain ⟨b, member, -, isSuccessor⟩ | ⟨rfl, isSuccessor⟩ := edge_cases edge
      · exact absurd (wellFormed.closed b member m isSuccessor) skips
      · obtain rfl := (splits.successors_has wellFormed isSuccessor).resolve_right skips
        cases rest with
        | direct edge => exact ⟨b₀, splits.member, rfl, old hasDst (.inl (node_edge edge))⟩
        | via edge skips _ =>
          exact absurd (splits.node_successors_has wellFormed (node_edge edge)) skips
  · rintro ⟨b, member, rfl, isSuccessor⟩
    obtain ⟨b', member', moved⟩ := splits.exists_moved member
    by_cases isOrig : b.name = b₀.name
    · have first {name : Nat} (leads : name ∈ terminator.successors) : f'.Edge b.name name :=
        ⟨b', member', moved.name, by rw [moved.terminator, if_pos isOrig]; exact leads⟩
      rw [inj_on_of_nodup_map wellFormed.names member splits.member isOrig] at isSuccessor
      have shared : dst ∈ node.terminator.successors ++ terminator.successors :=
        splits.successors.mem_iff.mpr (mem_cons_of_mem _ isSuccessor)
      rw [mem_append] at shared
      cases shared with
      | inl taken =>
        exact .via (first splits.reached) notNode (.direct ⟨node, splits.node_mem, rfl, taken⟩)
      | inr left => exact .direct (first left)
    · exact .direct ⟨b', member', moved.name, by
        rw [moved.terminator, if_neg isOrig]; exact isSuccessor⟩

section Refines

variable [DecidableEq V]

/-- What a step of the original function does, the other one does in one or more steps
through new blocks, and nothing else. Between the original blocks there are paths through
new blocks exactly where there were edges. -/
structure Refines (booleans : Booleans V) (f f' : Function V M) : Prop where
  next : f.next ≤ f'.next
  has : ∀ name, f.Has name → f'.Has name
  step : ∀ s s' t, f.Has s.block → Agrees f.next s s' → step booleans f s = some t →
    ∃ t', Through (fun s t => step booleans f' s = some t) (fun s => ¬ f.Has s.block) s' t' ∧
      Agrees f.next t t'
  stops : ∀ s s', f.Has s.block → Agrees f.next s s' → LowerSwitch.step booleans f s = none →
    LowerSwitch.step booleans f' s' = none
  edge : ∀ src dst, f.Has src → f.Has dst →
    (Through f'.Edge (fun name => ¬ f.Has name) src dst ↔ f.Edge src dst)

/-- The new block and the terminator do together what the terminator did before. -/
structure Continues (booleans : Booleans V) (next : Nat) (before terminator : Terminator V M)
    (node : BasicBlock V M) : Prop where
  total : ∀ s, ∃ dst, before.target booleans s = some dst
  quiet : ∀ s, Agrees next s (node.body.foldl Instruction.execute s)
  target : ∀ s dst, before.target booleans s = some dst →
    terminator.target booleans s = some dst ∨
      terminator.target booleans s = some node.name ∧
        node.terminator.target booleans
          (node.body.foldl Instruction.execute { s with block := node.name }) = some dst

section Split

variable {booleans : Booleans V} (splits : Splits f f' b₀ terminator node target) (wellFormed : f.WellFormed)

include splits wellFormed

theorem Splits.step_eq (member' : b' ∈ f'.blocks) (here : s.block = b'.name) (memberDst : dst ∈ f.blocks)
    (goes : b'.terminator.target booleans (b'.body.foldl execute s) = some dst.name) (isMoves : incomingMoves dst.phis src = some moves)
    (same : ∀ dst', MovedBlock b₀.name terminator node.name target dst dst' →
      incomingMoves dst'.phis b'.name = incomingMoves dst.phis src) :
    step booleans f' s = some (arrive (b'.body.foldl execute s) dst.name moves) := by
  obtain ⟨dst', memberDst', name, moves', isMoves', steps⟩ := (splits.preserves wellFormed).step_some member' here goes
  rw [same dst' (splits.moved_of_name wellFormed memberDst memberDst' name), isMoves] at isMoves'
  rw [steps, Option.some.inj isMoves']

theorem Splits.step_node (member' : b' ∈ f'.blocks) (here : s.block = b'.name)
    (goes : b'.terminator.target booleans (b'.body.foldl execute s) = some node.name) :
    step booleans f' s = some { b'.body.foldl execute s with block := node.name } := by
  obtain ⟨dst', memberDst', name, moves', isMoves', steps⟩ := (splits.preserves wellFormed).step_some member' here goes
  rw [splits.eq_node_of_name wellFormed memberDst' name, splits.phis] at isMoves'
  rw [steps, ← Option.some.inj isMoves']
  rfl

variable (continues : Continues booleans f.next b₀.terminator terminator node)

include continues

theorem Splits.step_refines (member : b ∈ f.blocks) (here : s.block = b.name)
    (agrees : Agrees f.next s s') (goes : step booleans f s = some t) :
    ∃ t', Through (fun s t => step booleans f' s = some t) (fun s => ¬ f.Has s.block) s' t' ∧ Agrees f.next t t' := by
  obtain ⟨b', member', moved⟩ := splits.exists_moved member
  have here' : s'.block = b'.name := by rw [← agrees.block, here, moved.name]
  have agreesEnd := body_agrees (wellFormed.below b member).body agrees
  have below := (wellFormed.below b member).terminator
  rw [← moved.body] at agreesEnd
  cases leaves : b.terminator.target booleans (b.body.foldl execute s) with
  | none =>
    rw [wellFormed.step_none member here leaves] at goes
    cases goes
  | some dst =>
    obtain ⟨dst, memberDst, rfl, moves, isMoves, steps⟩ := wellFormed.step_some member here leaves
    cases Option.some.inj (goes.symm.trans steps)
    rw [← moved.body] at leaves ⊢
    have belowDst := wellFormed.below dst memberDst
    have leaves' := (target_agrees below agreesEnd).trans leaves
    by_cases isOrig : b.name = b₀.name
    · obtain rfl := inj_on_of_nodup_map wellFormed.names member splits.member isOrig
      have replaced : b'.terminator = terminator := by rw [moved.terminator, if_pos rfl]
      cases continues.target _ _ leaves' with
      | inl goesThere =>
        rw [← replaced] at goesThere
        refine ⟨_, .direct (splits.step_eq wellFormed member' here' memberDst goesThere
          isMoves fun dst' movedDst => ?_), arrive_agrees agreesEnd belowDst isMoves _⟩
        rw [moved.name]
        apply splits.incomingMoves_orig wellFormed memberDst movedDst
        rw [← replaced]
        exact target_mem goesThere
      | inr goesOver =>
        obtain ⟨goesOver, goesOn⟩ := goesOver
        rw [← replaced] at goesOver
        refine ⟨_, .via (splits.step_node wellFormed member' here' goesOver)
          (splits.not_has_node wellFormed) (.direct (splits.step_eq wellFormed
            splits.node_mem rfl memberDst goesOn isMoves fun dst' movedDst => ?_)), ?_⟩
        · exact splits.incomingMoves_node wellFormed memberDst movedDst (target_mem goesOn)
        · have moved : Agrees f.next { b'.body.foldl execute s with block := node.name }
              { b'.body.foldl execute s' with block := node.name } :=
            ⟨rfl, agreesEnd.memory, agreesEnd.locals⟩
          have quiet := moved.trans (continues.quiet _) (Nat.le_refl _)
          exact arrive_agrees quiet belowDst isMoves dst.name
    · rw [← (show b'.terminator = b.terminator by rw [moved.terminator, if_neg isOrig])] at leaves'
      refine ⟨_, .direct (splits.step_eq wellFormed member' here' memberDst leaves' isMoves
        fun dst' movedDst => ?_), arrive_agrees agreesEnd belowDst isMoves _⟩
      rw [moved.name]
      exact movedDst.incomingMoves_other isOrig (splits.ne_node wellFormed member)

theorem Splits.refines : Refines booleans f f' where
  next := splits.next
  has name has := splits.has_iff.mpr (.inr has)
  step s s' t has agrees goes := by
    obtain ⟨b, member, here⟩ := has
    exact splits.step_refines wellFormed continues member here.symm agrees goes
  stops s s' has agrees stuck := by
    obtain ⟨b, member, here⟩ := has
    obtain ⟨b', member', moved⟩ := splits.exists_moved member
    have here' : s'.block = b'.name := by rw [← agrees.block, ← here, moved.name]
    have agreesEnd := body_agrees (wellFormed.below b member).body agrees
    cases leaves : b.terminator.target booleans (b.body.foldl execute s) with
    | some dst =>
      obtain ⟨-, -, -, moves, -, steps⟩ := wellFormed.step_some member here.symm leaves
      rw [steps] at stuck
      cases stuck
    | none =>
      apply (splits.preserves wellFormed).step_none member' here'
      by_cases isOrig : b.name = b₀.name
      · obtain rfl := inj_on_of_nodup_map wellFormed.names member splits.member isOrig
        obtain ⟨dst, goes⟩ := continues.total (b.body.foldl execute s)
        rw [leaves] at goes
        cases goes
      · rw [moved.terminator, if_neg isOrig, moved.body, target_agrees (wellFormed.below b member).terminator agreesEnd]
        exact leaves
  edge src dst hasSrc hasDst := splits.edge_iff wellFormed hasSrc hasDst

end Split

namespace Refines

variable {booleans : Booleans V}

theorem of_eq (wellFormed : f.WellFormed) (next : f.next ≤ f'.next) (has : ∀ name, f.Has name → f'.Has name)
    (steps : LowerSwitch.step booleans f' = LowerSwitch.step booleans f) (edges : f'.Edge = f.Edge) : Refines booleans f f' where
  next := next
  has := has
  step s s' t has agrees goes := by
    obtain ⟨b, member, here⟩ := has
    have here' : s'.block = b.name := by rw [← agrees.block, here]
    have below := wellFormed.below b member
    have agreesEnd := body_agrees below.body agrees
    cases leaves : b.terminator.target booleans (b.body.foldl execute s) with
    | none =>
      rw [wellFormed.step_none member here.symm leaves] at goes
      cases goes
    | some dst =>
      obtain ⟨dst, memberDst, rfl, moves, isMoves, stepsTo⟩ := wellFormed.step_some member here.symm leaves
      obtain ⟨dst', memberDst', name, moves', isMoves', stepsTo'⟩ := wellFormed.step_some member
        here' ((target_agrees below.terminator agreesEnd).trans leaves)
      rw [inj_on_of_nodup_map wellFormed.names memberDst' memberDst name, isMoves] at isMoves'
      cases Option.some.inj (goes.symm.trans stepsTo)
      cases Option.some.inj isMoves'
      rw [steps]
      exact ⟨_, .direct stepsTo', arrive_agrees agreesEnd (wellFormed.below dst memberDst) isMoves dst.name⟩
  stops s s' has agrees stuck := by
    obtain ⟨b, member, here⟩ := has
    have here' : s'.block = b.name := by rw [← agrees.block, here]
    have below := wellFormed.below b member
    rw [steps]
    cases leaves : b.terminator.target booleans (b.body.foldl execute s) with
    | some dst =>
      obtain ⟨-, -, -, moves, -, stepsTo⟩ := wellFormed.step_some member here.symm leaves
      rw [stepsTo] at stuck
      cases stuck
    | none =>
      exact wellFormed.step_none member here' ((target_agrees below.terminator (body_agrees below.body agrees)).trans leaves)
  edge src dst hasSrc hasDst := by
    rw [edges]
    constructor
    · intro through
      cases through with
      | direct edge => exact edge
      | via edge skips _ => exact absurd (edge.has_right wellFormed) skips
    · exact .direct

theorem refl (wellFormed : f.WellFormed) : Refines booleans f f :=
  of_eq wellFormed (Nat.le_refl _) (fun _ => id) rfl rfl

theorem trans (first : Refines booleans f f') (second : Refines booleans f' f'')
    (wellFormed' : f'.WellFormed) : Refines booleans f f'' where
  next := Nat.le_trans first.next second.next
  has name has := second.has name (first.has name has)
  step s s' t has agrees goes := by
    obtain ⟨t', through, agreesEnd⟩ := first.step s s' t has agrees goes
    have start : f'.Has s'.block := agrees.block ▸ first.has _ has
    have steps (a a' b : State V M) (related : f'.Has a.block ∧ Agrees f'.next a a') (goesOn : LowerSwitch.step booleans f' a = some b) :
        ∃ b', Through (fun s t => LowerSwitch.step booleans f'' s = some t)
          (fun s => ¬ f.Has s.block) a' b' ∧ f'.Has b.block ∧ Agrees f'.next b b' := by
      obtain ⟨b', run, agreesRun⟩ := second.step a a' b related.1 related.2 goesOn
      exact ⟨b', run.mono (fun _ _ => id) fun m absent has => absent (first.has m.block has),
        wellFormed'.step_has related.1 goesOn, agreesRun⟩
    obtain ⟨t'', through', -, agreesEnd'⟩ := through.simulate (fun m m' => f'.Has m.block ∧ Agrees f'.next m m') steps
      (fun m m' related absent => related.2.block ▸ absent) ⟨start, Agrees.refl s'⟩
    exact ⟨t'', through', agreesEnd.trans agreesEnd' first.next⟩
  stops s s' has agrees stuck := second.stops s' s' (agrees.block ▸ first.has _ has) (Agrees.refl s') (first.stops s s' has agrees stuck)
  edge src dst hasSrc hasDst := by
    rw [← first.edge src dst hasSrc hasDst]
    constructor
    · intro through
      apply (through.group (first.has src hasSrc) (first.has dst hasDst)).mono _ fun _ => id
      intro a b segment
      exact (second.edge a b segment.1 segment.2.1).mp segment.2.2
    · intro through
      have steps (a a' b : Nat) (related : f'.Has a ∧ a = a') (edge : f'.Edge a b) :
          ∃ b', Through f''.Edge (fun name => ¬ f.Has name) a' b' ∧ f'.Has b ∧ b = b' := by
        obtain ⟨has, rfl⟩ := related
        have hasEnd := edge.has_right wellFormed'
        exact ⟨b, ((second.edge a b has hasEnd).mpr edge).mono (fun _ _ => id)
          fun name absent has => absent (first.has name has), hasEnd, rfl⟩
      obtain ⟨_, through', -, rfl⟩ := through.simulate (fun a a' => f'.Has a ∧ a = a') steps
        (fun a a' related absent => related.2 ▸ absent) ⟨first.has src hasSrc, rfl⟩
      exact through'

end Refines

end Refines

end NeuroMerge.Module.LowerSwitch
