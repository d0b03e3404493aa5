import NeuroMerge.Module.LowerSwitchRefinement

/-!
# The pass as a sequence of splits

While the pass builds the chain for a switch, the switch stays in place. What it has made
so far is right for a switch that has only the remaining cases and whose default block is
the head of the chain.
-/

namespace NeuroMerge.Module.LowerSwitch

open List NeuroMerge.Module.LowerSwitch.BasicBlock

variable {V M : Type} {f f' : Function V M} {b b' node : BasicBlock V M}
  {terminator before : Terminator V M} {name orig new target : Nat}

section SetTerminator

def BasicBlock.ending (orig : Nat) (terminator : Terminator V M) (b : BasicBlock V M) :
    BasicBlock V M :=
  if b.name = orig then { b with terminator } else b

@[simp] theorem BasicBlock.ending_name : (b.ending orig terminator).name = b.name := by
  rw [ending]
  split <;> rfl

@[simp] theorem BasicBlock.ending_phis : (b.ending orig terminator).phis = b.phis := by
  rw [ending]
  split <;> rfl

@[simp] theorem BasicBlock.ending_body : (b.ending orig terminator).body = b.body := by
  rw [ending]
  split <;> rfl

theorem BasicBlock.ending_terminator : (b.ending orig terminator).terminator = if b.name = orig then terminator else b.terminator := by
  rw [ending]
  split <;> rfl

theorem Function.setTerminator_blocks : (f.setTerminator orig terminator).blocks = f.blocks.map (BasicBlock.ending orig terminator) :=
  rfl

theorem Function.setTerminator_again : (f.setTerminator orig before).setTerminator orig terminator = f.setTerminator orig terminator := by
  rw [setTerminator, setTerminator, setTerminator]
  rw [map_map]
  congr 2
  funext b
  by_cases isOrig : b.name = orig <;> simp [isOrig]

theorem Function.setTerminator_self (names : (f.blocks.map BasicBlock.name).Nodup)
    (member : b ∈ f.blocks) : f.setTerminator b.name b.terminator = f := by
  have same : f.blocks.map (BasicBlock.ending b.name b.terminator) = f.blocks.map id := by
    apply map_congr_left
    intro other isOther
    by_cases isOrig : other.name = b.name
    · rw [inj_on_of_nodup_map names isOther member isOrig, BasicBlock.ending, if_pos rfl]
      rfl
    · exact if_neg isOrig
  rw [map_id] at same
  exact congrArg (fun blocks => { f with blocks }) same

theorem Function.has_setTerminator : (f.setTerminator orig terminator).Has name ↔ f.Has name := by
  rw [Has, Has, setTerminator_blocks]
  simp

theorem Function.block?_setTerminator :
    (f.setTerminator orig terminator).block? name = (f.block? name).map (BasicBlock.ending orig terminator) := by
  rw [block?, block?, setTerminator_blocks, find?_map]
  congr 2
  funext b
  simp

end SetTerminator

section Rewriting

theorem rewriteIncoming_spec (entries : ∀ phi ∈ b.phis, orig ∈ phi.blocks) :
    ∃ b', rewriteIncoming orig new b = some b' ∧ b'.name = b.name ∧ b'.body = b.body ∧
      b'.terminator = b.terminator ∧ List.Forall₂ (Redirected orig new) b.phis b'.phis := by
  have all : ∀ phis : List (PHINode V), (∀ phi ∈ phis, orig ∈ phi.blocks) → ∃ phis', (phis.mapM fun phi => do
          let index ← phi.getBasicBlockIndex orig
          some (phi.setIncomingBlock index new)) = some phis' ∧
        List.Forall₂ (Redirected orig new) phis phis' := by
    intro phis
    induction phis with
    | nil => exact fun _ => ⟨[], rfl, .nil⟩
    | cons phi phis ih =>
      intro entries
      rw [forall_mem_cons] at entries
      obtain ⟨index, found, redirected⟩ := setIncomingBlock_redirected new entries.1
      obtain ⟨phis', rest, related⟩ := ih entries.2
      rw [mapM_cons, found, rest]
      exact ⟨_, rfl, .cons redirected related⟩
  obtain ⟨phis', rewritten, related⟩ := all b.phis entries
  rw [rewriteIncoming, rewritten]
  exact ⟨_, rfl, rfl, rfl, rfl, related⟩

theorem insertBefore_perm (block : BasicBlock V M) (position : Nat) (blocks : List (BasicBlock V M)) :
    (insertBefore block position blocks).Perm (block :: blocks) := by
  induction blocks with
  | nil => exact .refl _
  | cons b blocks ih =>
    rw [insertBefore]
    split
    · exact .refl _
    · exact (ih.cons b).trans (.swap block b blocks)

theorem insertAfter_perm (block : BasicBlock V M) (position : Nat) (blocks : List (BasicBlock V M)) :
    (insertAfter block position blocks).Perm (block :: blocks) := by
  induction blocks with
  | nil => exact .refl _
  | cons b blocks ih =>
    rw [insertAfter]
    split
    · exact .swap block b blocks
    · exact (ih.cons b).trans (.swap block b blocks)

theorem mapM_eq_map {α β : Type} {items : List α} {make : α → Option β} {made : α → β}
    (each : ∀ item ∈ items, make item = some (made item)) : items.mapM make = some (items.map made) := by
  induction items with
  | nil => rfl
  | cons item items ih =>
    rw [forall_mem_cons] at each
    rw [mapM_cons, each.1, ih each.2]
    rfl

/-- The function in which a node has been inserted and entries have been rewritten. -/
structure Rewritten (f f' : Function V M) (orig : Nat) (node : BasicBlock V M) (target : Nat) :
    Prop where
  blocks : ∃ moved,
    List.Forall₂ (fun b b' => b'.name = b.name ∧ b'.body = b.body ∧ b'.terminator = b.terminator ∧
      if b.name = target then List.Forall₂ (Redirected orig node.name) b.phis b'.phis
      else b'.phis = b.phis) f.blocks moved ∧ f'.blocks.Perm (node :: moved)
  nextBlock : f'.nextBlock = f.nextBlock + 1

theorem rewriteIncoming_rewritten (next : Nat) {blocks : List (BasicBlock V M)}
    (inserted : blocks.Perm (node :: f.blocks)) (different : node.name ≠ target)
    (entries : ∀ b ∈ f.blocks, b.name = target → ∀ phi ∈ b.phis, orig ∈ phi.blocks) :
    ∃ f', (⟨blocks, next, f.nextBlock + 1⟩ : Function V M).rewriteIncoming target orig node.name =
        some f' ∧ f'.next = next ∧ Rewritten f f' orig node target := by
  let rewrite (b : BasicBlock V M) : Option (BasicBlock V M) :=
    if b.name = target then rewriteIncoming orig node.name b else some b
  let moved (b : BasicBlock V M) : BasicBlock V M := (rewrite b).getD b
  have related (b : BasicBlock V M) (member : b ∈ f.blocks) : rewrite b = some (moved b) ∧
      (moved b).name = b.name ∧ (moved b).body = b.body ∧ (moved b).terminator = b.terminator ∧
      if b.name = target then List.Forall₂ (Redirected orig node.name) b.phis (moved b).phis
      else (moved b).phis = b.phis := by
    by_cases isTarget : b.name = target
    · obtain ⟨b', rewritten, facts⟩ := rewriteIncoming_spec (entries b member isTarget)
      have isMoved : rewrite b = some b' := (if_pos isTarget).trans rewritten
      simp only [moved, isMoved, Option.getD_some, if_pos isTarget]
      exact ⟨trivial, facts⟩
    · have isMoved : rewrite b = some b := if_neg isTarget
      simp only [moved, isMoved, Option.getD_some, if_neg isTarget, and_self]
  have kept : rewrite node = some node := if_neg different
  have all : blocks.mapM rewrite = some (blocks.map moved) := by
    apply mapM_eq_map
    intro b member
    rw [inserted.mem_iff, mem_cons] at member
    obtain rfl | member := member
    · simp only [moved, kept, Option.getD_some]
    · exact (related b member).1
  refine ⟨⟨blocks.map moved, next, f.nextBlock + 1⟩, ?_, rfl, ⟨f.blocks.map moved, ?_, ?_⟩, rfl⟩
  · rw [Function.rewriteIncoming]
    rw [all]
    rfl
  · rw [forall₂_map_right_iff, forall₂_same]
    exact fun b member => (related b member).2
  · have perm := inserted.map moved
    rw [map_cons] at perm
    simpa only [moved, kept, Option.getD_some] using perm

theorem Rewritten.splits (rewritten : Rewritten f f' orig node target)
    (member : b ∈ f.blocks) (isOrig : b.name = orig) (name : node.name = f.nextBlock)
    (fresh : node.name ≠ orig) (next : f.next ≤ f'.next) (phis : node.phis = [])
    (nodeBelow : node.Below f'.next) (below : terminator.Below f.next)
    (successors : (node.terminator.successors ++ terminator.successors).Perm
      (node.name :: before.successors)) (reached : node.name ∈ terminator.successors) (once : node.terminator.successors.count target = 1)
    (plain : ∀ b ∈ f.blocks, b.name ∈ node.terminator.successors → b.name ≠ target → b.phis = []) :
    Splits (f.setTerminator orig before) (f'.setTerminator orig terminator) (b.ending orig before) terminator node target where
  member := mem_map_of_mem member
  blocks := by
    obtain ⟨moved, related, perm⟩ := rewritten.blocks
    refine ⟨moved.map (BasicBlock.ending orig terminator), ?_, ?_⟩
    · rw [Function.setTerminator_blocks, forall₂_map_left_iff, forall₂_map_right_iff]
      apply related.imp
      rintro b₁ b₂ ⟨sameName, sameBody, sameTerminator, phis⟩
      constructor
      · simp [sameName]
      · simp [sameBody]
      · simp only [ending_terminator, ending_name, sameName, sameTerminator, isOrig]
        split <;> rfl
      · simpa [isOrig] using phis
    · have kept : node.ending orig terminator = node := if_neg fresh
      have perm' := perm.map (BasicBlock.ending orig terminator)
      rw [map_cons, kept] at perm'
      exact perm'
  name := name
  nextBlock := rewritten.nextBlock
  next := next
  phis := phis
  nodeBelow := nodeBelow
  below := below
  successors := by
    rw [ending_terminator, if_pos isOrig]
    exact successors
  reached := reached
  once := once
  plain := by
    intro b' member' isSuccessor notTarget
    obtain ⟨b, isBlock, rfl⟩ := mem_map.mp member'
    rw [← BasicBlock.ending, ending_name] at isSuccessor notTarget
    rw [← BasicBlock.ending, ending_phis]
    exact plain b isBlock isSuccessor notTarget

section

variable (wellFormed : (f.setTerminator orig terminator).WellFormed)
include wellFormed

theorem setTerminator_fresh (has : f.Has name) : name ≠ f.nextBlock := by
  have has' : (f.setTerminator orig terminator).Has name := Function.has_setTerminator.mpr has
  obtain ⟨b, member, rfl⟩ := has'
  exact Nat.ne_of_lt (wellFormed.fresh b member)

theorem setTerminator_has (member : b ∈ f.blocks) (isOrig : b.name = orig) : ∀ dst ∈ terminator.successors, f.Has dst := by
  intro dst isSuccessor
  rw [← Function.has_setTerminator]
  apply wellFormed.closed _ (mem_map_of_mem member)
  rw [← BasicBlock.ending, ending_terminator, if_pos isOrig]
  exact isSuccessor

theorem setTerminator_entries (member : b ∈ f.blocks) (isOrig : b.name = orig) (isSuccessor : target ∈ terminator.successors) :
    ∀ b' ∈ f.blocks, b'.name = target → ∀ phi ∈ b'.phis, orig ∈ phi.blocks := by
  rintro b' member' rfl phi isPhi
  have count := wellFormed.entries _ (mem_map_of_mem member') phi (by rw [← BasicBlock.ending, ending_phis]; exact isPhi) orig
  have edges : (f.setTerminator orig terminator).edges (b.ending orig terminator).name b'.name =
      (b.ending orig terminator).terminator.successors.count b'.name :=
    Function.edges_of_mem wellFormed.names (mem_map_of_mem member)
  rw [ending_name, ending_terminator, if_pos isOrig, isOrig] at edges
  rw [← BasicBlock.ending, ending_name, edges] at count
  rw [← count_pos_iff, count]
  exact List.count_pos_iff.mpr isSuccessor

end

theorem Splits.plain_node {b₀ : BasicBlock V M} (splits : Splits f (f'.setTerminator orig before) b₀ terminator node target)
    (wellFormed : f.WellFormed) : ∀ b ∈ f'.blocks, b.name = node.name → b.phis = [] := by
  intro b member isNode
  have same := splits.eq_node_of_name wellFormed (mem_map_of_mem member) (ending_name.trans isNode)
  exact (ending_phis.symm.trans (congrArg BasicBlock.phis same)).trans splits.phis

def Terminator.IsSwitch : Terminator V M → Prop
  | .switch _ _ _ => True
  | .br _ => False
  | .condBr _ _ _ => False
  | .other _ _ _ => False

theorem Terminator.IsSwitch.exists_eq (isSwitch : terminator.IsSwitch) :
    ∃ condition cases dest, terminator = .switch condition cases dest := by
  cases terminator with
  | switch condition cases dest => exact ⟨condition, cases, dest, rfl⟩
  | br dest => exact isSwitch.elim
  | condBr condition ifTrue ifFalse => exact isSwitch.elim
  | other operands successors branch => exact isSwitch.elim

def SwitchesWithin (f f' : Function V M) : Prop :=
  ∀ b' ∈ f'.blocks, b'.terminator.IsSwitch → ∃ b ∈ f.blocks, b.name = b'.name ∧
    b.terminator.IsSwitch

theorem SwitchesWithin.trans {f'' : Function V M} (first : SwitchesWithin f f')
    (second : SwitchesWithin f' f'') : SwitchesWithin f f'' := by
  intro b'' member isSwitch
  obtain ⟨b', member', name', isSwitch'⟩ := second b'' member isSwitch
  obtain ⟨b, isBlock, name, was⟩ := first b' member' isSwitch'
  exact ⟨b, isBlock, name.trans name', was⟩

theorem Rewritten.switchesWithin (rewritten : Rewritten f f' orig node target)
    (plain : ¬ node.terminator.IsSwitch) : SwitchesWithin f f' := by
  obtain ⟨moved, related, perm⟩ := rewritten.blocks
  intro b' member isSwitch
  rw [perm.mem_iff, mem_cons] at member
  obtain rfl | isMoved := member
  · exact absurd isSwitch plain
  · obtain ⟨b, isBlock, name, -, sameTerminator, -⟩ := exists_of_mem_right related isMoved
    exact ⟨b, isBlock, name.symm, sameTerminator ▸ isSwitch⟩

end Rewriting

section Chain

variable [DecidableEq V] {booleans : Booleans V} {condition : Value V} {cases : List (V × Nat)}
  {value : V} {dest head next : Nat}

def caseNode (booleans : Booleans V) (condition : Value V) (next new : Nat) (it : V × Nat)
    (head : Nat) : BasicBlock V M :=
  { name := new
    phis := []
    body := [createICmpEQ booleans next condition it.1]
    terminator := .condBr (.register next) it.2 head }

theorem caseNode_below (below : condition.Below next) :
    (caseNode (M := M) booleans condition next new (value, dest) head).Below (next + 1) where
  phis := nofun
  body := by
    intro instruction member
    rw [mem_singleton.mp member]
    refine ⟨?_, ?_⟩
    · rintro target isTarget
      cases isTarget
      exact Nat.lt_succ_self next
    · intro value member
      simp only [mem_cons, not_mem_nil, or_false] at member
      obtain rfl | rfl := member
      · exact below.mono (Nat.le_succ next)
      · trivial
  terminator := Nat.lt_succ_self next

theorem caseNode_execute (s : State V M) :
    (caseNode booleans condition next new (value, dest) head).body.foldl Instruction.execute s =
      { s with
        locals := Function.update s.locals next
          (booleans.ofBool (condition.eval s.locals = value)) } := by
  have compared : decide (some (condition.eval s.locals) = some value) =
      decide (condition.eval s.locals = value) :=
    decide_eq_decide.mpr Option.some_inj
  rw [← compared]
  rfl

theorem caseNode_continues : Continues (M := M) booleans next (.switch condition (cases ++ [(value, dest)]) head)
      (.switch condition cases new) (caseNode booleans condition next new (value, dest) head) where
  total s := ⟨_, rfl⟩
  quiet s := by
    refine ⟨rfl, rfl, fun id old => ?_⟩
    exact (Function.update_of_ne (Nat.ne_of_lt old) _ _).symm
  target s dst goes := by
    rw [Terminator.target, lookup_append] at goes
    rw [Terminator.target]
    cases found : cases.lookup (condition.eval s.locals) with
    | some bb =>
      rw [found, Option.some_or] at goes
      exact .inl goes
    | none =>
      rw [found, Option.none_or] at goes
      refine .inr ⟨rfl, ?_⟩
      rw [caseNode_execute, ← goes]
      change some (if booleans.isTrue (Function.update s.locals next
        (booleans.ofBool (condition.eval s.locals = value)) next) then dest else head) = _
      rw [Function.update_self, booleans.isTrue_ofBool]
      by_cases same : condition.eval s.locals = value
      · simp [same]
      · rw [List.lookup_cons, beq_eq_false_iff_ne.mpr same, decide_eq_false same]
        rfl

theorem defaultNode_continues : Continues (M := M) booleans next (.switch condition cases dest) (.switch condition cases new)
      ⟨new, [], [], .br dest⟩ where
  total s := ⟨_, rfl⟩
  quiet s := Agrees.refl s
  target s dst goes := by
    rw [Terminator.target] at goes ⊢
    cases found : cases.lookup (condition.eval s.locals) with
    | some bb =>
      rw [found] at goes
      exact .inl goes
    | none =>
      rw [found] at goes
      exact .inr ⟨rfl, goes⟩

theorem switchConvert_spec (reversed : List (V × Nat)) :
    ∀ (f : Function V M) (head : Nat),
      (f.setTerminator orig (.switch condition reversed.reverse head)).WellFormed → f.Has orig →
      condition.Below f.next → (∀ b ∈ f.blocks, b.name = head → b.phis = []) →
      (∀ it ∈ reversed, it.2 ≠ head) →
      ∃ curHead f', switchConvert booleans condition orig reversed head f = some (curHead, f') ∧
        f'.Has orig ∧ condition.Below f'.next ∧ SwitchesWithin f f' ∧
        (f'.setTerminator orig (.switch condition [] curHead)).WellFormed ∧
        Refines booleans (f.setTerminator orig (.switch condition reversed.reverse head))
          (f'.setTerminator orig (.switch condition [] curHead)) := by
  induction reversed with
  | nil =>
    intro f head wellFormed has below _ _
    exact ⟨head, f, rfl, has, below, fun b member isSwitch => ⟨b, member, rfl, isSwitch⟩, wellFormed, Refines.refl wellFormed⟩
  | cons it reversed ih =>
    intro f head wellFormed has below plain different
    obtain ⟨value, dest⟩ := it
    rw [reverse_cons] at wellFormed ⊢
    obtain ⟨b, member, isOrig⟩ := has
    let node : BasicBlock V M := caseNode booleans condition f.next f.nextBlock (value, dest) head
    have hasDest : f.Has dest := setTerminator_has wellFormed member isOrig dest (by simp [Terminator.successors])
    obtain ⟨f₁, rewrites, next, rewritten⟩ := rewriteIncoming_rewritten (f.next + 1)
      (insertAfter_perm node orig f.blocks) (setTerminator_fresh wellFormed hasDest).symm
      (setTerminator_entries wellFormed member isOrig (by simp [Terminator.successors]))
    have grows : f.next ≤ f₁.next := next ▸ Nat.le_succ _
    have splits : Splits (f.setTerminator orig (.switch condition (reversed.reverse ++ [(value, dest)]) head))
        (f₁.setTerminator orig (.switch condition reversed.reverse f.nextBlock))
        (b.ending orig (.switch condition (reversed.reverse ++ [(value, dest)]) head))
        (.switch condition reversed.reverse f.nextBlock) node dest := by
      have belowSwitch : (Terminator.switch (M := M) condition reversed.reverse f.nextBlock).Below f.next := below
      apply rewritten.splits member isOrig rfl _ grows rfl _ belowSwitch
      · rw [perm_iff_count]
        intro name
        simp only [node, caseNode, Terminator.successors, map_append, map_cons, map_nil, count_append, count_cons, count_nil]
        omega
      · exact mem_cons_self
      · have apart := different (value, dest) mem_cons_self
        simp [node, caseNode, Terminator.successors, apart.symm]
      · intro other isBlock isSuccessor notDest
        apply plain other isBlock
        simpa [node, caseNode, Terminator.successors, notDest] using isSuccessor
      · exact (setTerminator_fresh wellFormed ⟨b, member, isOrig⟩).symm
      · rw [next]
        exact caseNode_below below
    have wellFormed₁ := splits.preserves wellFormed
    have refines : Refines booleans _ _ := splits.refines wellFormed (by
      rw [ending_terminator, if_pos isOrig]
      exact caseNode_continues)
    have has₁ : f₁.Has orig := Function.has_setTerminator.mp
      (splits.has_iff.mpr (.inr (Function.has_setTerminator.mpr ⟨b, member, isOrig⟩)))
    obtain ⟨curHead, f', converts, has', below', within, wellFormed', refines'⟩ :=
      ih f₁ f.nextBlock wellFormed₁ has₁ (below.mono grows) (splits.plain_node wellFormed) (by
        intro it later
        apply setTerminator_fresh wellFormed
        apply setTerminator_has wellFormed member isOrig
        simp only [Terminator.successors, map_append, mem_cons, mem_append]
        exact .inr (.inl (mem_map_of_mem (mem_reverse.mpr later))))
    refine ⟨curHead, f', ?_, has', below', (rewritten.switchesWithin id).trans within, wellFormed', refines.trans refines' wellFormed₁⟩
    have step : switchConvert booleans condition orig ((value, dest) :: reversed) head f =
        (Function.rewriteIncoming ⟨insertAfter node orig f.blocks, f.next + 1, f.nextBlock + 1⟩ dest orig node.name).bind
            (switchConvert booleans condition orig reversed f.nextBlock) := rfl
    rw [step, rewrites]
    exact converts

theorem setTerminator_refines {terminator : Terminator V M} (wellFormed : f.WellFormed)
    (member : b ∈ f.blocks) (below : terminator.Below f.next) (successors : terminator.successors = b.terminator.successors)
    (target : ∀ s, terminator.target booleans s = b.terminator.target booleans s) :
    (f.setTerminator b.name terminator).WellFormed ∧ Refines booleans f (f.setTerminator b.name terminator) := by
  have ending {other : BasicBlock V M} (isBlock : other ∈ f.blocks) :
      (other.ending b.name terminator).terminator.successors = other.terminator.successors ∧
        ∀ s, (other.ending b.name terminator).terminator.target booleans s =
          other.terminator.target booleans s := by
    rw [ending_terminator]
    by_cases isOrig : other.name = b.name
    · rw [if_pos isOrig, inj_on_of_nodup_map wellFormed.names isBlock member isOrig]
      exact ⟨successors, target⟩
    · rw [if_neg isOrig]
      exact ⟨rfl, fun _ => rfl⟩
  have located {name : Nat} {other : BasicBlock V M} (found : f.block? name = some other) :=
    ((Function.block?_eq_some wellFormed.names).mp found).1
  have edges (src dst : Nat) : (f.setTerminator b.name terminator).edges src dst =
      f.edges src dst := by
    rw [Function.edges, Function.edges, Function.block?_setTerminator]
    cases found : f.block? src with
    | none => rfl
    | some other =>
      simp only [Option.map_some, (ending (located found)).1]
  constructor
  · constructor
    · rw [Function.setTerminator_blocks, map_map]
      have names : (BasicBlock.name ∘ BasicBlock.ending b.name terminator) =
          (BasicBlock.name : BasicBlock V M → Nat) := funext fun _ => ending_name
      rw [names]
      exact wellFormed.names
    · rw [Function.setTerminator_blocks, forall_mem_map]
      intro other isBlock
      rw [ending_name]
      exact wellFormed.fresh other isBlock
    · rw [Function.setTerminator_blocks, forall_mem_map]
      intro other isBlock dst isSuccessor
      rw [(ending isBlock).1] at isSuccessor
      exact Function.has_setTerminator.mpr (wellFormed.closed other isBlock dst isSuccessor)
    · rw [Function.setTerminator_blocks, forall_mem_map]
      intro other isBlock phi isPhi src
      rw [ending_phis] at isPhi
      rw [edges, ending_name]
      exact wellFormed.entries other isBlock phi isPhi src
    · rw [Function.setTerminator_blocks, forall_mem_map]
      intro other isBlock
      rw [ending_phis]
      exact wellFormed.unambiguous other isBlock
    · rw [Function.setTerminator_blocks, forall_mem_map]
      intro other isBlock
      have old := wellFormed.below other isBlock
      constructor
      · rw [ending_phis]
        exact old.phis
      · rw [ending_body]
        exact old.body
      · rw [ending_terminator]
        split
        · exact below
        · exact old.terminator
  · have next : f.next ≤ (f.setTerminator b.name terminator).next := Nat.le_refl _
    apply Refines.of_eq wellFormed next fun _ => Function.has_setTerminator.mpr
    · funext s
      rw [step, step, Function.block?_setTerminator]
      cases found : f.block? s.block with
      | none => rfl
      | some other =>
        simp only [Option.map_some, Option.bind_eq_bind, Option.bind_some, ending_body, ending_name, (ending (located found)).2]
        cases other.terminator.target booleans (other.body.foldl Instruction.execute s) with
        | none => rfl
        | some dst =>
          simp only [Option.bind_some, Function.block?_setTerminator]
          cases f.block? dst with
          | none => rfl
          | some dst => simp only [Option.map_some, Option.bind_some, ending_phis, ending_name]
    · funext src dst
      apply propext
      rw [Function.Edge, Function.Edge, Function.setTerminator_blocks]
      constructor
      · rintro ⟨_, member', name, isSuccessor⟩
        obtain ⟨other, isBlock, rfl⟩ := mem_map.mp member'
        rw [(ending isBlock).1] at isSuccessor
        exact ⟨other, isBlock, ending_name.symm.trans name, isSuccessor⟩
      · rintro ⟨other, isBlock, name, isSuccessor⟩
        refine ⟨_, mem_map_of_mem isBlock, ending_name.trans name, ?_⟩
        rw [(ending isBlock).1]
        exact isSuccessor

theorem processSwitchInst_spec (booleans : Booleans V) (wellFormed : f.WellFormed)
    (member : b ∈ f.blocks) (isSwitch : b.terminator = .switch condition cases dest) :
    ∃ f', processSwitchInst booleans f b.name condition cases dest = some f' ∧ f'.WellFormed ∧
      Refines booleans f f' ∧ ∀ b' ∈ f'.blocks, b'.terminator.IsSwitch →
        b'.name ≠ b.name ∧ ∃ old ∈ f.blocks, old.name = b'.name ∧ old.terminator.IsSwitch := by
  have same : f.setTerminator b.name (.switch condition cases dest) = f := isSwitch ▸ Function.setTerminator_self wellFormed.names member
  have wellFormed₀ := wellFormed
  rw [← same] at wellFormed₀
  have below : condition.Below f.next := by
    have terminator := (wellFormed.below b member).terminator
    rw [isSwitch] at terminator
    exact terminator
  have hasDest : f.Has dest := setTerminator_has wellFormed₀ member rfl dest (by simp [Terminator.successors])
  let node : BasicBlock V M := ⟨f.nextBlock, [], [], .br dest⟩
  obtain ⟨f₁, rewrites, next, rewritten⟩ := rewriteIncoming_rewritten f.next
    (insertBefore_perm node dest f.blocks) (setTerminator_fresh wellFormed₀ hasDest).symm
    (setTerminator_entries wellFormed₀ member rfl (by simp [Terminator.successors]))
  have belowSwitch : (Terminator.switch (M := M) condition cases f.nextBlock).Below f.next := below
  have splits : Splits f (f₁.setTerminator b.name (.switch condition cases f.nextBlock))
      (b.ending b.name (.switch condition cases dest)) (.switch condition cases f.nextBlock) node
      dest := by
    have split : Splits (f.setTerminator b.name (.switch condition cases dest))
        (f₁.setTerminator b.name (.switch condition cases f.nextBlock))
        (b.ending b.name (.switch condition cases dest)) (.switch condition cases f.nextBlock) node
        dest := by
      apply rewritten.splits member rfl rfl _ (Nat.le_of_eq next.symm) rfl _ belowSwitch
      · exact .swap _ _ _
      · exact mem_cons_self
      · simp [node, Terminator.successors]
      · intro other isBlock isSuccessor notDest
        exact absurd (by simpa [node, Terminator.successors] using isSuccessor) notDest
      · exact (setTerminator_fresh wellFormed₀ ⟨b, member, rfl⟩).symm
      · exact ⟨by rintro _ ⟨⟩, by rintro _ ⟨⟩, trivial⟩
    rw [same] at split
    exact split
  have wellFormed₁ := splits.preserves wellFormed
  have refines₁ : Refines booleans _ _ := splits.refines wellFormed (by
    rw [ending_terminator, if_pos rfl]
    exact defaultNode_continues)
  have has₁ : f₁.Has b.name := Function.has_setTerminator.mp (splits.has_iff.mpr (.inr ⟨b, member, rfl⟩))
  obtain ⟨curHead, f₂, converts, has₂, -, within, wellFormed₂, refines₂⟩ := switchConvert_spec
    cases.reverse f₁ f.nextBlock (by rw [reverse_reverse]; exact wellFormed₁) has₁
    (next ▸ below) (splits.plain_node wellFormed) (by
      intro it member'
      apply setTerminator_fresh wellFormed₀
      apply setTerminator_has wellFormed₀ member rfl
      exact mem_cons_of_mem _ (mem_map_of_mem (mem_reverse.mp member')))
  rw [reverse_reverse] at refines₂
  obtain ⟨b₂, member₂, name₂⟩ := Function.has_setTerminator.mpr has₂
  have ending₂ : b₂.terminator = .switch condition [] curHead := by
    obtain ⟨other, -, rfl⟩ := mem_map.mp member₂
    rw [← BasicBlock.ending, ending_name] at name₂
    rw [← BasicBlock.ending, ending_terminator, if_pos name₂]
  have belowBr : (Terminator.br (V := V) (M := M) curHead).Below (f₂.setTerminator b.name (.switch condition [] curHead)).next := trivial
  have ended : _ ∧ Refines booleans _ _ := setTerminator_refines wellFormed₂ member₂ belowBr
    (by rw [ending₂]; rfl) (by rw [ending₂]; exact fun _ => rfl)
  obtain ⟨wellFormed₃, refines₃⟩ := ended
  rw [name₂, Function.setTerminator_again] at wellFormed₃ refines₃
  refine ⟨_, ?_, wellFormed₃, (refines₁.trans refines₂ wellFormed₁).trans refines₃ wellFormed₂, ?_⟩
  · have step : processSwitchInst booleans f b.name condition cases dest =
        (Function.rewriteIncoming ⟨insertBefore node dest f.blocks, f.next, f.nextBlock + 1⟩ dest b.name node.name).bind fun f =>
            (switchConvert booleans condition b.name cases.reverse node.name f).bind
              fun result => some (result.2.setTerminator b.name (.br result.1)) := rfl
    rw [step, rewrites, Option.bind_some, converts]
    rfl
  · intro b' member' switches
    obtain ⟨other, isBlock, rfl⟩ := mem_map.mp member'
    rw [← BasicBlock.ending, ending_name]
    split at switches
    · exact switches.elim
    · rename_i notOrig
      exact ⟨notOrig, (rewritten.switchesWithin id).trans within other isBlock switches⟩

theorem processBlocks_spec (booleans : Booleans V) (names : List Nat) :
    ∀ (changed : Bool) (f : Function V M), f.WellFormed → (∀ cur ∈ names, f.Has cur) →
      (∀ b ∈ f.blocks, b.terminator.IsSwitch → b.name ∈ names) →
      ∃ changed' f', names.foldlM (fun (changed, f) cur => processBlock booleans changed f cur)
          (changed, f) = some (changed', f') ∧
        f'.WellFormed ∧ Refines booleans f f' ∧ (∀ b ∈ f'.blocks, ¬ b.terminator.IsSwitch) ∧
        (changed' = true ↔ changed = true ∨ ∃ b ∈ f.blocks, b.terminator.IsSwitch) := by
  induction names with
  | nil =>
    intro changed f wellFormed _ switches
    have plain : ∀ b ∈ f.blocks, ¬ b.terminator.IsSwitch := fun b member isSwitch => nomatch switches b member isSwitch
    refine ⟨changed, f, rfl, wellFormed, Refines.refl wellFormed, plain, ?_⟩
    exact (or_iff_left fun ⟨b, member, isSwitch⟩ => plain b member isSwitch).symm
  | cons cur names ih =>
    intro changed f wellFormed has switches
    obtain ⟨b, member, rfl⟩ := has cur mem_cons_self
    have found : f.block? b.name = some b := (Function.block?_eq_some wellFormed.names).mpr ⟨member, rfl⟩
    rw [foldlM_cons]
    dsimp only
    by_cases isSwitch : b.terminator.IsSwitch
    · obtain ⟨condition, cases, dest, ending⟩ := isSwitch.exists_eq
      obtain ⟨f₁, processed, wellFormed₁, refines₁, switches₁⟩ := processSwitchInst_spec booleans wellFormed member ending
      obtain ⟨changed', f', folded, wellFormed', refines', plain', isChanged⟩ :=
        ih true f₁ wellFormed₁ (fun other later => refines₁.has other (has other (mem_cons_of_mem _ later))) (by
            intro b' member' isSwitch
            obtain ⟨different, old, isOld, name, wasSwitch⟩ := switches₁ b' member' isSwitch
            have listed := switches old isOld wasSwitch
            rw [name, mem_cons] at listed
            exact listed.resolve_left different)
      refine ⟨changed', f', ?_, wellFormed', refines₁.trans refines' wellFormed₁, plain', ?_⟩
      · have step : processBlock booleans changed f b.name = some (true, f₁) := by
          rw [processBlock, found, Option.map_some, ending]
          dsimp only
          rw [processed]
          rfl
        rw [step]
        exact folded
      · rw [isChanged]
        exact iff_of_true (.inl rfl) (.inr ⟨b, member, isSwitch⟩)
    · obtain ⟨changed', f', folded, rest⟩ := ih changed f wellFormed (fun other later => has other (mem_cons_of_mem _ later)) (by
          intro other isBlock switch
          have listed := switches other isBlock switch
          rw [mem_cons] at listed
          apply listed.resolve_left
          intro same
          rw [inj_on_of_nodup_map wellFormed.names isBlock member same] at switch
          exact isSwitch switch)
      have step : processBlock booleans changed f b.name = some (changed, f) := by
        rw [processBlock, found, Option.map_some]
        cases ending : b.terminator with
        | switch condition cases dest => exact absurd (by rw [ending]; trivial) isSwitch
        | br dest => rfl
        | condBr condition ifTrue ifFalse => rfl
        | other operands successors branch => rfl
      rw [step]
      exact ⟨changed', f', folded, rest⟩

/-- `LowerSwitchPass`: no switch is left, every PHI node has one entry for each incoming
edge, and the function does what it did. -/
theorem runOnFunction_refines (booleans : Booleans V) (f : Function V M)
    (wellFormed : f.WellFormed) :
    ∃ changed f', runOnFunction booleans f = some (changed, f') ∧ f'.WellFormed ∧
      Refines booleans f f' ∧ (∀ b ∈ f'.blocks, ¬ b.terminator.IsSwitch) ∧
      (changed = true ↔ ∃ b ∈ f.blocks, b.terminator.IsSwitch) := by
  obtain ⟨changed, f', folded, wellFormed', refines, plain, isChanged⟩ :=
    processBlocks_spec booleans (f.blocks.map BasicBlock.name) false f wellFormed
      (fun cur member => mem_map.mp member) fun b member _ => mem_map_of_mem member
  exact ⟨changed, f', folded, wellFormed', refines, plain, by simpa using isChanged⟩

end Chain

section Example

def numberBooleans : Booleans Nat where
  ofBool bit := bit.toNat
  isTrue value := value == 1
  isTrue_ofBool := by decide

def switching : Function Nat Unit where
  blocks :=
    [⟨0, [], [], .switch (.register 0) [(1, 1), (2, 1), (3, 2)] 2⟩,
      ⟨1, [⟨1, [(0, .constant 10), (0, .constant 10)]⟩], [], .br 2⟩,
      ⟨2, [⟨2, [(0, .constant 20), (1, .register 1), (0, .constant 20)]⟩], [],
        .other [] [] fun _ _ => none⟩]
  next := 3
  nextBlock := 3

theorem switching_wellFormed : switching.WellFormed where
  names := by decide
  fresh := by simp [switching]
  closed := by simp [switching, Terminator.successors, Function.Has]
  entries := by
    intro b member phi isPhi src
    simp only [switching, mem_cons, not_mem_nil, or_false] at member
    obtain rfl | rfl | rfl := member
    · cases isPhi
    · cases mem_singleton.mp isPhi
      rcases src with _ | _ | _ | src <;> rfl
    · cases mem_singleton.mp isPhi
      rcases src with _ | _ | _ | src <;> rfl
  unambiguous := by
    intro b member phi isPhi
    simp only [switching, mem_cons, not_mem_nil, or_false] at member
    obtain rfl | rfl | rfl := member
    · cases isPhi
    · cases mem_singleton.mp isPhi
      intro block v w
      simp +contextual
    · cases mem_singleton.mp isPhi
      intro block v w memberV memberW
      grind
  below := by
    intro b member
    simp only [switching, mem_cons, not_mem_nil, or_false] at member
    obtain rfl | rfl | rfl := member
    · exact ⟨by simp, by simp, Nat.zero_lt_succ 2⟩
    · refine ⟨?_, by simp, trivial⟩
      simp [Value.Below, switching]
    · refine ⟨?_, by simp, by rintro _ ⟨⟩⟩
      intro phi isPhi
      cases mem_singleton.mp isPhi
      refine ⟨Nat.lt_succ_self 2, fun entry isEntry => ?_⟩
      simp only [mem_cons, not_mem_nil, or_false] at isEntry
      obtain rfl | rfl | rfl := isEntry
      · trivial
      · exact Nat.succ_lt_succ (Nat.zero_lt_succ 1)
      · trivial

theorem runOnFunction_refines_sample :
    ∃ changed f', runOnFunction numberBooleans switching = some (changed, f') ∧ f'.WellFormed ∧
      Refines numberBooleans switching f' ∧ (∀ b ∈ f'.blocks, ¬ b.terminator.IsSwitch) ∧
      (changed = true ↔ ∃ b ∈ switching.blocks, b.terminator.IsSwitch) :=
  runOnFunction_refines numberBooleans switching switching_wellFormed

end Example

end NeuroMerge.Module.LowerSwitch
