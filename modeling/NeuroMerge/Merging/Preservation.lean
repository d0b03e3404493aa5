import NeuroMerge.Merging.Validity

/-!
# The operations keep the invariant

One lemma for each operation on the scheduling state: the invariant holds
afterwards, and what else the operation changed.
-/

namespace NeuroMerge.Merging.Config

open List Function

variable {σ τ : Type} {env : Env σ τ} {delete : Config σ τ → StateId → Except Fault (Config σ τ)}

def withHandlers (c : Config σ τ) (handlers : HandlerId → Option MergeHandler)
    (mergeGroups : List HandlerId) : Config σ τ :=
  { c with handlers, mergeGroups }

theorem Scheduled.withHandlers {c : Config σ τ} (scheduled : Scheduled c)
    (handlers : HandlerId → Option MergeHandler) (groups : List HandlerId) : Scheduled (c.withHandlers handlers groups) :=
  ⟨scheduled.allocated, scheduled.known, scheduled.addedOnce, scheduled.addedApart,
    scheduled.heldOnce, scheduled.pausedOnce, scheduled.apart, scheduled.closing⟩

theorem Moves.withHandlers {c c' : Config σ τ} {handlers : HandlerId → Option MergeHandler}
    {groups : List HandlerId} (moves : Moves (c.withHandlers handlers groups) c')
    (handlersAfter : HandlerId → Option MergeHandler) (groupsAfter : List HandlerId) :
    Moves c (c'.withHandlers handlersAfter groupsAfter) :=
  ⟨moves.states, moves.addedStates, moves.openMergeMap, moves.closeMergeSet, moves.nextState,
    moves.nextHandler, moves.stack, moves.prevPC, moves.allocated, moves.paused, moves.held,
    moves.events, moves.requested⟩

variable {id : HandlerId}

theorem Settled.of_same {c c' : Config σ τ} (settled : Settled env c id)
    (sameHeap : c'.heap = c.heap) (sameMemory : c'.memory = c.memory) (sameCache : c'.mergeDecisionCache = c.mergeDecisionCache)
    (sameReached : (c'.handlers id).map (·.reachedCloseMerge) = (c.handlers id).map (·.reachedCloseMerge)) : Settled env c' id := by
  intro handler present group member mState first state second different target source memory contents able
  rw [present, Option.map_some, eq_comm, Option.map_eq_some_iff] at sameReached
  obtain ⟨before, found, reached⟩ := sameReached
  rw [← reached] at member
  refine settled before found group member mState first state second different target source
    memory contents ⟨?_, ?_, able.samePC, ?_, ?_, ?_⟩
  · rw [← sameHeap]
    exact able.targetState
  · rw [← sameHeap]
    exact able.sourceState
  · rw [← sameMemory]
    exact able.mergeable
  · simpa only [decision, sameCache] using able.decided
  · rw [← sameMemory]
    exact able.merged

theorem Waits.of_same {c c' : Config σ τ} (waits : Waits c) (waiting : ∀ id, c'.waiting id = c.waiting id)
    (paused : ∀ state, state ∈ c'.pausedStates ↔ state ∈ c.pausedStates) : Waits c' := by
  refine ⟨?_, ?_, ?_⟩
  · intro id
    rw [waiting]
    exact waits.once id
  · intro id other different state member
    rw [waiting] at member ⊢
    exact waits.elsewhere id other different state member
  · intro state
    rw [paused, waits.paused]
    simp only [waiting]

variable {pending : List HandlerId} {handler : MergeHandler}

theorem Owned.unreferenced {c : Config σ τ} (owned : Owned (id :: pending) c)
    (present : c.handlers id = some handler) (last : handler.refCount - 1 = 0) :
    handler.openStates = [] ∧ id ∉ pending ∧ ∀ state, id ∉ c.stack state := by
  have counted := owned.counted id handler present
  rw [count_cons_self] at counted
  have noneOpen : handler.openStates = [] := length_eq_zero_iff.mp (by omega)
  refine ⟨noneOpen, count_eq_zero.mp (by omega), ?_⟩
  intro state
  have mirrored := owned.mirrored id handler present state
  rw [noneOpen, count_nil] at mirrored
  exact count_eq_zero.mp mirrored.symm

theorem Owned.destroy {c c' : Config σ τ} (owned : Owned (id :: pending) c)
    (unreferenced : id ∉ pending) (offStacks : ∀ state, id ∉ c.stack state)
    (sameStack : ∀ state, c'.stack state = c.stack state) (handlers : c'.handlers = update c.handlers id none)
    (groups : c'.mergeGroups = swapRemove c.mergeGroups id) (next : c'.nextHandler = c.nextHandler) : Owned pending c' := by
  have others : ∀ other handler, c'.handlers other = some handler → other ≠ id ∧ c.handlers other = some handler := by
    intro other handler present
    rw [handlers] at present
    by_cases same : other = id
    · simp [same] at present
    · rw [update_of_ne same] at present
      exact ⟨same, present⟩
  have live : ∀ other, other ≠ id → (c'.handlers other).isSome = (c.handlers other).isSome := by
    intro other different
    rw [handlers, update_of_ne different]
  refine ⟨?_, ?_, ?_, ?_, ?_, ?_, ?_⟩
  · intro other handler present state
    rw [sameStack]
    exact owned.mirrored other handler (others other handler present).2 state
  · intro other handler present
    obtain ⟨different, before⟩ := others other handler present
    rw [owned.counted other handler before, count_cons_of_ne different.symm]
  · rw [groups]
    exact nodup_swapRemove owned.registeredOnce
  · intro other
    rw [groups, mem_swapRemove_iff owned.registeredOnce, owned.registered, handlers]
    by_cases same : other = id
    · simp [same]
    · simp [same]
  · intro state other member
    rw [sameStack] at member
    have different : other ≠ id := by
      rintro rfl
      exact offStacks state member
    rw [live other different]
    exact owned.stackLive state other member
  · intro other member
    have different : other ≠ id := by
      rintro rfl
      exact unreferenced member
    rw [live other different]
    exact owned.pendingLive other (by simp [member])
  · intro other present
    obtain ⟨handler, found⟩ := Option.isSome_iff_exists.mp present
    rw [next]
    exact owned.handlerKnown other (by simp [(others other handler found).2])

/-- A handler that has no open states could be destroyed without a merge. -/
def EmptySettled (env : Env σ τ) (c : Config σ τ) : Prop :=
  ∀ id handler, c.handlers id = some handler → handler.openStates = [] → Settled env c id

theorem destroyHandler_spec {c : Config σ τ} (valid : Valid (id :: pending) c)
    (present : c.handlers id = some handler) (last : handler.refCount - 1 = 0) :
    Satisfies Tolerated
      (fun c' => Valid pending c' ∧ Moves c c' ∧ (Settled env c id → Calm env c c'))
      (destroyHandler env delete (c.setHandler id (some { handler with refCount := handler.refCount - 1 })) id) := by
  obtain ⟨owned, scheduled, waits⟩ := valid
  obtain ⟨noneOpen, unreferenced, offStacks⟩ := owned.unreferenced present last
  refine satisfies_require ?_ fun registered => ?_
  · exact fun missing => absurd ((owned.registered id).mpr (by simp [present])) missing
  have before := scheduled.withHandlers (update c.handlers id (some { handler with refCount := handler.refCount - 1 }))
    (swapRemove c.mergeGroups id)
  change Satisfies Tolerated _ (releaseStates env delete (c.withHandlers _ _) id >>= _)
  refine .bind (releaseStates_spec before.heldOnce before.pausedOnce before.apart
    fun state paused added => (before.addedApart state added).2.2 paused) ?_
  rintro released ⟨dying, pairs, release⟩
  have moves := release.moves before.pausedOnce
  have dead : update released.handlers id none = update c.handlers id none := by
    rw [release.handlers]
    simp [Config.withHandlers]
  refine ⟨⟨?_, ?_, ?_⟩, moves.withHandlers _ _, ?_⟩
  · refine owned.destroy unreferenced offStacks moves.stack dead ?_ moves.nextHandler
    rw [release.frame]
    rfl
  · exact (release.scheduled before).withHandlers _ _
  · refine (release.waits before (waits.of_same ?_ fun _ => .rfl)).of_same ?_ fun _ => .rfl
    · intro other
      by_cases same : other = id
      · subst same
        simp [waiting, Config.withHandlers, present, MergeHandler.waiting]
      · simp [waiting, Config.withHandlers, update_of_ne same]
    · intro other
      simp only [waiting, setHandler_handlers]
      by_cases same : other = id
      · subst same
        rw [release.handlers]
        simp [MergeHandler.waiting]
      · rw [update_of_ne same]
  · intro settled
    have calm := release.calm (settled.of_same rfl rfl rfl (by simp [Config.withHandlers, present]))
    refine ⟨calm.memory, calm.decision, calm.heap, ?_, calm.removed⟩
    intro other after presentAfter
    rw [setHandler_handlers] at presentAfter
    by_cases same : other = id
    · simp [same] at presentAfter
    · rw [update_of_ne same] at presentAfter
      obtain ⟨found, foundPresent, facts⟩ := calm.reached other after presentAfter
      refine ⟨found, ?_, facts⟩
      simpa [Config.withHandlers, update_of_ne same] using foundPresent

theorem decRef_spec {c : Config σ τ} (valid : Valid (id :: pending) c) :
    Satisfies Tolerated (fun c' => Valid pending c' ∧ Moves c c' ∧ (EmptySettled env c → Calm env c c')) (decRef env delete c id) := by
  refine satisfies_handler fun handler present => ?_
  split
  case isTrue last =>
    refine (destroyHandler_spec valid present last).mono ?_
    rintro c' ⟨validAfter, moves, calm⟩
    exact ⟨validAfter, moves, fun settled => calm (settled id handler present (valid.owned.unreferenced present last).1)⟩
  case isFalse more =>
    have counted := valid.owned.counted id handler present
    rw [count_cons_self] at counted
    have listed : ∀ other found, (c.setHandler id (some { handler with
        refCount := handler.refCount - 1 })).handlers other = some found → ∃ before,
        c.handlers other = some before ∧ found.openStates = before.openStates ∧
        found.reachedCloseMerge = before.reachedCloseMerge ∧
        found.refCount = before.openStates.length + pending.count other := by
      intro other found foundPresent
      rw [setHandler_handlers] at foundPresent
      by_cases same : other = id
      · subst same
        rw [update_self, Option.some.injEq] at foundPresent
        subst foundPresent
        exact ⟨handler, present, rfl, rfl, by simp only; omega⟩
      · rw [update_of_ne same] at foundPresent
        have count := valid.owned.counted other found foundPresent
        rw [count_cons_of_ne (Ne.symm same)] at count
        exact ⟨found, foundPresent, rfl, rfl, count⟩
    have live : ∀ other, ((c.setHandler id (some { handler with
        refCount := handler.refCount - 1 })).handlers other).isSome =
        (c.handlers other).isSome := by
      intro other
      rw [setHandler_handlers]
      by_cases same : other = id
      · simp [same, present]
      · rw [update_of_ne same]
    refine ⟨⟨⟨?_, ?_, valid.owned.registeredOnce, ?_, ?_, ?_, ?_⟩,
      valid.scheduled.withHandlers _ _, valid.waits.of_same ?_ fun _ => .rfl⟩,
      (Moves.refl c).withHandlers _ _, fun _ => ⟨rfl, fun _ => rfl, fun _ => .inl rfl, ?_, rfl⟩⟩
    · intro other found foundPresent state
      obtain ⟨before, beforePresent, sameOpen, _⟩ := listed other found foundPresent
      rw [sameOpen]
      exact valid.owned.mirrored other before beforePresent state
    · intro other found foundPresent
      obtain ⟨before, beforePresent, sameOpen, _, count⟩ := listed other found foundPresent
      rw [sameOpen, count]
    · intro other
      rw [live]
      exact valid.owned.registered other
    · intro state other member
      rw [live]
      exact valid.owned.stackLive state other member
    · intro other member
      rw [live]
      exact valid.owned.pendingLive other (by simp [member])
    · intro other found
      rw [live] at found
      exact valid.owned.handlerKnown other found
    · intro other
      simp only [waiting, setHandler_handlers]
      by_cases same : other = id
      · subst same
        simp [present, MergeHandler.waiting]
      · rw [update_of_ne same]
    · intro other after presentAfter
      obtain ⟨before, beforePresent, sameOpen, sameReached, _⟩ := listed other after presentAfter
      exact ⟨before, beforePresent, .inl sameReached, fun state member => .inl (by rwa [sameOpen])⟩

theorem Owned.open_allocated {c : Config σ τ} (owned : Owned pending c)
    (present : c.handlers id = some handler) {state : StateId} (member : state ∈ handler.openStates) : (c.heap state).isSome := by
  have count := owned.mirrored id handler present state
  have positive := count_pos_iff.mpr member
  cases absent : c.heap state with
  | none => simp [stack, absent] at count; omega
  | some es => rfl

theorem EmptySettled.of_calm {c c' : Config σ τ} (settled : EmptySettled env c)
    (owned : Owned pending c) (allocated : ∀ state, (c'.heap state).isSome = (c.heap state).isSome)
    (calm : Calm env c c') : EmptySettled env c' := by
  intro id after present noneOpen
  obtain ⟨before, beforePresent, _, stillOpen⟩ := calm.reached id after present
  refine calm.settled (settled id before beforePresent ?_)
  rw [eq_nil_iff_forall_not_mem]
  intro state member
  rcases stillOpen state member with still | deleted
  · simp [noneOpen] at still
  · have existed := owned.open_allocated beforePresent member
    rw [← allocated, deleted] at existed
    cases existed

theorem decRefs_spec :
    ∀ {c : Config σ τ}, Valid pending c →
      Satisfies Tolerated
        (fun c' => Valid [] c' ∧ Moves c c' ∧ (EmptySettled env c → Calm env c c')) (pending.foldlM (decRef env delete) c) := by
  induction pending with
  | nil => exact fun valid => ⟨valid, .refl _, fun _ => .refl _⟩
  | cons id pending ih =>
    intro c valid
    refine (decRef_spec valid).bind ?_
    rintro middle ⟨validMiddle, moves, calm⟩
    refine (ih validMiddle).mono ?_
    rintro c' ⟨validAfter, moreMoves, moreCalm⟩
    refine ⟨validAfter, moves.trans moreMoves, fun settled => ?_⟩
    exact (calm settled).trans (moreCalm (settled.of_calm valid.owned moves.allocated (calm settled)))

/-- `state` left the region of every handler in `left`, as often as it is there. -/
structure Left (state : StateId) (left : List HandlerId) (c c' : Config σ τ) : Prop where
  frame : c' = c.withHandlers c'.handlers c.mergeGroups
  live : ∀ id, (c'.handlers id).isSome = (c.handlers id).isSome
  handler : ∀ id before, c.handlers id = some before → ∃ remaining,
    c'.handlers id = some { before with openStates := remaining } ∧
    (∀ other, remaining.count other + (if other = state then left.count id else 0) =
      before.openStates.count other) ∧
    remaining.length + left.count id = before.openStates.length

theorem removeOpenStates_spec {c : Config σ τ} {state : StateId} {opened : List HandlerId}
    (mirrored : ∀ id handler, c.handlers id = some handler →
      handler.openStates.count state = opened.count id) (live : ∀ id ∈ opened, (c.handlers id).isSome) :
    Satisfies Tolerated (Left state opened c) (opened.foldlM (fun c id => c.removeOpenState id state) c) := by
  refine .foldlM (fun seen c' => Left state seen c c')
    ⟨rfl, fun _ => rfl, fun id before present => ⟨before.openStates, present, by simp, by simp⟩⟩ ?_
  intro seen id remaining c' split left
  obtain ⟨before, present⟩ := Option.isSome_iff_exists.mp (live id (by simp [split]))
  obtain ⟨opens, presentAfter, counts, length⟩ := left.handler id before present
  refine satisfies_handler fun found foundPresent => ?_
  obtain rfl := Option.some.inj (presentAfter.symm.trans foundPresent)
  have inside : state ∈ opens := by
    have count := counts state
    rw [if_pos rfl, mirrored id before present, split, count_append, count_cons_self] at count
    exact count_pos_iff.mp (by omega)
  refine satisfies_require (fun outside => absurd inside outside) fun _ => ?_
  refine ⟨?_, ?_, ?_⟩
  · simp only [setHandler]
    rw [left.frame]
    rfl
  · intro other
    rw [setHandler_handlers]
    by_cases same : other = id
    · simp [same, present]
    · rw [update_of_ne same, left.live]
  · intro other original originalPresent
    by_cases same : other = id
    · subst same
      obtain rfl := Option.some.inj (present.symm.trans originalPresent)
      refine ⟨swapRemove opens state, by simp, ?_, ?_⟩
      · intro someone
        rw [count_swapRemove, ← counts someone]
        by_cases here : someone = state
        · subst here
          have positive := count_pos_iff.mpr inside
          simp only [count_erase_self, if_true, count_append, count_singleton_self]
          omega
        · rw [count_erase_of_ne here]
          simp [here]
      · have shorter := length_swapRemove inside
        simp only [count_append, count_singleton_self]
        omega
    · obtain ⟨stays, found, facts⟩ := left.handler other original originalPresent
      refine ⟨stays, by simp [update_of_ne same, found], ?_⟩
      have elsewhere : [id].count other = 0 := by simp [Ne.symm same]
      simpa [count_append, elsewhere] using facts

def discard (c : Config σ τ) (state : StateId) : Config σ τ :=
  (c.setState state none).record (.deleted state)

theorem discard_stack (c : Config σ τ) (state other : StateId) :
    (c.discard state).stack other = if other = state then [] else c.stack other := by
  simp only [stack, discard, record, setState_heap]
  split
  case isTrue same => simp [same]
  case isFalse different => rw [update_of_ne different]

namespace Left

variable {c c' : Config σ τ} {state : StateId} {opened : List HandlerId}

section

variable (left : Left state opened c c')
include left

theorem lookup {after : MergeHandler} (present : c'.handlers id = some after) :
    ∃ before, c.handlers id = some before ∧ after = { before with openStates := after.openStates } ∧
      (∀ other, after.openStates.count other + (if other = state then opened.count id else 0) = before.openStates.count other) ∧
      after.openStates.length + opened.count id = before.openStates.length := by
  have existed := left.live id
  rw [present] at existed
  obtain ⟨before, beforePresent⟩ := Option.isSome_iff_exists.mp existed.symm
  obtain ⟨remaining, found, counts, length⟩ := left.handler id before beforePresent
  obtain rfl := Option.some.inj (present.symm.trans found)
  exact ⟨before, beforePresent, rfl, counts, length⟩

theorem waiting (id : HandlerId) : c'.waiting id = c.waiting id := by
  cases present : c'.handlers id with
  | none =>
    have existed := left.live id
    rw [present, Option.isSome_none, eq_comm, Option.isSome_eq_false_iff, Option.isNone_iff_eq_none] at existed
    simp [Config.waiting, present, existed]
  | some after =>
    obtain ⟨before, beforePresent, same, _⟩ := left.lookup present
    rw [waiting_eq present, waiting_eq beforePresent, same]
    rfl

theorem owned (owned : Owned [] c) (sameStack : c.stack state = opened) :
    Owned opened ((c'.setState state none).record (.deleted state)) := by
  have stackAfter := c'.discard_stack state
  have sameHeap : ∀ other, c'.stack other = c.stack other := by
    intro other
    rw [left.frame]
    rfl
  refine ⟨?_, ?_, ?_, ?_, ?_, ?_, ?_⟩
  · intro id after present other
    obtain ⟨before, beforePresent, _, counts, _⟩ := left.lookup present
    have mirrored := owned.mirrored id before beforePresent other
    rw [← counts other] at mirrored
    change _ = ((c'.discard state).stack other).count id
    rw [stackAfter]
    split at mirrored
    case isTrue same =>
      subst same
      rw [sameStack] at mirrored
      rw [if_pos rfl, count_nil]
      omega
    case isFalse different =>
      rw [if_neg different, sameHeap]
      exact mirrored
  · intro id after present
    obtain ⟨before, beforePresent, same, _, length⟩ := left.lookup present
    have counted := owned.counted id before beforePresent
    rw [count_nil] at counted
    have sameCount : after.refCount = before.refCount := by rw [same]
    omega
  · change c'.mergeGroups.Nodup
    rw [left.frame]
    exact owned.registeredOnce
  · intro id
    change id ∈ c'.mergeGroups ↔ (c'.handlers id).isSome
    rw [left.live, ← owned.registered, left.frame]
    rfl
  · intro other id member
    change id ∈ (c'.discard state).stack other at member
    change (c'.handlers id).isSome
    rw [left.live]
    rw [stackAfter] at member
    split at member
    · simp at member
    · rw [sameHeap] at member
      exact owned.stackLive other id member
  · intro id member
    change (c'.handlers id).isSome
    rw [left.live]
    exact owned.stackLive state id (by rwa [sameStack])
  · intro id present
    change (c'.handlers id).isSome at present
    rw [left.live] at present
    rw [left.frame]
    exact owned.handlerKnown id present

theorem calm : Calm env c ((c'.setState state none).record (.deleted state)) := by
  have sameHeap : c'.heap = c.heap := by rw [left.frame]; rfl
  refine ⟨?_, ?_, ?_, ?_, ?_⟩
  · change c'.memory = c.memory
    rw [left.frame]
    rfl
  · intro inst
    rw [left.frame]
    rfl
  · intro other
    simp only [record, setState_heap, sameHeap]
    by_cases same : other = state
    · exact .inr (by simp [same])
    · exact .inl (update_of_ne same _ _)
  · intro id after present
    obtain ⟨before, beforePresent, same, counts, _⟩ := left.lookup present
    refine ⟨before, beforePresent, .inl (by rw [same]), ?_⟩
    intro other member
    by_cases here : other = state
    · exact .inr (by simp [record, here])
    · have count := counts other
      rw [if_neg here] at count
      have positive := count_pos_iff.mpr member
      exact .inl (count_pos_iff.mp (by omega))
  · change c'.removedStates = c.removedStates
    rw [left.frame]
    rfl

end

end Left

/-- Deleting `state` merges nothing if the handlers that it alone keeps alive are
settled. -/
def AloneSettled (env : Env σ τ) (c : Config σ τ) (state : StateId) : Prop :=
  ∀ id handler, c.handlers id = some handler → (∀ other ∈ handler.openStates, other = state) →
    Settled env c id

theorem deleteState_spec {depth : Nat} {c : Config σ τ} {state : StateId} (owned : Owned [] c)
    (scheduled : Scheduled (c.discard state)) (waits : Waits c) :
    Satisfies Tolerated
      (fun c' => Valid [] c' ∧ Moves (c.discard state) c' ∧
        (AloneSettled env c state → Calm env c c')) (deleteState env (depth + 1) c state) := by
  refine satisfies_deref fun es present => ?_
  have sameStack := stack_eq present
  refine .bind (removeOpenStates_spec ?_ ?_) ?_
  · intro id handler found
    rw [owned.mirrored id handler found, sameStack]
  · intro id member
    exact owned.stackLive state id (by rwa [sameStack])
  · intro c₁ left
    have frame : (c₁.setState state none).record (.deleted state) = (c.discard state).withHandlers c₁.handlers c.mergeGroups := by
      rw [left.frame]
      rfl
    have valid : Valid es.openMergeStack ((c₁.setState state none).record (.deleted state)) := by
      refine ⟨left.owned owned sameStack, ?_, ?_⟩
      · rw [frame]
        exact scheduled.withHandlers _ _
      · refine waits.of_same left.waiting ?_
        intro other
        rw [frame]
        rfl
    refine (decRefs_spec valid).mono ?_
    rintro c' ⟨validAfter, moves, calm⟩
    refine ⟨validAfter, ?_, ?_⟩
    · rw [frame] at moves
      exact moves.withHandlers _ _
    · intro settled
      refine (left.calm).trans (calm ?_)
      intro id after presentAfter noneOpen
      obtain ⟨before, beforePresent, _, counts, _⟩ := left.lookup presentAfter
      refine (left.calm).settled (settled id before beforePresent ?_)
      intro other member
      by_contra different
      have count := counts other
      have positive := count_pos_iff.mpr member
      rw [noneOpen, count_nil, if_neg different] at count
      omega

end NeuroMerge.Merging.Config
