import NeuroMerge.Merging.Executor
import NeuroMerge.Merging.Release

/-!
# The invariant of the scheduling state

Three invariants that every operation keeps: the open states of the handlers
mirror the stacks of the states, the executor and the searcher agree about
which states exist, and exactly the waiting states are paused. `pending` are
the references to handlers that a destructor still has to drop.
-/

namespace NeuroMerge.Merging

variable {σ τ : Type} {env : Env σ τ} {delete : Config σ τ → StateId → Except Fault (Config σ τ)}

namespace Config

def stack (c : Config σ τ) (state : StateId) : List HandlerId :=
  ((c.heap state).map (·.openMergeStack)).getD []

theorem stack_eq {c : Config σ τ} {state : StateId} {es : ExecutionState σ}
    (present : c.heap state = some es) : c.stack state = es.openMergeStack := by
  simp [stack, present]

/-- `openStates` mirrors the stacks, every reference is counted, and exactly the
live handlers are registered. -/
structure Owned (pending : List HandlerId) (c : Config σ τ) : Prop where
  mirrored : ∀ id handler, c.handlers id = some handler → ∀ state,
    handler.openStates.count state = (c.stack state).count id
  counted : ∀ id handler, c.handlers id = some handler →
    handler.refCount = handler.openStates.length + pending.count id
  registeredOnce : c.mergeGroups.Nodup
  registered : ∀ id, id ∈ c.mergeGroups ↔ (c.handlers id).isSome
  stackLive : ∀ state, ∀ id ∈ c.stack state, (c.handlers id).isSome
  pendingLive : ∀ id ∈ pending, (c.handlers id).isSome
  handlerKnown : ∀ id, (c.handlers id).isSome → id < c.nextHandler

/-- The states that exist are those the executor lists, and the base searcher
and the paused states are disjoint sets of states that existed at some time. -/
structure Scheduled (c : Config σ τ) : Prop where
  allocated : ∀ state, (c.heap state).isSome ↔ state ∈ c.states ∨ state ∈ c.addedStates
  known : ∀ state, (c.heap state).isSome ∨ state ∈ c.baseSearcher ∨ state ∈ c.pausedStates →
    state < c.nextState
  addedOnce : c.addedStates.Nodup
  addedApart : ∀ state ∈ c.addedStates,
    state ∉ c.states ∧ state ∉ c.baseSearcher ∧ state ∉ c.pausedStates
  heldOnce : c.baseSearcher.Nodup
  pausedOnce : c.pausedStates.Nodup
  apart : ∀ state ∈ c.pausedStates, state ∉ c.baseSearcher
  closing : ∀ state, state ∈ c.inCloseMerge ↔ state ∈ c.pausedStates

def waiting (c : Config σ τ) (id : HandlerId) : List StateId :=
  ((c.handlers id).map (·.waiting)).getD []

theorem waiting_eq {c : Config σ τ} {id : HandlerId} {handler : MergeHandler}
    (present : c.handlers id = some handler) : c.waiting id = handler.waiting := by
  simp [waiting, present]

/-- Exactly the paused states wait, each at one close point of one handler. -/
structure Waits (c : Config σ τ) : Prop where
  once : ∀ id, (c.waiting id).Nodup
  elsewhere : ∀ id other, id ≠ other → ∀ state ∈ c.waiting id, state ∉ c.waiting other
  paused : ∀ state, state ∈ c.pausedStates ↔ ∃ id, state ∈ c.waiting id

structure Valid (pending : List HandlerId) (c : Config σ τ) : Prop where
  owned : Owned pending c
  scheduled : Scheduled c
  waits : Waits c

end Config

def Event.Releasing : Event → Prop
  | continued _ | absorbed _ _ => True
  | _ => False

/-- The states that the merges among `events` requested to be removed. -/
def requests (events : List Event) : List StateId :=
  events.filterMap fun event => match event with
    | .absorbed _ source => some source
    | _ => none

@[simp] theorem requests_append (events more : List Event) : requests (events ++ more) = requests events ++ requests more :=
  List.filterMap_append

@[simp] theorem requests_continued (waiting : List StateId) : requests (waiting.map .continued) = [] := by
  simp [requests]

@[simp] theorem requests_absorbed (pairs : List (StateId × StateId)) :
    requests (pairs.map fun pair => .absorbed pair.1 pair.2) = pairs.map (·.2) := by
  induction pairs with
  | nil => rfl
  | cons pair pairs ih => exact congrArg (pair.2 :: ·) ih

namespace Config

/-- What dropping references to handlers can change: paused states are continued,
and some of them are merged away and requested to be removed. -/
structure Moves (c c' : Config σ τ) : Prop where
  states : c'.states = c.states
  addedStates : c'.addedStates = c.addedStates
  openMergeMap : c'.openMergeMap = c.openMergeMap
  closeMergeSet : c'.closeMergeSet = c.closeMergeSet
  nextState : c'.nextState = c.nextState
  nextHandler : c'.nextHandler = c.nextHandler
  stack : ∀ state, c'.stack state = c.stack state
  prevPC : ∀ state, (c'.heap state).map (·.prevPC) = (c.heap state).map (·.prevPC)
  allocated : ∀ state, (c'.heap state).isSome = (c.heap state).isSome
  paused : ∀ state ∈ c'.pausedStates, state ∈ c.pausedStates
  held : ∀ state, state ∈ c'.baseSearcher ↔
    state ∈ c.baseSearcher ∨ state ∈ c.pausedStates ∧ state ∉ c'.pausedStates
  events : ∃ events, c'.log = c.log ++ events ∧ (∀ event ∈ events, event.Releasing) ∧
    c'.removedStates = c.removedStates ++ requests events ∧
    ∀ state ∈ requests events, state ∈ c.pausedStates ∧ state ∉ c'.pausedStates
  requested : ∃ sources, c'.removedStates = c.removedStates ++ sources ∧ sources.Nodup ∧
    ∀ state ∈ sources, state ∈ c.pausedStates ∧ state ∉ c'.pausedStates ∧ (c.heap state).isSome

namespace Moves

theorem refl (c : Config σ τ) : Moves c c where
  states := rfl
  addedStates := rfl
  openMergeMap := rfl
  closeMergeSet := rfl
  nextState := rfl
  nextHandler := rfl
  stack _ := rfl
  prevPC _ := rfl
  allocated _ := rfl
  paused _ member := member
  held state := by simp
  events := ⟨[], by simp, by simp, by simp [requests], by simp [requests]⟩
  requested := ⟨[], by simp, .nil, nofun⟩

theorem trans {first second third : Config σ τ} (before : Moves first second) (after : Moves second third) : Moves first third where
  states := after.states.trans before.states
  addedStates := after.addedStates.trans before.addedStates
  openMergeMap := after.openMergeMap.trans before.openMergeMap
  closeMergeSet := after.closeMergeSet.trans before.closeMergeSet
  nextState := after.nextState.trans before.nextState
  nextHandler := after.nextHandler.trans before.nextHandler
  stack state := (after.stack state).trans (before.stack state)
  prevPC state := (after.prevPC state).trans (before.prevPC state)
  allocated state := (after.allocated state).trans (before.allocated state)
  paused state member := before.paused state (after.paused state member)
  held state := by
    rw [after.held, before.held]
    have earlier := before.paused state
    have later := after.paused state
    tauto
  events := by
    obtain ⟨events, log, releasing, removed, fromPaused⟩ := before.events
    obtain ⟨more, moreLog, moreReleasing, moreRemoved, moreFromPaused⟩ := after.events
    refine ⟨events ++ more, by rw [moreLog, log, List.append_assoc], ?_, ?_, ?_⟩
    · intro event member
      exact (List.mem_append.mp member).elim (releasing event) (moreReleasing event)
    · rw [moreRemoved, removed, requests_append, List.append_assoc]
    · intro state member
      rw [requests_append, List.mem_append] at member
      rcases member with early | late
      · obtain ⟨was, gone⟩ := fromPaused state early
        exact ⟨was, fun still => gone (after.paused state still)⟩
      · obtain ⟨was, gone⟩ := moreFromPaused state late
        exact ⟨before.paused state was, gone⟩
  requested := by
    obtain ⟨sources, removed, once, fromPaused⟩ := before.requested
    obtain ⟨more, moreRemoved, moreOnce, moreFromPaused⟩ := after.requested
    refine ⟨sources ++ more, by rw [moreRemoved, removed, List.append_assoc], ?_, ?_⟩
    · refine once.append moreOnce fun state early late => ?_
      exact (fromPaused state early).2.1 (moreFromPaused state late).1
    · intro state member
      rcases List.mem_append.mp member with early | late
      · obtain ⟨was, gone, existed⟩ := fromPaused state early
        exact ⟨was, fun still => gone (after.paused state still), existed⟩
      · obtain ⟨was, gone, existed⟩ := moreFromPaused state late
        exact ⟨before.paused state was, gone, before.allocated state ▸ existed⟩

end Moves

namespace Released

variable {c c' : Config σ τ} {id : HandlerId} {handler : MergeHandler} {pairs : List (StateId × StateId)}

section

variable (released : c.Released env id handler pairs c')
include released

theorem mem_paused (pausedOnce : c.pausedStates.Nodup) (state : StateId) :
    state ∈ c'.pausedStates ↔ state ∈ c.pausedStates ∧ state ∉ handler.waiting := by
  rw [released.frame]
  exact pausedOnce.mem_sdiff_iff

theorem handlers : c'.handlers = Function.update c.handlers id (some { handler with reachedCloseMerge := [] }) := by
  rw [released.frame]

theorem allocated (state : StateId) : (c'.heap state).isSome = (c.heap state).isSome := by
  have same := congrArg Option.isSome (released.absorbs.absorbed.stack state)
  simpa only [Option.isSome_map, resumed] using same

theorem moves (pausedOnce : c.pausedStates.Nodup) : Moves c c' := by
  have absorbed := released.absorbs.absorbed
  have sourcePaused : ∀ pair ∈ pairs, pair.2 ∈ c.pausedStates ∧ pair.2 ∉ c'.pausedStates := by
    intro pair merged
    obtain ⟨group, reached, _, second⟩ := released.grouped pair merged
    have waits : pair.2 ∈ handler.waiting := List.mem_flatMap.mpr ⟨group, reached, second⟩
    rw [released.mem_paused pausedOnce]
    exact ⟨released.waitingPaused _ waits, fun still => still.2 waits⟩
  refine ⟨?_, ?_, ?_, ?_, ?_, ?_, ?_, ?_, ?_, ?_, ?_, ?_, ?_⟩
  iterate 6 rw [released.frame]
  · intro state
    simp only [Config.stack, absorbed.stack state, resumed]
  · exact absorbed.prevPC
  · exact released.allocated
  · exact fun state member => ((released.mem_paused pausedOnce state).mp member).1
  · intro state
    rw [released.held, released.mem_paused pausedOnce]
    have waits := released.waitingPaused state
    tauto
  · refine ⟨handler.waiting.map .continued ++ pairs.map fun pair => .absorbed pair.1 pair.2, ?_, ?_, ?_, ?_⟩
    · rw [released.frame, List.append_assoc]
    · intro event member
      rcases List.mem_append.mp member with continued | absorbed
      · obtain ⟨state, _, rfl⟩ := List.mem_map.mp continued
        trivial
      · obtain ⟨pair, _, rfl⟩ := List.mem_map.mp absorbed
        trivial
    · rw [released.frame]
      simp
    · intro state member
      simp only [requests_append, requests_continued, requests_absorbed, List.nil_append] at member
      obtain ⟨pair, merged, rfl⟩ := List.mem_map.mp member
      exact sourcePaused pair merged
  · refine ⟨pairs.map (·.2), by rw [released.frame], ?_, ?_⟩
    · exact released.distinct.sublist (sources_sublist pairs)
    · intro state member
      obtain ⟨pair, merged, rfl⟩ := List.mem_map.mp member
      obtain ⟨was, gone⟩ := sourcePaused pair merged
      exact ⟨was, gone, released.absorbs.source_allocated pair merged⟩

theorem scheduled (scheduled : Scheduled c) : Scheduled c' := by
  have moves := released.moves scheduled.pausedOnce
  have paused := released.mem_paused scheduled.pausedOnce
  refine ⟨?_, ?_, ?_, ?_, released.heldOnce, ?_, ?_, ?_⟩
  · intro state
    rw [moves.allocated, moves.states, moves.addedStates]
    exact scheduled.allocated state
  · intro state existed
    rw [moves.nextState]
    refine scheduled.known state ?_
    rw [moves.allocated, moves.held, paused] at existed
    tauto
  · rw [moves.addedStates]
    exact scheduled.addedOnce
  · intro state member
    rw [moves.addedStates] at member
    obtain ⟨notStates, notHeld, notPaused⟩ := scheduled.addedApart state member
    rw [moves.states, moves.held, paused]
    tauto
  · rw [released.frame]
    exact scheduled.pausedOnce.diff
  · intro state member
    rw [paused] at member
    rw [released.held]
    have := scheduled.apart state member.1
    tauto
  · intro state
    rw [paused, ← scheduled.closing, released.frame]
    simp

theorem waits (scheduled : Scheduled c) (waits : Waits c) : Waits c' := by
  have waiting : ∀ other, c'.waiting other = if other = id then [] else c.waiting other := by
    intro other
    simp only [Config.waiting, released.handlers]
    split
    case isTrue same => simp [same, MergeHandler.waiting]
    case isFalse different => rw [Function.update_of_ne different]
  have before : c.waiting id = handler.waiting := waiting_eq released.handlerState
  refine ⟨?_, ?_, ?_⟩
  · intro other
    rw [waiting]
    split
    · exact List.nodup_nil
    · exact waits.once other
  · intro first second different state member
    rw [waiting] at member ⊢
    split at member
    · simp at member
    · split
      · simp
      · exact waits.elsewhere first second different state member
  · intro state
    rw [released.mem_paused scheduled.pausedOnce, waits.paused, ← before]
    constructor
    · rintro ⟨⟨other, member⟩, notHere⟩
      have different : other ≠ id := by
        rintro rfl
        exact notHere member
      exact ⟨other, by rwa [waiting, if_neg different]⟩
    · rintro ⟨other, member⟩
      rw [waiting] at member
      split at member
      · simp at member
      case isFalse different =>
        exact ⟨⟨other, member⟩, waits.elsewhere other id different state member⟩

end

end Released

theorem Owned.of_same {pending : List HandlerId} {c c' : Config σ τ} (owned : Owned pending c)
    (sameStack : ∀ state, c'.stack state = c.stack state)
    (handlers : ∀ id, (c'.handlers id).map (fun handler => (handler.openStates, handler.refCount)) =
      (c.handlers id).map fun handler => (handler.openStates, handler.refCount))
    (groups : c'.mergeGroups = c.mergeGroups) (next : c'.nextHandler = c.nextHandler) : Owned pending c' := by
  have live : ∀ id, (c'.handlers id).isSome = (c.handlers id).isSome := by
    intro id
    simpa only [Option.isSome_map] using congrArg Option.isSome (handlers id)
  have lookup : ∀ id handler, c'.handlers id = some handler → ∃ before,
      c.handlers id = some before ∧ before.openStates = handler.openStates ∧ before.refCount = handler.refCount := by
    intro id handler present
    have same := handlers id
    rw [present, Option.map_some, eq_comm, Option.map_eq_some_iff] at same
    obtain ⟨before, found, equal⟩ := same
    exact ⟨before, found, congrArg Prod.fst equal, congrArg Prod.snd equal⟩
  refine ⟨?_, ?_, by rw [groups]; exact owned.registeredOnce, ?_, ?_, ?_, ?_⟩
  · intro id handler present state
    obtain ⟨before, found, sameOpen, _⟩ := lookup id handler present
    rw [sameStack, ← sameOpen]
    exact owned.mirrored id before found state
  · intro id handler present
    obtain ⟨before, found, sameOpen, sameCount⟩ := lookup id handler present
    rw [← sameOpen, ← sameCount]
    exact owned.counted id before found
  · intro id
    rw [groups, live]
    exact owned.registered id
  · intro state id member
    rw [live]
    rw [sameStack] at member
    exact owned.stackLive state id member
  · intro id member
    rw [live]
    exact owned.pendingLive id member
  · intro id present
    rw [next]
    rw [live] at present
    exact owned.handlerKnown id present

theorem Released.owned {c c' : Config σ τ} {id : HandlerId} {handler : MergeHandler}
    {pairs : List (StateId × StateId)} {pending : List HandlerId}
    (released : c.Released env id handler pairs c') (pausedOnce : c.pausedStates.Nodup) (owned : Owned pending c) : Owned pending c' := by
  refine owned.of_same (released.moves pausedOnce).stack ?_ (by rw [released.frame]) (released.moves pausedOnce).nextHandler
  intro other
  rw [released.handlers]
  by_cases same : other = id
  · subst same
    simp [released.handlerState]
  · rw [Function.update_of_ne same]

theorem releaseStates_valid {pending : List HandlerId} {c : Config σ τ} {id : HandlerId} (valid : Valid pending c) :
    Satisfies Tolerated
      (fun c' => Valid pending c' ∧ Moves c c' ∧
        ∃ handler pairs, c.Released env id handler pairs c') (c.releaseStates env delete id) := by
  have scheduled := valid.scheduled
  refine (releaseStates_spec scheduled.heldOnce scheduled.pausedOnce scheduled.apart
    fun state paused added => (scheduled.addedApart state added).2.2 paused).mono ?_
  rintro c' ⟨handler, pairs, released⟩
  exact ⟨⟨released.owned scheduled.pausedOnce valid.owned, released.scheduled scheduled,
    released.waits scheduled valid.waits⟩, released.moves scheduled.pausedOnce,
    handler, pairs, released⟩

/-- No state that waits at the handler would be merged if it were released now. -/
def Settled (env : Env σ τ) (c : Config σ τ) (id : HandlerId) : Prop :=
  ∀ handler, c.handlers id = some handler → ∀ group ∈ handler.reachedCloseMerge,
    ∀ mState ∈ group.2, ∀ state ∈ group.2, mState ≠ state →
      ∀ target source memory contents, ¬ c.CanAbsorb env mState state target source memory contents

/-- Nothing was merged on the way from `c` to `c'`, and nothing happened that
changes what could be merged. -/
structure Calm (env : Env σ τ) (c c' : Config σ τ) : Prop where
  memory : c'.memory = c.memory
  decision : ∀ inst, c'.decision env inst = c.decision env inst
  heap : ∀ state, c'.heap state = c.heap state ∨ c'.heap state = none
  reached : ∀ id after, c'.handlers id = some after → ∃ before, c.handlers id = some before ∧
    (after.reachedCloseMerge = before.reachedCloseMerge ∨ after.reachedCloseMerge = []) ∧
    ∀ state ∈ before.openStates, state ∈ after.openStates ∨ c'.heap state = none
  removed : c'.removedStates = c.removedStates

namespace Calm

theorem refl (c : Config σ τ) : Calm env c c :=
  ⟨rfl, fun _ => rfl, fun _ => .inl rfl, fun _ after present => ⟨after, present, .inl rfl, fun _ member => .inl member⟩, rfl⟩

theorem trans {first second third : Config σ τ} (before : Calm env first second)
    (after : Calm env second third) : Calm env first third := by
  have gone : ∀ state, second.heap state = none → third.heap state = none := by
    intro state absent
    rcases after.heap state with same | deleted
    · rw [same, absent]
    · exact deleted
  refine ⟨after.memory.trans before.memory, fun inst => (after.decision inst).trans (before.decision inst), ?_, ?_,
    after.removed.trans before.removed⟩
  · intro state
    rcases before.heap state with same | deleted
    · rw [← same]
      exact after.heap state
    · exact .inr (gone state deleted)
  · intro id handler present
    obtain ⟨middle, middlePresent, middleReached, middleOpen⟩ := after.reached id handler present
    obtain ⟨original, originalPresent, reached, wereOpen⟩ := before.reached id middle middlePresent
    refine ⟨original, originalPresent, ?_, ?_⟩
    · rcases middleReached with same | cleared
      · rwa [same]
      · exact .inr cleared
    · intro state member
      rcases wereOpen state member with still | deleted
      · exact middleOpen state still
      · exact .inr (gone state deleted)

theorem canAbsorb {c c' : Config σ τ} (calm : Calm env c c') {mState state : StateId}
    {target source : ExecutionState σ} {memory : τ} {contents : σ} (able : c'.CanAbsorb env mState state target source memory contents) :
    c.CanAbsorb env mState state target source memory contents := by
  have same : ∀ other es, c'.heap other = some es → c.heap other = some es := by
    intro other es present
    rcases calm.heap other with same | deleted
    · rw [← same, present]
    · rw [deleted] at present
      cases present
  refine ⟨same _ _ able.targetState, same _ _ able.sourceState, able.samePC, ?_, ?_, ?_⟩
  · rw [← calm.memory]
    exact able.mergeable
  · rw [← calm.decision]
    exact able.decided
  · rw [← calm.memory]
    exact able.merged

theorem settled {c c' : Config σ τ} {id : HandlerId} (calm : Calm env c c') (settled : Settled env c id) : Settled env c' id := by
  intro after present group member mState first state second different target source memory contents able
  obtain ⟨before, found, reached, _⟩ := calm.reached id after present
  rcases reached with same | cleared
  · rw [same] at member
    exact settled before found group member mState first state second different target source memory contents (calm.canAbsorb able)
  · simp [cleared] at member

end Calm

theorem Absorbs.unmerged {c c' : Config σ τ} (absorbs : Absorbs env c [] c') : c'.heap = c.heap ∧ c'.memory = c.memory := by
  generalize merged : ([] : List (StateId × StateId)) = pairs at absorbs
  induction absorbs with
  | refl => exact ⟨rfl, rfl⟩
  | cache inst before ih => exact ih merged
  | merge before different able ih => simp at merged

theorem Absorbs.eq_nil {c c' : Config σ τ} {pairs : List (StateId × StateId)}
    {groups : List (KInst × List StateId)} (absorbs : Absorbs env c pairs c') (grouped : Grouped groups pairs)
    (unable : ∀ group ∈ groups, ∀ mState ∈ group.2, ∀ state ∈ group.2, mState ≠ state →
      ∀ target source memory contents, ¬ c.CanAbsorb env mState state target source memory contents) : pairs = [] := by
  induction absorbs with
  | refl => rfl
  | cache inst before ih => exact ih grouped
  | @merge pairs c' mState state target source memory contents before different able ih =>
    obtain rfl := ih fun pair member => grouped pair (by simp [member])
    obtain ⟨group, member, first, second⟩ := grouped (mState, state) (by simp)
    obtain ⟨sameHeap, sameMemory⟩ := before.unmerged
    refine absurd ?_ (unable group member mState first state second different target source memory contents)
    refine ⟨?_, ?_, able.samePC, ?_, ?_, ?_⟩
    · rw [← sameHeap]
      exact able.targetState
    · rw [← sameHeap]
      exact able.sourceState
    · rw [← sameMemory]
      exact able.mergeable
    · rw [← before.absorbed.decision]
      exact able.decided
    · rw [← sameMemory]
      exact able.merged

theorem Released.calm {c c' : Config σ τ} {id : HandlerId} {handler : MergeHandler}
    {pairs : List (StateId × StateId)} (released : c.Released env id handler pairs c') (settled : Settled env c id) : Calm env c c' := by
  obtain rfl : pairs = [] := by
    refine released.absorbs.eq_nil released.grouped ?_
    intro group member mState first state second different target source memory contents able
    exact settled handler released.handlerState group member mState first state second
      different target source memory contents ⟨able.targetState, able.sourceState, able.samePC, able.mergeable, able.decided, able.merged⟩
  obtain ⟨sameHeap, sameMemory⟩ := released.absorbs.unmerged
  refine ⟨sameMemory, released.absorbs.absorbed.decision, fun state => .inl (congrFun sameHeap state), ?_, by rw [released.frame]; simp⟩
  intro other after present
  rw [released.handlers] at present
  by_cases same : other = id
  · subst same
    rw [Function.update_self, Option.some.injEq] at present
    subst present
    exact ⟨handler, released.handlerState, .inr rfl, fun state member => .inl member⟩
  · rw [Function.update_of_ne same] at present
    exact ⟨after, present, .inl rfl, fun state member => .inl member⟩

end Config

end NeuroMerge.Merging
