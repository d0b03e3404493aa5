import NeuroMerge.Merging.Preservation

/-!
# What an instruction can do to the scheduling state

`Step` lists the single changes from which an iteration of the main loop is
composed, with all they depend on. Each operation is a sequence of steps that
keeps the invariant; what holds in every run is proved by cases on the step.
-/

namespace NeuroMerge.Merging.Config

open List Function

variable {σ τ : Type} {env : Env σ τ}

/-- The configuration after a copy of `es` was forked from `state`. -/
def spawn (c : Config σ τ) (state : StateId) (es : ExecutionState σ)
    (handlers : HandlerId → Option MergeHandler) : Config σ τ :=
  { c with
    heap := Function.update c.heap c.nextState (some es)
    handlers := handlers
    nextState := c.nextState + 1
    addedStates := c.addedStates ++ [c.nextState]
    log := c.log ++ [.forked state c.nextState] }

/-- The configuration after `state` was paused at the close point `mp` and left
the region of `id`. -/
def leave (c : Config σ τ) (state : StateId) (es : ExecutionState σ) (id : HandlerId)
    (mp : KInst) (held : List StateId) (handlers : HandlerId → Option MergeHandler) :
    Config σ τ :=
  { c with
    heap := Function.update c.heap state
      (some { es with openMergeStack := es.openMergeStack.dropLast })
    handlers := handlers
    baseSearcher := held
    pausedStates := c.pausedStates ++ [state]
    inCloseMerge := insert state c.inCloseMerge
    log := c.log ++ [.closed state id mp] }

/-- A change of the scheduling state that forks no state and leaves the stacks
alone. -/
inductive Plain (c : Config σ τ) : Config σ τ → Prop
  | moves {c'} (moves : Moves c c') : Plain c c'
  | assign {state es replacement memory} (present : c.heap state = some es)
      (sameStack : replacement.openMergeStack = es.openMergeStack)
      (samePrev : replacement.prevPC = es.prevPC) :
      Plain c { c with heap := Function.update c.heap state (some replacement), memory := memory }
  | terminate {state es} (present : c.heap state = some es) (listed : state ∈ c.states) :
      Plain c { c with
        heap := Function.update c.heap state (some { es with pc := es.prevPC })
        removedStates := c.removedStates ++ [state] }
  | discard {state c'} (added : state ∈ c.addedStates) (unlisted : state ∉ c.states)
      (moves : Moves ({ c with addedStates := c.addedStates.erase state }.discard state) c') :
      Plain c c'

/-- One change of the scheduling state during an instruction. -/
inductive Step (c : Config σ τ) : Config σ τ → Prop
  | plain {c'} (plain : Plain c c') : Step c c'
  | branch {state es handlers} (present : c.heap state = some es) :
      Step c (c.spawn state es handlers)
  | openMerge {state es handlers} (present : c.heap state = some es) :
      Step c { c with
        heap := Function.update c.heap state
          (some { es with openMergeStack := es.openMergeStack ++ [c.nextHandler] })
        handlers := handlers
        nextHandler := c.nextHandler + 1
        mergeGroups := c.mergeGroups ++ [c.nextHandler] }
  | closeMerge {state es id mp held handlers} (present : c.heap state = some es)
      (top : es.openMergeStack.getLast? = some id) (listed : state ∈ c.states)
      (running : state ∈ c.baseSearcher) (unpaused : state ∉ c.pausedStates)
      (members : ∀ other, other ∈ held ↔ other ∈ c.baseSearcher ∧ other ≠ state) :
      Step c (c.leave state es id mp held handlers)
  | maps {openMergeMap closeMergeSet} :
      Step c { c with openMergeMap := openMergeMap, closeMergeSet := closeMergeSet }
  | opened {state id closeBB} : Step c (c.record (.opened state id closeBB))

abbrev Steps : Config σ τ → Config σ τ → Prop := Relation.ReflTransGen Step

def Progress (c c' : Config σ τ) : Prop := Valid [] c' ∧ Steps c c'

/-- The part of a configuration that `Scheduled` is about, apart from the heap. -/
def schedule (c : Config σ τ) :=
  (c.states, c.addedStates, c.baseSearcher, c.pausedStates, c.inCloseMerge, c.nextState)

variable {c : Config σ τ}

theorem Scheduled.of_same {c' : Config σ τ} (scheduled : Scheduled c)
    (allocated : ∀ state, (c'.heap state).isSome = (c.heap state).isSome) (same : c'.schedule = c.schedule) : Scheduled c' := by
  simp only [schedule, Prod.mk.injEq] at same
  obtain ⟨states, added, base, paused, closing, next⟩ := same
  obtain ⟨h₁, h₂, h₃, h₄, h₅, h₆, h₇, h₈⟩ := scheduled
  constructor <;> simp only [allocated, states, added, base, paused, closing, next] <;> assumption

theorem stack_update {c' : Config σ τ} {state : StateId} {es : ExecutionState σ}
    (heap : c'.heap = update c.heap state (some es)) (other : StateId) :
    c'.stack other = if other = state then es.openMergeStack else c.stack other := by
  simp only [stack, heap]
  split
  case isTrue same => simp [same]
  case isFalse different => rw [update_of_ne different]

theorem allocated_update {c' : Config σ τ} {state : StateId} {es replacement : ExecutionState σ}
    (present : c.heap state = some es) (heap : c'.heap = update c.heap state (some replacement)) (other : StateId) :
    (c'.heap other).isSome = (c.heap other).isSome := by
  rw [heap]
  by_cases same : other = state
  · simp [same, present]
  · rw [update_of_ne same]

theorem Valid.overwrite {pending : List HandlerId} {c' : Config σ τ} {state : StateId}
    {es replacement : ExecutionState σ} (valid : Valid pending c) (present : c.heap state = some es)
    (heap : c'.heap = update c.heap state (some replacement)) (sameStack : replacement.openMergeStack = es.openMergeStack)
    (schedule : c'.schedule = c.schedule)
    (handlers : (c'.handlers, c'.mergeGroups, c'.nextHandler) = (c.handlers, c.mergeGroups, c.nextHandler)) : Valid pending c' := by
  simp only [Prod.mk.injEq] at handlers
  obtain ⟨sameHandlers, sameGroups, sameNext⟩ := handlers
  refine ⟨valid.owned.of_same ?_ (by simp [sameHandlers]) sameGroups sameNext,
    valid.scheduled.of_same (allocated_update present heap) schedule,
    valid.waits.of_same (by simp [waiting, sameHandlers]) ?_⟩
  · intro other
    rw [stack_update heap]
    split
    case isTrue same => rw [same, stack_eq present, sameStack]
    case isFalse => rfl
  · intro other
    simp only [Config.schedule, Prod.mk.injEq] at schedule
    rw [schedule.2.2.2.1]

theorem assign_plain {state : StateId} {pc : KInst} {contents : σ} {memory : τ} (valid : Valid [] c) :
    Satisfies Tolerated (fun c' => Valid [] c' ∧ Plain c c') (c.applyEffect env (.assign state pc contents memory)) := by
  refine satisfies_deref fun es present => ?_
  exact ⟨valid.overwrite present rfl rfl rfl rfl, .assign present rfl rfl⟩

theorem destroyAdded_spec {state : StateId} (valid : Valid [] c) (added : state ∈ c.addedStates) :
    Satisfies Tolerated (fun c' => Valid [] c' ∧ Moves ({ c with addedStates := c.addedStates.erase state }.discard state) c')
      (destroy env { c with addedStates := c.addedStates.erase state } state) := by
  have scheduled := valid.scheduled
  obtain ⟨notStates, notHeld, notPaused⟩ := scheduled.addedApart state added
  have stillAdded : ∀ other, other ∈ c.addedStates.erase state ↔
      other ≠ state ∧ other ∈ c.addedStates := fun other => scheduled.addedOnce.mem_erase_iff
  have freed : ∀ other, (({ c with addedStates := c.addedStates.erase state }.discard state).heap other).isSome ↔
        other ≠ state ∧ (c.heap other).isSome := by
    intro other
    simp only [discard, record, setState_heap]
    by_cases same : other = state
    · simp [same]
    · simp [same]
  have scheduledAfter : Scheduled ({ c with addedStates := c.addedStates.erase state }.discard state) := by
    refine ⟨?_, ?_, scheduled.addedOnce.erase state, ?_, scheduled.heldOnce, scheduled.pausedOnce, scheduled.apart, scheduled.closing⟩
    · intro other
      rw [freed, scheduled.allocated]
      change _ ↔ other ∈ c.states ∨ other ∈ c.addedStates.erase state
      rw [stillAdded]
      constructor
      · rintro ⟨different, existed⟩
        tauto
      · rintro (existed | ⟨different, existed⟩)
        · refine ⟨?_, .inl existed⟩
          rintro rfl
          exact notStates existed
        · exact ⟨different, .inr existed⟩
    · intro other known
      rw [freed] at known
      exact scheduled.known other (known.imp_left And.right)
    · intro other member
      exact scheduled.addedApart other ((stillAdded other).mp member).2
  refine (deleteState_spec (c := { c with addedStates := c.addedStates.erase state })
    (valid.owned.of_same (fun _ => rfl) (fun _ => rfl) rfl rfl) scheduledAfter
    (valid.waits.of_same (fun _ => rfl) fun _ => .rfl)).mono ?_
  rintro c' ⟨validAfter, moves, _⟩
  exact ⟨validAfter, moves⟩

theorem terminateState_plain {state : StateId} (valid : Valid [] c) :
    Satisfies Tolerated (fun c' => Valid [] c' ∧ Plain c c') (c.terminateState (destroy env) state) := by
  unfold terminateState
  split
  case isTrue added =>
    refine (destroyAdded_spec valid added).mono ?_
    rintro c' ⟨validAfter, moves⟩
    exact ⟨validAfter, .discard added (valid.scheduled.addedApart state added).1 moves⟩
  case isFalse started =>
    refine satisfies_deref fun es present => ?_
    have listed : state ∈ c.states := ((valid.scheduled.allocated state).mp (by simp [present])).resolve_right started
    exact ⟨valid.overwrite present rfl rfl rfl rfl, .terminate present listed⟩

theorem progress_of_plain {computation : Except Fault (Config σ τ)}
    (plain : Satisfies Tolerated (fun c' => Valid [] c' ∧ Plain c c') computation) : Satisfies Tolerated (Progress c) computation :=
  plain.mono fun _ facts => ⟨facts.1, .single (.plain facts.2)⟩

structure Shared (child : StateId) (shared : List HandlerId) (c c' : Config σ τ) : Prop where
  frame : c' = c.withHandlers c'.handlers c.mergeGroups
  handlers : ∀ id, c'.handlers id = (c.handlers id).map fun handler => { handler with
    openStates := handler.openStates ++ List.replicate (shared.count id) child
    refCount := handler.refCount + shared.count id }

theorem shareHandlers_spec {child : StateId} {shared : List HandlerId} :
    Satisfies Tolerated (Shared child shared c) (shared.foldlM (shareHandler child) c) := by
  refine .foldlM (fun seen c' => Shared child seen c c') ⟨rfl, by simp⟩ ?_
  intro seen id remaining c' split share
  refine satisfies_handler fun handler present => ?_
  refine satisfies_handler fun found foundPresent => ?_
  rw [setHandler_handlers, update_self, Option.some.injEq] at foundPresent
  subst foundPresent
  refine ⟨?_, ?_⟩
  · simp only [setHandler]
    rw [share.frame]
    rfl
  · intro other
    by_cases same : other = id
    · subst same
      have before := share.handlers other
      rw [present, eq_comm, Option.map_eq_some_iff] at before
      obtain ⟨original, originalPresent, rfl⟩ := before
      simp [originalPresent, replicate_succ', append_assoc, Nat.add_assoc]
    · have elsewhere : [id].count other = 0 := by simp [Ne.symm same]
      simp [update_of_ne same, share.handlers, count_append, elsewhere]

theorem Shared.owned {c' : Config σ τ} {child : StateId} {es : ExecutionState σ}
    (share : Shared child es.openMergeStack c c') (owned : Owned [] c) (fresh : c.heap child = none)
    (live : ∀ id ∈ es.openMergeStack, (c.handlers id).isSome) {c₂ : Config σ τ}
    (heap : c₂.heap = update c.heap child (some es)) (handlers : c₂.handlers = c'.handlers)
    (groups : c₂.mergeGroups = c.mergeGroups) (next : c₂.nextHandler = c.nextHandler) : Owned [] c₂ := by
  have stackAfter := stack_update heap
  have liveAfter : ∀ id, (c₂.handlers id).isSome = (c.handlers id).isSome := by
    intro id
    rw [handlers, share.handlers, Option.isSome_map]
  have lookup : ∀ id after, c₂.handlers id = some after → ∃ before, c.handlers id = some before ∧
      after.openStates = before.openStates ++ List.replicate (es.openMergeStack.count id) child ∧
      after.refCount = before.refCount + es.openMergeStack.count id := by
    intro id after present
    rw [handlers, share.handlers, Option.map_eq_some_iff] at present
    obtain ⟨before, beforePresent, rfl⟩ := present
    exact ⟨before, beforePresent, rfl, rfl⟩
  refine ⟨?_, ?_, by rw [groups]; exact owned.registeredOnce, ?_, ?_, by simp, ?_⟩
  · intro id after present other
    obtain ⟨before, beforePresent, sameOpen, _⟩ := lookup id after present
    have mirrored := owned.mirrored id before beforePresent other
    rw [sameOpen, count_append, mirrored, stackAfter, count_replicate]
    by_cases same : other = child
    · subst same
      simp [stack, fresh]
    · simp [same, Ne.symm same]
  · intro id after present
    obtain ⟨before, beforePresent, sameOpen, sameCount⟩ := lookup id after present
    have counted := owned.counted id before beforePresent
    rw [sameOpen, sameCount, length_append, length_replicate]
    omega
  · intro id
    rw [groups, liveAfter]
    exact owned.registered id
  · intro other id member
    rw [liveAfter]
    rw [stackAfter] at member
    split at member
    · exact live id member
    · exact owned.stackLive other id member
  · intro id present
    rw [liveAfter] at present
    rw [next]
    exact owned.handlerKnown id present

theorem Scheduled.branch {c' : Config σ τ} {es : ExecutionState σ} (scheduled : Scheduled c)
    (heap : c'.heap = update c.heap c.nextState (some es))
    (same : c'.schedule = (c.states, c.addedStates ++ [c.nextState], c.baseSearcher,
      c.pausedStates, c.inCloseMerge, c.nextState + 1)) : Scheduled c' := by
  simp only [schedule, Prod.mk.injEq] at same
  obtain ⟨states, added, base, paused, closing, next⟩ := same
  have unknown : ∀ state, (c.heap state).isSome ∨ state ∈ c.baseSearcher ∨ state ∈ c.pausedStates → state ≠ c.nextState := by
    rintro state existed rfl
    exact absurd (scheduled.known c.nextState existed) (Nat.lt_irrefl _)
  have unlisted : c.nextState ∉ c.states ∧ c.nextState ∉ c.addedStates := by
    have unallocated : ¬ (c.heap c.nextState).isSome := fun existed =>
      unknown c.nextState (.inl existed) rfl
    rw [scheduled.allocated] at unallocated
    tauto
  refine ⟨?_, ?_, ?_, ?_, by rw [base]; exact scheduled.heldOnce, by rw [paused]; exact scheduled.pausedOnce, ?_, ?_⟩
  · intro state
    rw [heap, states, added, mem_append, mem_singleton]
    by_cases here : state = c.nextState
    · simp [here]
    · rw [update_of_ne here, scheduled.allocated]
      tauto
  · intro state existed
    rw [heap, base, paused] at existed
    rw [next]
    by_cases here : state = c.nextState
    · rw [here]
      exact Nat.lt_succ_self _
    · rw [update_of_ne here] at existed
      exact Nat.lt_succ_of_lt (scheduled.known state existed)
  · rw [added]
    exact scheduled.addedOnce.append (nodup_singleton _) (by simpa [disjoint_singleton] using unlisted.2)
  · intro state member
    rw [states, base, paused]
    rw [added, mem_append, mem_singleton] at member
    rcases member with old | rfl
    · exact scheduled.addedApart state old
    · exact ⟨unlisted.1, fun held => unknown _ (.inr (.inl held)) rfl, fun waits => unknown _ (.inr (.inr waits)) rfl⟩
  · rw [base, paused]
    exact scheduled.apart
  · rw [closing, paused]
    exact scheduled.closing

theorem branch_spec {state : StateId} (valid : Valid [] c) :
    Satisfies Tolerated
      (fun c' => Valid [] c' ∧ ∃ es handlers, c.heap state = some es ∧ c' = c.spawn state es handlers) (c.branch state) := by
  obtain ⟨owned, scheduled, waits⟩ := valid
  refine satisfies_deref fun es present => ?_
  refine .bind shareHandlers_spec ?_
  intro c₁ share
  have fresh : c.heap c.nextState = none := by
    by_contra existed
    exact absurd (scheduled.known c.nextState (.inl (Option.isSome_iff_ne_none.mpr existed))) (Nat.lt_irrefl _)
  have live : ∀ id ∈ es.openMergeStack, (c.handlers id).isSome := by
    intro id member
    exact owned.stackLive state id (by rwa [stack_eq present])
  have shareFromStart : Shared c.nextState es.openMergeStack c (c.withHandlers c₁.handlers c.mergeGroups) := ⟨rfl, share.handlers⟩
  have spawned : c₁.record (.forked state c.nextState) = c.spawn state es c₁.handlers := by
    rw [share.frame]
    rfl
  rw [spawned]
  refine ⟨⟨shareFromStart.owned owned fresh live rfl rfl rfl rfl, scheduled.branch rfl rfl,
    waits.of_same ?_ fun _ => .rfl⟩, es, c₁.handlers, present, rfl⟩
  intro id
  change c₁.waiting id = c.waiting id
  simp only [waiting, share.handlers, Option.map_map]
  rfl

theorem branch_progress {state : StateId} (valid : Valid [] c) : Satisfies Tolerated (Progress c) (c.branch state) := by
  refine (branch_spec valid).mono ?_
  rintro _ ⟨validAfter, es, handlers, present, rfl⟩
  exact ⟨validAfter, .single (.branch present)⟩

variable {handler : MergeHandler}

theorem Owned.openMerge {c' : Config σ τ} {state : StateId} {es : ExecutionState σ}
    (owned : Owned [] c) (present : c.heap state = some es) (opened : handler.openStates = [state])
    (counted : handler.refCount = 1) (heap : c'.heap = update c.heap state
      (some { es with openMergeStack := es.openMergeStack ++ [c.nextHandler] }))
    (handlers : c'.handlers = update c.handlers c.nextHandler (some handler))
    (groups : c'.mergeGroups = c.mergeGroups ++ [c.nextHandler])
    (next : c'.nextHandler = c.nextHandler + 1) : Owned [] c' := by
  have stackAfter : ∀ other, c'.stack other =
      if other = state then c.stack state ++ [c.nextHandler] else c.stack other := by
    intro other
    rw [stack_update heap, stack_eq present]
  have known : ∀ id, (c.handlers id).isSome → id ≠ c.nextHandler := by
    rintro id existed rfl
    exact absurd (owned.handlerKnown _ existed) (Nat.lt_irrefl _)
  have offStacks : ∀ other, (c.stack other).count c.nextHandler = 0 := by
    intro other
    refine count_eq_zero.mpr fun member => ?_
    exact known _ (owned.stackLive other _ member) rfl
  refine ⟨?_, ?_, ?_, ?_, ?_, by simp, ?_⟩
  · intro id found foundPresent other
    rw [handlers] at foundPresent
    rw [stackAfter]
    by_cases same : id = c.nextHandler
    · subst same
      rw [update_self, Option.some.injEq] at foundPresent
      subst foundPresent
      rw [opened]
      by_cases here : other = state
      · subst here
        simp [offStacks]
      · simp [here, Ne.symm here, offStacks]
    · rw [update_of_ne same] at foundPresent
      rw [owned.mirrored id found foundPresent]
      split
      case isTrue here => simp [here, count_append, Ne.symm same]
      case isFalse => rfl
  · intro id found foundPresent
    rw [handlers] at foundPresent
    by_cases same : id = c.nextHandler
    · subst same
      rw [update_self, Option.some.injEq] at foundPresent
      subst foundPresent
      simp [opened, counted]
    · rw [update_of_ne same] at foundPresent
      exact owned.counted id found foundPresent
  · rw [groups]
    refine owned.registeredOnce.append (nodup_singleton _) ?_
    rw [disjoint_singleton]
    exact fun member => known _ ((owned.registered _).mp member) rfl
  · intro id
    rw [groups, handlers, mem_append, mem_singleton, owned.registered]
    by_cases same : id = c.nextHandler
    · simp [same]
    · simp [same]
  · intro other id member
    rw [handlers]
    by_cases same : id = c.nextHandler
    · simp [same]
    · rw [update_of_ne same]
      rw [stackAfter] at member
      split at member
      · exact owned.stackLive state id (by simpa [same] using member)
      · exact owned.stackLive other id member
  · intro id existed
    rw [next]
    rw [handlers] at existed
    by_cases same : id = c.nextHandler
    · rw [same]
      exact Nat.lt_succ_self _
    · rw [update_of_ne same] at existed
      exact Nat.lt_succ_of_lt (owned.handlerKnown id existed)

theorem handleOpenMerge_progress {state : StateId} (valid : Valid [] c) : Satisfies Tolerated (Progress c) (c.handleOpenMerge state) := by
  refine satisfies_deref fun es present => ?_
  have unregistered : c.handlers c.nextHandler = none := by
    by_contra existed
    exact absurd (valid.owned.handlerKnown _ (Option.isSome_iff_ne_none.mpr existed)) (Nat.lt_irrefl _)
  refine ⟨⟨valid.owned.openMerge present rfl rfl rfl rfl rfl rfl, ?_, ?_⟩, .single (.openMerge present)⟩
  · exact valid.scheduled.of_same (allocated_update present rfl) rfl
  · refine valid.waits.of_same ?_ fun _ => .rfl
    intro id
    by_cases same : id = c.nextHandler
    · subst same
      simp [waiting, setState, setHandler, unregistered, MergeHandler.waiting]
    · simp [waiting, setState, setHandler, same]

theorem reachClose_perm (mp : KInst) (state : StateId) (groups : List (KInst × List StateId)) :
    ((MergeHandler.reachClose mp state groups).flatMap (·.2)).Perm (state :: groups.flatMap (·.2)) := by
  induction groups with
  | nil => exact .refl _
  | cons group groups ih =>
    obtain ⟨key, waiting⟩ := group
    unfold MergeHandler.reachClose
    split
    · exact .refl _
    · split
      · simp
      · simp only [flatMap_cons]
        exact (ih.append_left waiting).trans perm_middle

/-- The handler after `state` arrived at the close point `mp`. -/
def closedHandler (env : Env σ τ) (handler : MergeHandler) (es : ExecutionState σ)
    (state : StateId) (mp : KInst) : MergeHandler :=
  { handler.countClosed env es with
    openStates := swapRemove handler.openStates state
    reachedCloseMerge := MergeHandler.reachClose mp state handler.reachedCloseMerge }

theorem removeOpenState_spec {id : HandlerId} {state : StateId}
    (present : c.handlers id = some handler) (inside : state ∈ handler.openStates) :
    Satisfies Tolerated
      (fun c' => c' = c.setHandler id (some { handler with
        openStates := swapRemove handler.openStates state }))
      (c.removeOpenState id state) := by
  refine satisfies_handler fun found foundPresent => ?_
  obtain rfl := Option.some.inj (present.symm.trans foundPresent)
  exact satisfies_require (fun outside => absurd inside outside) fun _ => rfl

theorem addClosedState_spec {id : HandlerId} {state : StateId} {mp : KInst} {es : ExecutionState σ}
    (present : c.heap state = some es) (handlerPresent : c.handlers id = some handler)
    (inside : state ∈ handler.openStates) (once : c.baseSearcher.Nodup) :
    Satisfies Tolerated
      (fun c' => ∃ held, c' = { c with
          handlers := update c.handlers id (some (closedHandler env handler es state mp))
          baseSearcher := held
          pausedStates := c.pausedStates ++ [state] } ∧
        held.Nodup ∧ (∀ other, other ∈ held ↔ other ∈ c.baseSearcher ∧ other ≠ state) ∧
        state ∈ c.baseSearcher ∧ state ∉ c.pausedStates)
      (c.addClosedState env id state mp) := by
  refine satisfies_deref fun found foundPresent => ?_
  obtain rfl := Option.some.inj (present.symm.trans foundPresent)
  refine satisfies_handler fun found foundPresent => ?_
  obtain rfl := Option.some.inj (handlerPresent.symm.trans foundPresent)
  have counted : (c.setHandler id (some (handler.countClosed env es))).handlers id = some (handler.countClosed env es) := by simp
  refine .bind (removeOpenState_spec counted inside) ?_
  intro c₁ removed
  refine satisfies_handler fun found foundPresent => ?_
  rw [removed, setHandler_handlers, update_self, Option.some.injEq] at foundPresent
  have base : c₁.baseSearcher = c.baseSearcher := by rw [removed]; rfl
  refine .mono (pauseState_spec (c := c₁.setHandler id _) (by rwa [← base] at once)) ?_
  rintro c' ⟨held, frame, facts⟩
  have fields : c₁ = c.withHandlers c₁.handlers c.mergeGroups := by rw [removed]; rfl
  have handlers : c₁.handlers = update c.handlers id (some found) := by
    rw [removed, ← foundPresent]
    exact update_idem _ _ _
  refine ⟨held, ?_, ?_⟩
  · rw [frame, fields]
    simp only [setHandler, withHandlers, handlers, update_idem, ← foundPresent]
    rfl
  · rw [fields] at facts
    exact facts

theorem Owned.closeMerge {c' : Config σ τ} {state : StateId} {id : HandlerId}
    {es : ExecutionState σ} {after : MergeHandler} (owned : Owned [] c)
    (present : c.heap state = some es) (top : es.openMergeStack.getLast? = some id)
    (handlerPresent : c.handlers id = some handler) (handlers : c'.handlers = update c.handlers id (some after))
    (left : after.openStates = swapRemove handler.openStates state)
    (counted : after.refCount = handler.refCount) (heap : c'.heap = update c.heap state
      (some { es with openMergeStack := es.openMergeStack.dropLast }))
    (groups : c'.mergeGroups = c.mergeGroups) (next : c'.nextHandler = c.nextHandler) :
    Owned [id] c' := by
  have split : c.stack state = es.openMergeStack.dropLast ++ [id] := by
    rw [stack_eq present]
    exact (dropLast_append_getLast? id top).symm
  have stackAfter : ∀ other, c'.stack other =
      if other = state then es.openMergeStack.dropLast else c.stack other := stack_update heap
  have inside : state ∈ handler.openStates := by
    have mirrored := owned.mirrored id handler handlerPresent state
    rw [split, count_append, count_singleton_self] at mirrored
    exact count_pos_iff.mp (by omega)
  have live : ∀ other, (c'.handlers other).isSome = (c.handlers other).isSome := by
    intro other
    rw [handlers]
    by_cases same : other = id
    · simp [same, handlerPresent]
    · rw [update_of_ne same]
  have below : ∀ other, ∀ found ∈ c'.stack other, found ∈ c.stack other := by
    intro other found member
    rw [stackAfter] at member
    split at member
    case isTrue here => rw [here, split]; exact mem_append_left _ member
    case isFalse => exact member
  refine ⟨?_, ?_, by rw [groups]; exact owned.registeredOnce, ?_, ?_, ?_, ?_⟩
  · intro found handlerFound foundPresent other
    rw [handlers] at foundPresent
    rw [stackAfter]
    by_cases same : found = id
    · subst same
      rw [update_self, Option.some.injEq] at foundPresent
      subst foundPresent
      have mirrored := owned.mirrored found handler handlerPresent other
      rw [left, count_swapRemove]
      by_cases here : other = state
      · subst here
        rw [split, count_append, count_singleton_self] at mirrored
        rw [if_pos rfl, count_erase_self]
        omega
      · rw [if_neg here, count_erase_of_ne here]
        exact mirrored
    · rw [update_of_ne same] at foundPresent
      rw [owned.mirrored found handlerFound foundPresent]
      split
      case isTrue here => simp [here, split, count_append, Ne.symm same]
      case isFalse => rfl
  · intro found handlerFound foundPresent
    rw [handlers] at foundPresent
    by_cases same : found = id
    · subst same
      rw [update_self, Option.some.injEq] at foundPresent
      subst foundPresent
      have before := owned.counted found handler handlerPresent
      have shorter := length_swapRemove inside
      rw [count_nil] at before
      rw [counted, left, count_singleton_self]
      omega
    · rw [update_of_ne same] at foundPresent
      rw [owned.counted found handlerFound foundPresent]
      simp [Ne.symm same]
  · intro found
    rw [groups, live]
    exact owned.registered found
  · intro other found member
    rw [live]
    exact owned.stackLive other found (below other found member)
  · intro found member
    rw [List.mem_singleton.mp member, live, handlerPresent]
    rfl
  · intro found existed
    rw [live] at existed
    rw [next]
    exact owned.handlerKnown found existed

theorem Scheduled.pause {c' : Config σ τ} {state : StateId} {held : List StateId}
    (scheduled : Scheduled c) (running : state ∈ c.baseSearcher) (unpaused : state ∉ c.pausedStates) (heldOnce : held.Nodup)
    (members : ∀ other, other ∈ held ↔ other ∈ c.baseSearcher ∧ other ≠ state)
    (allocated : ∀ other, (c'.heap other).isSome = (c.heap other).isSome)
    (same : c'.schedule = (c.states, c.addedStates, held, c.pausedStates ++ [state],
      insert state c.inCloseMerge, c.nextState)) : Scheduled c' := by
  simp only [schedule, Prod.mk.injEq] at same
  obtain ⟨states, added, base, paused, closing, next⟩ := same
  have memPaused : ∀ other, other ∈ c'.pausedStates ↔ other ∈ c.pausedStates ∨ other = state := by
    intro other
    rw [paused, mem_append, mem_singleton]
  refine ⟨?_, ?_, by rw [added]; exact scheduled.addedOnce, ?_, by rwa [base], ?_, ?_, ?_⟩
  · intro other
    rw [allocated, states, added]
    exact scheduled.allocated other
  · intro other existed
    rw [allocated, base, members, memPaused] at existed
    rw [next]
    refine scheduled.known other ?_
    rcases existed with here | ⟨held, _⟩ | waits | rfl
    · exact .inl here
    · exact .inr (.inl held)
    · exact .inr (.inr waits)
    · exact .inr (.inl running)
  · intro other member
    rw [added] at member
    obtain ⟨notStates, notHeld, notPaused⟩ := scheduled.addedApart other member
    rw [states, base, members, memPaused]
    refine ⟨notStates, fun here => notHeld here.1, ?_⟩
    rintro (waits | rfl)
    · exact notPaused waits
    · exact notHeld running
  · rw [paused]
    exact scheduled.pausedOnce.append (nodup_singleton state) (by simpa [disjoint_singleton] using unpaused)
  · intro other member
    rw [base, members]
    rintro ⟨heldBefore, different⟩
    rcases (memPaused other).mp member with waits | rfl
    · exact scheduled.apart other waits heldBefore
    · exact different rfl
  · intro other
    rw [memPaused, closing, Finset.mem_insert, scheduled.closing]
    tauto

theorem Waits.closeMerge {c' : Config σ τ} {state : StateId} {id : HandlerId} {after : MergeHandler}
    {mp : KInst} (waits : Waits c) (unpaused : state ∉ c.pausedStates) (handlerPresent : c.handlers id = some handler)
    (handlers : c'.handlers = update c.handlers id (some after))
    (reached : after.reachedCloseMerge = MergeHandler.reachClose mp state handler.reachedCloseMerge)
    (paused : c'.pausedStates = c.pausedStates ++ [state]) : Waits c' := by
  have notWaiting : ∀ other, state ∉ c.waiting other := fun other member => unpaused ((waits.paused state).mpr ⟨other, member⟩)
  have here : (c'.waiting id).Perm (state :: c.waiting id) := by
    rw [waiting, handlers, update_self, waiting_eq handlerPresent]
    simp only [Option.map_some, Option.getD_some, MergeHandler.waiting, reached]
    exact reachClose_perm mp state handler.reachedCloseMerge
  have elsewhere : ∀ other, other ≠ id → c'.waiting other = c.waiting other := by
    intro other different
    rw [waiting, handlers, update_of_ne different, waiting]
  have members : ∀ other someone, someone ∈ c'.waiting other ↔ someone ∈ c.waiting other ∨ (other = id ∧ someone = state) := by
    intro other someone
    by_cases same : other = id
    · subst same
      rw [here.mem_iff, mem_cons]
      tauto
    · rw [elsewhere other same]
      tauto
  refine ⟨?_, ?_, ?_⟩
  · intro other
    by_cases same : other = id
    · subst same
      rw [here.nodup_iff, nodup_cons]
      exact ⟨notWaiting other, waits.once other⟩
    · rw [elsewhere other same]
      exact waits.once other
  · intro first second different someone member also
    rw [members] at member also
    rcases member with old | ⟨rfl, rfl⟩
    · rcases also with alsoOld | ⟨rfl, rfl⟩
      · exact waits.elsewhere first second different someone old alsoOld
      · exact notWaiting first old
    · rcases also with alsoOld | ⟨rfl, _⟩
      · exact notWaiting second alsoOld
      · exact different rfl
  · intro someone
    rw [paused, mem_append, mem_singleton, waits.paused]
    simp only [members]
    constructor
    · rintro (⟨other, member⟩ | rfl)
      · exact ⟨other, .inl member⟩
      · exact ⟨id, .inr ⟨rfl, rfl⟩⟩
    · rintro ⟨other, member | ⟨_, rfl⟩⟩
      · exact .inl ⟨other, member⟩
      · exact .inr rfl

/-- What a close point did to `c`: nothing to a state outside of all regions, or
the state left its innermost region and dropped its reference to the handler. -/
inductive Closed (c : Config σ τ) (state : StateId) (mp : KInst) : Config σ τ → Prop
  | outside {es} (present : c.heap state = some es) (empty : es.openMergeStack = []) :
      Closed c state mp c
  | left {es id held handlers c'} (present : c.heap state = some es)
      (top : es.openMergeStack.getLast? = some id)
      (step : Step c (c.leave state es id mp held handlers))
      (moves : Moves (c.leave state es id mp held handlers) c') : Closed c state mp c'

theorem Closed.steps {c' : Config σ τ} {state : StateId} {mp : KInst} (closed : Closed c state mp c') : Steps c c' := by
  cases closed with
  | outside => exact .refl
  | left _ _ step moves => exact .tail (.single step) (.plain (.moves moves))

theorem handleCloseMerge_spec {state : StateId} {mp : KInst} (valid : Valid [] c) :
    Satisfies Tolerated (fun c' => Valid [] c' ∧ Closed c state mp c') (c.handleCloseMerge env state mp) := by
  obtain ⟨owned, scheduled, waits⟩ := valid
  refine satisfies_deref fun es present => ?_
  cases top : es.openMergeStack.getLast? with
  | none => exact ⟨⟨owned, scheduled, waits⟩, .outside present (getLast?_eq_none_iff.mp top)⟩
  | some id =>
    have onStack : id ∈ c.stack state := by
      rw [stack_eq present]
      exact mem_of_getLast? top
    obtain ⟨handler, handlerPresent⟩ := Option.isSome_iff_exists.mp (owned.stackLive state id onStack)
    have inside : state ∈ handler.openStates := by
      have mirrored := owned.mirrored id handler handlerPresent state
      have positive := count_pos_iff.mpr onStack
      exact count_pos_iff.mp (by omega)
    refine satisfies_require (fun _ => by decide) fun _ => ?_
    refine .bind (addClosedState_spec (c := c.enterCloseMerge state) present handlerPresent inside scheduled.heldOnce) ?_
    rintro c₁ ⟨held, frame, heldOnce, members, running, unpaused⟩
    refine satisfies_deref fun found foundPresent => ?_
    obtain rfl : es = found := by
      rw [frame] at foundPresent
      exact Option.some.inj (present.symm.trans foundPresent)
    have listed : state ∈ c.states :=
      ((scheduled.allocated state).mp (by simp [present])).resolve_right fun added => (scheduled.addedApart state added).2.1 running
    have left : (c₁.setState state (some { es with
        openMergeStack := es.openMergeStack.dropLast })).record (.closed state id mp) =
        c.leave state es id mp held (update c.handlers id (some (closedHandler env handler es state mp))) := by
      rw [frame]
      rfl
    have validLeft : Valid [id] (c.leave state es id mp held (update c.handlers id (some (closedHandler env handler es state mp)))) :=
      ⟨owned.closeMerge present top handlerPresent rfl rfl rfl rfl rfl rfl,
        scheduled.pause running unpaused heldOnce members (allocated_update present rfl) rfl,
        waits.closeMerge unpaused handlerPresent rfl rfl rfl⟩
    rw [← left] at validLeft
    refine (decRef_spec validLeft).mono ?_
    rintro c' ⟨validAfter, moves, _⟩
    rw [left] at moves
    exact ⟨validAfter, .left present top (.closeMerge present top listed running unpaused members) moves⟩

theorem handleCloseMerge_progress {state : StateId} {mp : KInst} (valid : Valid [] c) :
    Satisfies Tolerated (Progress c) (c.handleCloseMerge env state mp) :=
  (handleCloseMerge_spec valid).mono fun _ facts => ⟨facts.1, facts.2.steps⟩

theorem Progress.trans {first second third : Config σ τ} (before : Progress first second)
    (after : Progress second third) : Progress first third :=
  ⟨after.1, before.2.trans after.2⟩

theorem applyEffect_progress (valid : Valid [] c) (effect : Effect σ τ) :
    Satisfies Tolerated (Progress c) (c.applyEffect env effect) := by
  cases effect with
  | branch state => exact branch_progress valid
  | terminate state => exact progress_of_plain (terminateState_plain valid)
  | openMerge state => exact handleOpenMerge_progress valid
  | closeMerge state mp => exact handleCloseMerge_progress valid
  | assign state pc contents memory => exact progress_of_plain (assign_plain valid)

theorem foldlM_progress {α : Type} {items : List α} {body : Config σ τ → α → Except Fault (Config σ τ)} (valid : Valid [] c)
    (step : ∀ c, Valid [] c → ∀ item, Satisfies Tolerated (Progress c) (body c item)) :
    Satisfies Tolerated (Progress c) (items.foldlM body c) := by
  refine .foldlM_const ⟨valid, .refl⟩ ?_
  intro item _ c' progress
  exact (step c' progress.1 item).mono fun _ => progress.trans

theorem executeInstruction_progress {current : StateId} {effects : List (Effect σ τ)} (valid : Valid [] c) :
    Satisfies Tolerated (Progress c) (c.executeInstruction env current effects) := by
  refine foldlM_progress valid ?_
  intro c valid effect
  split
  · exact applyEffect_progress valid effect
  · exact ⟨valid, .refl⟩

theorem checkMemoryUsage_progress {killed : List StateId} (valid : Valid [] c) :
    Satisfies Tolerated (Progress c) (c.checkMemoryUsage env killed) :=
  foldlM_progress valid fun _ valid _ => progress_of_plain (terminateState_plain valid)

theorem Valid.withMaps {pending : List HandlerId} (valid : Valid pending c)
    (openMergeMap : Block → Option Block) (closeMergeSet : Finset Block) (log : List Event) :
    Valid pending { c with openMergeMap, closeMergeSet, log } :=
  ⟨valid.owned.of_same (fun _ => rfl) (fun _ => rfl) rfl rfl,
    valid.scheduled.of_same (fun _ => rfl) rfl, valid.waits.of_same (fun _ => rfl) fun _ => .rfl⟩

theorem openRegion_progress {state : StateId} {closeBB : Block} (valid : Valid [] c) :
    Satisfies Tolerated (Progress c) (c.openRegion state closeBB) := by
  refine (handleOpenMerge_progress valid).bind ?_
  rintro c' ⟨validAfter, steps⟩
  exact ⟨validAfter.withMaps _ _ _, steps.tail .opened⟩

theorem autoOpenMerge_progress {state : StateId} {ki : KInst} {forked : Bool} (valid : Valid [] c) :
    Satisfies Tolerated (Progress c) (c.autoOpenMerge env state ki forked) := by
  unfold autoOpenMerge
  simp only
  split
  case isFalse => exact ⟨valid, .refl⟩
  case isTrue =>
    cases c.openMergeMap (env.parent ki) with
    | some closeBB => exact openRegion_progress valid
    | none =>
      cases closeBlock env (env.parent ki) with
      | none => exact ⟨valid, .refl⟩
      | some closeBB =>
        simp only
        split
        case isFalse => exact ⟨valid, .refl⟩
        case isTrue =>
          refine .bind (openRegion_progress (valid.withMaps _ _ _)) ?_
          rintro c' ⟨validAfter, steps⟩
          exact ⟨validAfter.withMaps _ _ _, .head .maps (steps.tail .maps)⟩

theorem autoCloseMerge_progress {state : StateId} {ki : KInst} (valid : Valid [] c) :
    Satisfies Tolerated (Progress c) (c.autoCloseMerge env state ki) := by
  unfold autoCloseMerge
  simp only
  split
  · exact handleCloseMerge_progress valid
  · exact ⟨valid, .refl⟩

theorem baseSelect_spec {pick : Nat} : Satisfies Tolerated (fun state => state ∈ c.baseSearcher) (c.baseSelect pick) := by
  unfold baseSelect
  cases chosen : c.baseSearcher[pick % c.baseSearcher.length]? with
  | none => exact (by decide : Tolerated (.assertion .baseSearcherEmpty))
  | some state => exact mem_of_getElem? chosen

/-- An open state of a live handler that does not wait at a close point. -/
def Prioritized (c : Config σ τ) (state : StateId) : Prop :=
  state ∉ c.inCloseMerge ∧ ∃ id handler, c.handlers id = some handler ∧ state ∈ handler.openStates

/-- The handler has waiting states and no open state that could be prioritized. -/
def Overdue (env : Env σ τ) (c : Config σ τ) (id : HandlerId) : Prop :=
  ∀ handler, c.handlers id = some handler → handler.hasMergedStates = true →
    ∀ state ∈ handler.openStates, state ∉ c.inCloseMerge → ∀ es, c.heap state = some es →
      ¬ handler.getInstructionDistance es < env.round (2 * handler.getMean)

instance (c : Config σ τ) (id : HandlerId) : Decidable (Overdue env c id) :=
  inferInstanceAs (Decidable (∀ handler ∈ c.handlers id, handler.hasMergedStates = true →
    ∀ state ∈ handler.openStates, state ∉ c.inCloseMerge → ∀ es ∈ c.heap state,
      ¬ handler.getInstructionDistance es < env.round (2 * handler.getMean)))

/-- The handlers that a selection over `groups` releases are settled: those that
are overdue and come after overdue handlers only. -/
def ReleasesSettled (env : Env σ τ) (c : Config σ τ) (groups : List HandlerId) : Prop :=
  ∀ before id after, groups = before ++ id :: after →
    (∀ other ∈ before ++ [id], Overdue env c other) → Settled env c id

/-- After handlers whose states are not inside the regions considered comes one that is not
overdue. Its state is selected, whatever the releases before it have merged. -/
def Overridden (env : Env σ τ) (c : Config σ τ) (groups : List HandlerId) : Prop :=
  ∃ before id after, groups = before ++ id :: after ∧ ¬ Overdue env c id ∧
    ∀ first ∈ before, ∀ state ∈ c.waiting first, ∀ other ∈ before ++ [id], other ∉ c.stack state

theorem getPrioritizeState_spec {states : List StateId} :
    Satisfies Tolerated
      (fun found => match found with
        | some state => state ∈ states ∧ state ∉ c.inCloseMerge
        | none => ∀ state ∈ states, state ∉ c.inCloseMerge → ∀ es, c.heap state = some es →
            ¬ handler.getInstructionDistance es < env.round (2 * handler.getMean))
      (c.getPrioritizeState env handler states) := by
  induction states with
  | nil => simp [getPrioritizeState]
  | cons state rest ih =>
    unfold getPrioritizeState
    split
    case isTrue closed =>
      refine ih.mono ?_
      rintro (_ | found) facts
      · intro other member open_
        rcases List.mem_cons.mp member with rfl | later
        · exact absurd closed open_
        · exact facts other later open_
      · exact ⟨by simp [facts.1], facts.2⟩
    case isFalse running =>
      refine satisfies_deref fun es present => ?_
      split
      case isTrue => exact ⟨by simp, running⟩
      case isFalse late =>
        refine ih.mono ?_
        rintro (_ | found) facts
        · intro other member open_ es' present'
          rcases List.mem_cons.mp member with rfl | later
          · obtain rfl := Option.some.inj (present.symm.trans present')
            exact late
          · exact facts other later open_ es' present'
        · exact ⟨by simp [facts.1], facts.2⟩

theorem Released.overdue {c' : Config σ τ} {id other : HandlerId} {pairs : List (StateId × StateId)}
    (released : c.Released env id handler pairs c') (calm : Calm env c c')
    (overdue : Overdue env c id) (overdueAfter : Overdue env c' other) : Overdue env c other := by
  by_cases same : other = id
  · rwa [same]
  · intro found present merged state member running es esPresent
    have presentAfter : c'.handlers other = some found := by
      rw [released.handlers, update_of_ne same, present]
    refine overdueAfter found presentAfter merged state member ?_ es ?_
    · rw [released.frame]
      exact fun still => running (Finset.mem_sdiff.mp still).1
    · rcases calm.heap state with sameHeap | gone
      · rw [sameHeap, esPresent]
      · have existed := released.allocated state
        rw [gone, esPresent] at existed
        cases existed

theorem selectMerging_spec {pick : Nat} {groups : List HandlerId} :
    ∀ {c : Config σ τ}, Valid [] c →
      Satisfies Tolerated
        (fun selected => Valid [] selected.1 ∧ Moves c selected.1 ∧
          (selected.2 ∈ selected.1.baseSearcher ∨ Prioritized selected.1 selected.2) ∧
          (ReleasesSettled env c groups → Calm env c selected.1)) (c.selectMerging env pick groups) := by
  induction groups with
  | nil =>
    intro c valid
    refine .bind baseSelect_spec ?_
    intro state member
    exact ⟨valid, .refl c, .inl member, fun _ => .refl c⟩
  | cons id groups ih =>
    intro c valid
    refine satisfies_handler fun handler present => ?_
    have skipped : ReleasesSettled env c (id :: groups) → Overdue env c id →
        ReleasesSettled env c groups := by
      intro settled overdue before other after split late
      refine settled (id :: before) other after (by rw [split]; rfl) ?_
      intro someone member
      rcases List.mem_cons.mp member with rfl | later
      · exact overdue
      · exact late someone later
    split
    case isFalse unmerged =>
      refine (ih valid).mono ?_
      rintro selected ⟨validAfter, moves, chosen, calm⟩
      refine ⟨validAfter, moves, chosen, fun settled => calm (skipped settled ?_)⟩
      intro found foundPresent merged
      obtain rfl := Option.some.inj (present.symm.trans foundPresent)
      exact absurd merged unmerged
    case isTrue merged =>
      refine .bind getPrioritizeState_spec ?_
      rintro (_ | state) found
      · have overdue : Overdue env c id := by
          intro other otherPresent _
          obtain rfl := Option.some.inj (present.symm.trans otherPresent)
          exact found
        refine .bind (releaseStates_valid valid) ?_
        rintro c₁ ⟨validReleased, released, handler', pairs, release⟩
        refine (ih validReleased).mono ?_
        rintro selected ⟨validAfter, moves, chosen, calm⟩
        refine ⟨validAfter, released.trans moves, chosen, fun settled => ?_⟩
        have settledHere : Settled env c id := settled [] id groups rfl (by simpa using overdue)
        have calmHere := release.calm settledHere
        refine calmHere.trans (calm ?_)
        intro before other after split late
        refine calmHere.settled (skipped settled overdue before other after split ?_)
        exact fun someone member => release.overdue calmHere overdue (late someone member)
      · exact ⟨valid, .refl c, .inr ⟨found.2, id, handler, present, found.1⟩, fun _ => .refl c⟩

theorem Owned.mem_stack {pending : List HandlerId} {id : HandlerId} {state : StateId} (owned : Owned pending c)
    (present : c.handlers id = some handler) (inside : state ∈ handler.openStates) : id ∈ c.stack state := by
  rw [← count_pos_iff, ← owned.mirrored id handler present]
  exact count_pos_iff.mpr inside

/-- A state that is not released keeps what decides about its priority. -/
theorem Released.not_overdue {c' : Config σ τ} {id other : HandlerId} {pairs : List (StateId × StateId)}
    (released : c.Released env id handler pairs c') (owned : Owned [] c) (different : other ≠ id)
    (apart : ∀ state ∈ handler.waiting, other ∉ c.stack state) (notOverdue : ¬ Overdue env c other) : ¬ Overdue env c' other := by
  refine fun overdue => notOverdue fun found present merged state member running es esPresent => ?_
  have outside : state ∉ participants pairs := fun part => apart state (released.within state part) (owned.mem_stack present member)
  refine overdue found ?_ merged state member ?_ es ?_
  · rw [released.handlers, update_of_ne different, present]
  · rw [released.frame]
    exact fun still => running (Finset.mem_sdiff.mp still).1
  · exact (released.absorbs.absorbed.untouched state outside).trans esPresent

theorem selectMerging_overridden {pick : Nat} {before after : List HandlerId} {id : HandlerId} :
    ∀ {c : Config σ τ}, Valid [] c → ¬ Overdue env c id →
      (∀ first ∈ before, ∀ state ∈ c.waiting first, ∀ other ∈ before ++ [id], other ∉ c.stack state) →
        Satisfies Tolerated
          (fun selected => (∃ other ∈ before ++ [id], other ∈ c.stack selected.2) ∧
            (selected.2 ∈ selected.1.removedStates → selected.2 ∈ c.removedStates)) (c.selectMerging env pick (before ++ id :: after)) := by
  induction before with
  | nil =>
    intro c valid notOverdue _
    refine satisfies_handler fun handler present => ?_
    split
    case isFalse unmerged =>
      refine absurd (fun found foundPresent merged => ?_) notOverdue
      obtain rfl := Option.some.inj (present.symm.trans foundPresent)
      exact absurd merged unmerged
    case isTrue merged =>
      refine .bind getPrioritizeState_spec ?_
      rintro (_ | state) found
      · refine absurd (fun other otherPresent _ => ?_) notOverdue
        obtain rfl := Option.some.inj (present.symm.trans otherPresent)
        exact found
      · exact ⟨⟨id, mem_singleton_self id, valid.owned.mem_stack present found.1⟩, fun removed => removed⟩
  | cons first before ih =>
    intro c valid notOverdue apart
    have later : ∀ first ∈ before, ∀ state ∈ c.waiting first, ∀ other ∈ before ++ [id], other ∉ c.stack state :=
      fun second isSecond state waits other member => apart second (mem_cons_of_mem _ isSecond) state waits other (mem_cons_of_mem _ member)
    refine satisfies_handler fun handler present => ?_
    split
    case isFalse =>
      refine (ih valid notOverdue later).mono ?_
      rintro selected ⟨⟨other, member, inside⟩, kept⟩
      exact ⟨⟨other, mem_cons_of_mem _ member, inside⟩, kept⟩
    case isTrue merged =>
      refine .bind getPrioritizeState_spec ?_
      rintro (_ | state) found
      · have different : id ≠ first := by
          rintro rfl
          refine notOverdue fun other otherPresent _ => ?_
          obtain rfl := Option.some.inj (present.symm.trans otherPresent)
          exact found
        refine .bind (releaseStates_valid valid) ?_
        rintro c₁ ⟨validReleased, moves, handler', pairs, release⟩
        obtain rfl := Option.some.inj (present.symm.trans release.handlerState)
        have mine := apart first mem_cons_self
        rw [waiting_eq present] at mine
        have notOverdueAfter := release.not_overdue valid.owned different (fun state waits => mine state waits id (by simp)) notOverdue
        refine (ih validReleased notOverdueAfter ?_).mono ?_
        · intro second isSecond state waits other member
          rw [moves.stack]
          refine later second isSecond state ?_ other member
          by_cases same : second = first
          · subst same
            simp [waiting, release.handlers, MergeHandler.waiting] at waits
          · rwa [waiting, release.handlers, update_of_ne same] at waits
        · rintro selected ⟨⟨other, member, inside⟩, kept⟩
          rw [moves.stack] at inside
          refine ⟨⟨other, mem_cons_of_mem _ member, inside⟩, fun removed => ?_⟩
          have requested := kept removed
          rw [release.frame] at requested
          rcases mem_append.mp requested with old | source
          · exact old
          · have waits := release.within _ ((sources_sublist pairs).subset source)
            exact absurd inside (mine _ waits other (mem_cons_of_mem _ member))
      · exact ⟨⟨first, mem_cons_self, valid.owned.mem_stack present found.1⟩, fun removed => removed⟩

end NeuroMerge.Merging.Config
