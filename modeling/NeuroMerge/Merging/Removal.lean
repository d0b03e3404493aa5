import NeuroMerge.Merging.Selection

/-!
# What becomes of merged states

A state that was merged into another one is requested to be removed. The request
is carried out by the next `updateStates`, unless it was made from a destructor
inside `updateStates`, where the list of requests is cleared afterwards.
-/

namespace NeuroMerge.Merging

open List Config

variable {σ τ : Type} {env : Env σ τ}

/-- The requests of a call of `updateStates` destroy no handler whose waiting states
would be merged: every handler whose open states are all requested to be removed
is settled. -/
def RemovalsSettled (env : Env σ τ) (c : Config σ τ) : Prop :=
  ∀ id handler, c.handlers id = some handler →
    (∀ state ∈ handler.openStates, state ∈ c.removedStates) → Settled env c id

variable {c c' : Config σ τ}

theorem Config.Removals.calm {removed : List StateId} (removals : Removals env c removed c')
    (owned : Owned [] c) (settled : ∀ id handler, c.handlers id = some handler →
      (∀ state ∈ handler.openStates, state ∈ removed) → Settled env c id) : Calm env c c' := by
  induction removals with
  | done c => exact .refl c
  | @remove c c₁ c' state rest listed moves calm valid later ih =>
    have calmHere : Calm env c c₁ := by
      refine calm fun id handler present alone => settled id handler present ?_
      intro other member
      simp [alone other member]
    refine calmHere.trans (ih valid.owned ?_)
    intro id after presentAfter inside
    obtain ⟨before, present, _, stillOpen⟩ := calmHere.reached id after presentAfter
    refine calmHere.settled (settled id before present ?_)
    intro other member
    rcases stillOpen other member with still | gone
    · exact mem_cons_of_mem _ (inside other still)
    · have kept := moves.allocated other
      have existed := owned.open_allocated present member
      by_cases same : other = state
      · simp [same]
      · have stays : (({ c with states := c.states.erase state }.discard state).heap other) =
            c.heap other := by
          simp [discard, record, same]
        rw [gone, stays, existed] at kept
        cases kept

variable {events : List Event}

theorem mem_requests {target source : StateId} (member : .absorbed target source ∈ events) : source ∈ requests events :=
  mem_filterMap.mpr ⟨_, member, rfl⟩

structure Gone (c : Config σ τ) (state : StateId) : Prop where
  states : state ∉ c.states
  addedStates : state ∉ c.addedStates
  baseSearcher : state ∉ c.baseSearcher
  pausedStates : state ∉ c.pausedStates

/-- The next `updateStates` after the state was merged away deleted it, once, and
the state executed no instruction since. `after` are the events since the merge. -/
structure RemovedOnce (c : Config σ τ) (state : StateId) (after : List Event) : Prop where
  deleted : ∃ mid rest, after = mid ++ .updated :: rest ∧ .updated ∉ mid ∧ .deleted state ∈ mid
  once : c.log.count (.deleted state) = 1
  gone : Gone c state

structure Requested (c : Config σ τ) (state : StateId) (after : List Event) : Prop where
  pending : .updated ∉ after
  requested : state ∈ c.removedStates
  listed : state ∈ c.states

/-- The deleted states stay away and every merged state is on its way. -/
structure Tracked (c : Config σ τ) : Prop where
  live : SearcherLive c
  addedOnce : c.addedStates.Nodup
  addedKnown : ∀ state ∈ c.addedStates, state < c.nextState
  buried : ∀ state, .deleted state ∈ c.log →
    state ∉ c.states ∧ state ∉ c.addedStates ∧ state < c.nextState
  fate : ∀ before target state after, c.log = before ++ .absorbed target state :: after →
    .executed state ∉ after ∧ (Requested c state after ∨
      RemovedOnce c state after ∧ state < c.nextState)

variable {after : List Event}

theorem split_append {log before : List Event} {event : Event} (split : log ++ events = before ++ event :: after) :
    (∃ early, log = before ++ event :: early ∧ after = early ++ events) ∨ ∃ late, events = late ++ event :: after := by
  rcases append_eq_append_iff.mp split with ⟨late, _, rest⟩ | ⟨early, rest, same⟩
  · exact .inr ⟨late, rest⟩
  · cases early with
    | nil => exact .inr ⟨[], by simpa using same.symm⟩
    | cons head early =>
      obtain ⟨rfl, rfl⟩ := same
      exact .inl ⟨early, rest, rfl⟩

/-- What a change of the scheduling state during an instruction adds to the log and
keeps of the lists, as far as merged states are concerned. -/
structure Grows (c c' : Config σ τ) (events : List Event) : Prop where
  log : c'.log = c.log ++ events
  notUpdated : .updated ∉ events
  executed : ∀ state, .executed state ∈ events → state ∈ c.states ∧ state ∉ c.removedStates
  states : c'.states = c.states
  removed : ∀ state ∈ c.removedStates, state ∈ c'.removedStates
  addedOnce : c'.addedStates.Nodup
  added : ∀ state ∈ c'.addedStates, state ∈ c.addedStates ∨ state = c.nextState
  addedKnown : ∀ state ∈ c'.addedStates, state < c'.nextState
  held : ∀ state, state ∈ c'.baseSearcher ∨ state ∈ c'.pausedStates → state ∈ c.states
  next : c.nextState ≤ c'.nextState
  deleted : ∀ state, .deleted state ∈ events →
    state ∈ c.addedStates ∧ state ∉ c.states ∧ state ∉ c'.addedStates
  absorbed : ∀ target state, .absorbed target state ∈ events →
    state ∈ c'.removedStates ∧ state ∈ c.states ∧ ∀ other, .executed other ∉ events

variable {state : StateId}

theorem Grows.fresh (grows : Grows c c' events) (known : state < c.nextState)
    (before : state ∉ c.addedStates) : state ∉ c'.addedStates := by
  intro added
  rcases grows.added state added with old | rfl
  · exact before old
  · exact Nat.lt_irrefl _ known

theorem Requested.grow (request : Requested c state after) (grows : Grows c c' events) : Requested c' state (after ++ events) := by
  refine ⟨?_, grows.removed state request.requested, ?_⟩
  · simp [request.pending, grows.notUpdated]
  · rw [grows.states]
    exact request.listed

theorem RemovedOnce.grow (removed : RemovedOnce c state after) (grows : Grows c c' events)
    (known : state < c.nextState) : RemovedOnce c' state (after ++ events) := by
  obtain ⟨⟨mid, rest, split, first, deleted⟩, once, gone⟩ := removed
  refine ⟨⟨mid, rest ++ events, by simp [split], first, deleted⟩, ?_, ?_⟩
  · rw [grows.log, count_append, once, count_eq_zero.mpr]
    exact fun again => gone.addedStates (grows.deleted state again).1
  · refine ⟨?_, grows.fresh known gone.addedStates, fun held => gone.states (grows.held state (.inl held)),
      fun waits => gone.states (grows.held state (.inr waits))⟩
    rw [grows.states]
    exact gone.states

theorem Tracked.grow (tracked : Tracked c) (events : List Event) (grows : Grows c c' events) : Tracked c' := by
  refine ⟨?_, grows.addedOnce, grows.addedKnown, ?_, ?_⟩
  · intro state member
    rw [grows.states]
    exact grows.held state member
  · intro state member
    rw [grows.log, mem_append] at member
    rw [grows.states]
    rcases member with old | new
    · obtain ⟨notStates, notAdded, known⟩ := tracked.buried state old
      exact ⟨notStates, grows.fresh known notAdded, Nat.lt_of_lt_of_le known grows.next⟩
    · obtain ⟨wasAdded, notStates, notAdded⟩ := grows.deleted state new
      exact ⟨notStates, notAdded, Nat.lt_of_lt_of_le (tracked.addedKnown state wasAdded) grows.next⟩
  · intro before target state after split
    rw [grows.log] at split
    rcases split_append split with ⟨early, old, rfl⟩ | ⟨late, new⟩
    · obtain ⟨notExecuted, fate⟩ := tracked.fate before target state early old
      have stopped : .executed state ∉ events := by
        intro executed
        obtain ⟨listed, unrequested⟩ := grows.executed state executed
        rcases fate with request | ⟨removedOnce, _⟩
        · exact unrequested request.requested
        · exact removedOnce.gone.states listed
      refine ⟨by simp [notExecuted, stopped], ?_⟩
      rcases fate with request | ⟨removedOnce, known⟩
      · exact .inl (request.grow grows)
      · exact .inr ⟨removedOnce.grow grows known, Nat.lt_of_lt_of_le known grows.next⟩
    · have member : .absorbed target state ∈ events := by simp [new]
      obtain ⟨requested, listed, notExecuted⟩ := grows.absorbed target state member
      refine ⟨fun executed => notExecuted state (by simp [new, executed]), .inl ⟨?_, requested, ?_⟩⟩
      · exact fun updated => grows.notUpdated (by simp [new, updated])
      · rw [grows.states]
        exact listed

def Event.Silent : Event → Prop
  | opened _ _ _ | closed _ _ _ | forked _ _ => True
  | _ => False

theorem Tracked.quiet (tracked : Tracked c) (events : List Event) (log : c'.log = c.log ++ events)
    (silent : ∀ event ∈ events, event.Silent) (states : c'.states = c.states)
    (added : c'.addedStates = c.addedStates) (held : SearcherLive c')
    (removed : ∀ state ∈ c.removedStates, state ∈ c'.removedStates) (next : c'.nextState = c.nextState) : Tracked c' := by
  refine tracked.grow events ⟨log, silent _, fun state member => (silent _ member).elim, states, removed,
    by rw [added]; exact tracked.addedOnce, ?_, ?_, ?_, next.ge,
    fun state member => (silent _ member).elim, fun target state member => (silent _ member).elim⟩
  · intro state member
    rw [added] at member
    exact .inl member
  · intro state member
    rw [added] at member
    rw [next]
    exact tracked.addedKnown state member
  · intro state member
    rw [← states]
    exact held state member

theorem Tracked.moves {c₁ : Config σ τ} (tracked : Tracked c) (moves : Moves c₁ c')
    (deleted : List StateId) (log : c₁.log = c.log ++ deleted.map .deleted)
    (states : c₁.states = c.states) (addedOnce : c₁.addedStates.Nodup)
    (added : ∀ state, state ∈ c₁.addedStates ↔ state ∈ c.addedStates ∧ state ∉ deleted)
    (discarded : ∀ state ∈ deleted, state ∈ c.addedStates ∧ state ∉ c.states)
    (removed : c₁.removedStates = c.removedStates) (live : SearcherLive c₁) (next : c₁.nextState = c.nextState) : Tracked c' := by
  obtain ⟨events, moreLog, releasing, requested, fromPaused⟩ := moves.events
  have apart : ∀ {event : Event}, event ∈ deleted.map .deleted ++ events →
      (∃ state ∈ deleted, event = .deleted state) ∨ event ∈ events ∧ event.Releasing := by
    intro event member
    rcases List.mem_append.mp member with first | later
    · obtain ⟨state, gone, rfl⟩ := mem_map.mp first
      exact .inl ⟨state, gone, rfl⟩
    · exact .inr ⟨later, releasing event later⟩
  have notExecuted : ∀ state, .executed state ∉ deleted.map .deleted ++ events := by
    intro state member
    rcases apart member with ⟨_, _, impossible⟩ | ⟨_, impossible⟩
    · cases impossible
    · exact impossible
  have addedAfter : ∀ state, state ∈ c'.addedStates ↔ state ∈ c.addedStates ∧ state ∉ deleted := by
    intro state
    rw [moves.addedStates, added]
  have sameStates : c'.states = c.states := moves.states.trans states
  have sameNext : c'.nextState = c.nextState := moves.nextState.trans next
  refine tracked.grow (deleted.map .deleted ++ events) ⟨?_, ?_, ?_, sameStates, ?_, ?_, ?_, ?_, ?_, sameNext.ge, ?_, ?_⟩
  · rw [moreLog, log, append_assoc]
  · intro member
    rcases apart member with ⟨_, _, impossible⟩ | ⟨_, impossible⟩
    · cases impossible
    · exact impossible
  · exact fun state member => (notExecuted state member).elim
  · intro state member
    rw [requested, removed]
    exact mem_append_left _ member
  · rw [moves.addedStates]
    exact addedOnce
  · exact fun state member => .inl ((addedAfter state).mp member).1
  · intro state member
    rw [sameNext]
    exact tracked.addedKnown state ((addedAfter state).mp member).1
  · intro state member
    rw [← sameStates]
    exact live.moves moves state member
  · intro state member
    rcases apart member with ⟨_, gone, same⟩ | ⟨_, impossible⟩
    · cases same
      exact ⟨(discarded state gone).1, (discarded state gone).2, fun still => ((addedAfter state).mp still).2 gone⟩
    · exact impossible.elim
  · intro target state member
    rcases apart member with ⟨_, _, impossible⟩ | ⟨later, _⟩
    · cases impossible
    · have merged := mem_requests later
      refine ⟨?_, ?_, notExecuted⟩
      · rw [requested]
        exact mem_append_right _ merged
      · rw [← states]
        exact live state (.inr (fromPaused state merged).1)

theorem Tracked.released (tracked : Tracked c) (moves : Moves c c') : Tracked c' :=
  tracked.moves moves [] (by simp) rfl tracked.addedOnce (by simp) (by simp) rfl tracked.live rfl

theorem Tracked.plain (plain : Plain c c') (tracked : Tracked c) : Tracked c' := by
  have live := tracked.live.step (.plain plain)
  cases plain with
  | moves moves => exact tracked.released moves
  | assign =>
    exact tracked.quiet [] (by simp) (by simp) rfl rfl live (fun _ member => member) rfl
  | terminate =>
    exact tracked.quiet [] (by simp) (by simp) rfl rfl live (fun _ member => mem_append_left _ member) rfl
  | @discard state c' added unlisted moves =>
    refine tracked.moves moves [state] rfl rfl (tracked.addedOnce.erase state) ?_ ?_ rfl ?_ rfl
    · intro other
      change other ∈ c.addedStates.erase state ↔ _
      rw [tracked.addedOnce.mem_erase_iff, mem_singleton]
      tauto
    · simp [added, unlisted]
    · exact tracked.live

theorem Tracked.step (step : Step c c') (tracked : Tracked c) : Tracked c' := by
  have live := tracked.live.step step
  cases step with
  | plain plain => exact tracked.plain plain
  | openMerge | maps =>
    exact tracked.quiet [] (by simp) (by simp) rfl rfl live (fun _ member => member) rfl
  | opened =>
    exact tracked.quiet [_] rfl (by simp [Event.Silent]) rfl rfl live (fun _ member => member) rfl
  | closeMerge =>
    exact tracked.quiet [_] rfl (by simp [Event.Silent]) rfl rfl live (fun _ member => member) rfl
  | @branch state es handlers present =>
    refine tracked.grow [.forked state c.nextState] ⟨rfl, by simp, by simp, rfl,
      fun _ member => member, ?_, ?_, ?_, live, Nat.le_succ _, by simp, by simp⟩
    · refine tracked.addedOnce.append (nodup_singleton _) ?_
      rw [disjoint_singleton]
      exact fun old => Nat.lt_irrefl _ (tracked.addedKnown _ old)
    · intro other member
      simpa [spawn] using member
    · intro other member
      rcases List.mem_append.mp member with old | new
      · exact Nat.lt_succ_of_lt (tracked.addedKnown other old)
      · rw [List.mem_singleton.mp new]
        exact Nat.lt_succ_self _

variable {current : StateId}

theorem Tracked.selected {selected stepped : Config σ τ} {pick : Nat} (tracked : Tracked c)
    (valid : Valid [] c) (applied : c.addedStates = []) (select : c.selectState env pick = .ok (selected, current))
    (unrequested : current ∉ selected.removedStates) (stepping : selected.stepInstruction current = .ok stepped) : Tracked stepped := by
  obtain ⟨validSelected, moves, chosen, _⟩ := (selectState_spec valid).elim select
  obtain ⟨_, es, present, rfl⟩ := (stepInstruction_spec validSelected).elim stepping
  have released : Tracked selected := tracked.released moves
  have listed : current ∈ selected.states := by
    have sameAdded : selected.addedStates = c.addedStates := moves.addedStates
    have existing := (validSelected.scheduled.allocated current).mp (Option.isSome_iff_exists.mpr ⟨es, present⟩)
    simpa [sameAdded, applied] using existing
  refine released.grow [.executed current] ⟨rfl, by simp, ?_, rfl, fun _ member => member,
    released.addedOnce, fun _ member => .inl member, released.addedKnown, released.live, le_rfl,
    by simp, by simp⟩
  intro state member
  obtain rfl : state = current := by simpa using member
  exact ⟨listed, unrequested⟩

theorem Config.Updated.nothing_absorbed {removed : Config σ τ} {held : List StateId}
    (updated : c.Updated env current held removed c') (valid : Valid [] c)
    (settled : RemovalsSettled env c) : Calm env (c.applyAdded held) removed := by
  refine updated.removals.calm (valid.owned.of_same (fun _ => rfl) (fun _ => rfl) rfl rfl) ?_
  intro id handler present inside
  exact (settled id handler present inside).of_same rfl rfl rfl rfl

theorem Tracked.updated {removed : Config σ τ} {held : List StateId} (tracked : Tracked c)
    (valid : Valid [] c) (told : ToldRemovals c current) (settled : RemovalsSettled env c)
    (updated : c.Updated env current held removed c') : Tracked c' := by
  have scheduled := valid.scheduled
  have swept := updated.removals.swept
  obtain ⟨events, log, removedAfter, counts, notUpdated, notExecuted⟩ := swept.events
  have unmerged : requests events = [] := by
    have same := (updated.nothing_absorbed valid settled).removed
    rw [removedAfter] at same
    simpa [applyAdded] using same
  have logAfter : c'.log = c.log ++ (events ++ [.updated]) := by
    rw [updated.result]
    rw [log, append_assoc]
    rfl
  have noneAdded : c'.addedStates = [] := by
    rw [updated.result]
    exact swept.addedStates
  have sameNext : c'.nextState = c.nextState := by
    rw [updated.result]
    exact swept.nextState
  have states : ∀ state, state ∈ c'.states ↔ (state ∈ c.states ∨ state ∈ c.addedStates) ∧ state ∉ c.removedStates := by
    intro state
    rw [updated.result]
    simpa [applyAdded] using swept.states state
  have live := tracked.live.updated scheduled told updated
  have requested : ∀ state ∈ c.removedStates, c.removedStates.count state = 1 ∧ (state ∈ c.baseSearcher ∨ state ∈ c.addedStates) := by
    intro state member
    have running : current ∉ c.pausedStates := by
      intro paused
      rw [told paused] at member
      simp at member
    obtain ⟨_, once, known⟩ := updated.told running
    exact ⟨count_eq_one_of_mem once member, known state member⟩
  have countAfter : ∀ state, c'.log.count (.deleted state) = c.log.count (.deleted state) + c.removedStates.count state := by
    intro state
    rw [logAfter, count_append, count_append, counts]
    simp
  refine ⟨live, by simp [noneAdded], by simp [noneAdded], ?_, ?_⟩
  · intro state member
    rw [states, noneAdded, sameNext]
    have present := List.count_pos_iff.mpr member
    rw [countAfter] at present
    by_cases old : .deleted state ∈ c.log
    · obtain ⟨notStates, notAdded, known⟩ := tracked.buried state old
      exact ⟨by tauto, by simp, known⟩
    · rw [count_eq_zero.mpr old] at present
      have removedNow : state ∈ c.removedStates := List.count_pos_iff.mp (by omega)
      refine ⟨fun still => still.2 removedNow, by simp, ?_⟩
      rcases (requested state removedNow).2 with base | added
      · exact scheduled.known state (.inr (.inl base))
      · exact tracked.addedKnown state added
  · intro before target state after split
    rw [logAfter] at split
    rcases split_append split with ⟨early, old, rfl⟩ | ⟨late, new⟩
    · obtain ⟨early_quiet, fate⟩ := tracked.fate before target state early old
      refine ⟨by simp [early_quiet, notExecuted], .inr ?_⟩
      rw [sameNext]
      rcases fate with request | ⟨removedOnce, known⟩
      · obtain ⟨once, _⟩ := requested state request.requested
        have unburied : c.log.count (.deleted state) = 0 :=
          count_eq_zero.mpr fun earlier => (tracked.buried state earlier).1 request.listed
        have deletedNow : .deleted state ∈ events := by
          rw [← count_pos_iff, counts]
          omega
        have away : state ∉ c'.states := fun still =>
          ((states state).mp still).2 request.requested
        refine ⟨⟨⟨early ++ events, [], by simp, ?_, by simp [deletedNow]⟩, ?_,
          ⟨away, by simp [noneAdded], fun base => away (live state (.inl base)), fun waits => away (live state (.inr waits))⟩⟩, ?_⟩
        · simp [request.pending, notUpdated]
        · rw [countAfter]
          omega
        · exact scheduled.known state (.inl ((scheduled.allocated state).mpr (.inl request.listed)))
      · obtain ⟨⟨mid, rest, shape, first, deleted⟩, once, gone⟩ := removedOnce
        have unrequested : state ∉ c.removedStates := fun again =>
          (requested state again).2.elim gone.baseSearcher gone.addedStates
        have away : state ∉ c'.states := fun still =>
          ((states state).mp still).1.elim gone.states gone.addedStates
        refine ⟨⟨⟨mid, rest ++ (events ++ [.updated]), by simp [shape], first, deleted⟩, ?_,
          ⟨away, by simp [noneAdded], fun base => away (live state (.inl base)), fun waits => away (live state (.inr waits))⟩⟩, known⟩
        rw [countAfter, once, count_eq_zero.mpr unrequested]
    · have member : .absorbed target state ∈ events := by
        have appended : .absorbed target state ∈ events ++ [.updated] := by simp [new]
        simpa using appended
      have merged := mem_requests member
      simp [unmerged] at merged

/-- No selection ends with a state that it has just merged away, the base searcher
hears of all removals, and no removal merges states. -/
def MergesReported (env : Env σ τ) : Condition σ τ where
  starting _ _ := True
  selected c state := state ∉ c.removedStates
  updating c current := ToldRemovals c current ∧ RemovalsSettled env c

/-- In every run that meets the condition, a state that was merged away executes no
instruction any more and is removed by the next `updateStates`, and only once. -/
theorem merged_state_removed_once {initial : List (ExecutionState σ)} {memory : τ}
    {c : Config σ τ} {before after : List Event} {target state : StateId}
    (reachable : Reachable env (MergesReported env) (start initial memory) c)
    (merged : c.log = before ++ .absorbed target state :: after) :
    .executed state ∉ after ∧ RemovedOnce c state after := by
  have tracked : Tracked c ∧ c.addedStates = [] ∧ c.removedStates = [] := by
    refine reachable.invariant (fun c => Tracked c ∧ c.addedStates = [] ∧ c.removedStates = [])
      Tracked (start_valid initial memory) ⟨?_, rfl, rfl⟩ ?_ ?_ ?_
    · refine ⟨?_, by simp [start], by simp [start], by simp [start], by simp [start]⟩
      intro state member
      simpa [start] using member
    · intro c choice selected current stepped valid tracked _ select unrequested stepping
      exact tracked.1.selected valid tracked.2.1 select unrequested stepping
    · exact fun _ _ step tracked => tracked.step step
    · intro c current held removed c' valid tracked condition updated _ emptied
      refine ⟨tracked.updated valid condition.1 condition.2 updated, ?_, emptied⟩
      rw [updated.result]
      exact updated.removals.swept.addedStates
  obtain ⟨notExecuted, fate⟩ := tracked.1.fate before target state after merged
  refine ⟨notExecuted, ?_⟩
  rcases fate with request | ⟨removedOnce, _⟩
  · have requested := request.requested
    simp [tracked.2.2] at requested
  · exact removedOnce

def abandoned : List (Choice Unit Unit) :=
  [⟨0, [.openMerge 0], false, []⟩, ⟨0, [.branch 0], false, []⟩, ⟨0, [.branch 0], false, []⟩,
    ⟨1, [.assign 1 40 () (), .closeMerge 1 39], false, []⟩,
    ⟨1, [.assign 2 40 () (), .closeMerge 2 39], false, []⟩, ⟨0, [.terminate 0], false, []⟩]

/-- The deletion of state 0 in `updateStates` merges state 2 into state 1; the request
to remove state 2 is lost. -/
theorem merged_in_destructor_stays :
    ¬ ∀ c before target state after, Reachable nestedBranches .always (start outsideRegions ()) c →
      c.log = before ++ .absorbed target state :: after →
      .executed state ∉ after ∧ RemovedOnce c state after := by
  intro removedOnce
  obtain ⟨c, ran, lost⟩ := exists_of_checkRun nestedBranches (start outsideRegions ()) abandoned
    (fun c => decide (.absorbed 1 2 ∈ c.log ∧ 2 ∈ c.states)) (by decide)
  simp only [decide_eq_true_eq] at lost
  obtain ⟨before, after, split⟩ := append_of_mem lost.1
  have reachable : Reachable nestedBranches .always (start outsideRegions ()) c :=
    reachable_of_complies .start (by decide) ran
  exact (removedOnce c before 1 2 after reachable split).2.gone.states lost.2

/-- Every handler keeps an open state that is not requested to be removed, or nothing
waits there. -/
def Config.keepsWaiting (c : Config σ τ) : Bool :=
  c.mergeGroups.all fun id => match c.handlers id with
    | some handler => handler.openStates.any (· ∉ c.removedStates) || !handler.hasMergedStates
    | none => true

theorem RemovalsSettled.of_keepsWaiting (valid : Valid [] c) (keeps : c.keepsWaiting = true) : RemovalsSettled env c := by
  intro id handler present inside found foundPresent group member
  obtain rfl : handler = found := Option.some.inj (present.symm.trans foundPresent)
  have kept := all_eq_true.mp keeps id ((valid.owned.registered id).mpr (by simp [present]))
  simp only [present, Bool.or_eq_true, any_eq_true, decide_eq_true_eq] at kept
  rcases kept with ⟨state, opened, unrequested⟩ | idle
  · exact absurd (inside state opened) unrequested
  · simp only [MergeHandler.hasMergedStates, Bool.not_not, List.isEmpty_iff] at idle
    simp [idle] at member

def arrived : List (Choice Unit Unit) :=
  [⟨0, [.openMerge 0], false, []⟩, ⟨0, [.branch 0], false, []⟩,
    ⟨1, [.assign 1 40 () (), .closeMerge 1 39], false, []⟩,
    ⟨0, [.assign 0 40 () (), .closeMerge 0 39], false, []⟩, ⟨0, [], false, []⟩]

/-- A decidable condition under which a run meets `MergesReported`. -/
def PlainlyReported : Condition σ τ where
  starting _ _ := True
  selected c state := state ∉ c.removedStates
  updating c current := ToldRemovals c current ∧ c.keepsWaiting = true

instance (c : Config σ τ) (choice : Choice σ τ) :
    Decidable (PlainlyReported.starting c choice) :=
  inferInstanceAs (Decidable True)

instance : DecidableRel (PlainlyReported (σ := σ) (τ := τ)).selected :=
  fun _ _ => inferInstanceAs (Decidable (_ ∉ _))

instance : DecidableRel (PlainlyReported (σ := σ) (τ := τ)).updating :=
  fun _ _ => inferInstanceAs (Decidable (_ ∧ _))

theorem arrived_removed_once : ∃ c before after,
    (start outsideRegions ()).run nestedBranches arrived = .ok c ∧
    c.log = before ++ .absorbed 0 1 :: after ∧ .executed 1 ∉ after ∧ RemovedOnce c 1 after := by
  obtain ⟨c, ran, merged⟩ := exists_of_checkRun nestedBranches (start outsideRegions ()) arrived
    (fun c => decide (.absorbed 0 1 ∈ c.log)) (by decide)
  obtain ⟨before, after, split⟩ := append_of_mem (of_decide_eq_true merged)
  have plain : Reachable nestedBranches PlainlyReported (start outsideRegions ()) c :=
    reachable_of_complies .start (by decide) ran
  have reachable : Reachable nestedBranches (MergesReported nestedBranches)
      (start outsideRegions ()) c := by
    refine plain.mono (start_valid _ _) (fun _ _ _ => trivial)
      (fun _ _ unrequested => unrequested) ?_
    exact fun c current valid condition => ⟨condition.1, .of_keepsWaiting valid condition.2⟩
  exact ⟨c, before, after, ran, split, merged_state_removed_once reachable split⟩

end NeuroMerge.Merging
