import NeuroMerge.Merging.Partition

/-!
# What `selectState` returns

The selected state is live and may run, unless a preemptive release merged
it away a moment before, or the base searcher still holds a state that was
deleted because it never heard of the removal.
-/

namespace NeuroMerge.Merging

open Config

variable {σ τ : Type} {env : Env σ τ}

def SearcherLive (c : Config σ τ) : Prop :=
  ∀ state, state ∈ c.baseSearcher ∨ state ∈ c.pausedStates → state ∈ c.states

variable {c c' : Config σ τ}

theorem SearcherLive.moves (live : SearcherLive c) (moves : Moves c c') : SearcherLive c' := by
  intro state member
  rw [moves.states]
  refine live state ?_
  rw [moves.held] at member
  have still := moves.paused state
  tauto

theorem SearcherLive.step (step : Step c c') (live : SearcherLive c) : SearcherLive c' := by
  cases step with
  | branch | openMerge | maps | opened => exact live
  | @closeMerge state es id mp held handlers present top listed running unpaused members =>
    intro other member
    change other ∈ held ∨ other ∈ c.pausedStates ++ [state] at member
    rw [members, List.mem_append, List.mem_singleton] at member
    rcases member with ⟨running, _⟩ | waits | rfl
    · exact live other (.inl running)
    · exact live other (.inr waits)
    · exact listed
  | plain plain =>
    cases plain with
    | moves moves => exact live.moves moves
    | assign | terminate => exact live
    | @discard state c' added unlisted moves =>
      exact SearcherLive.moves (c := { c with addedStates := c.addedStates.erase state }.discard state) live moves

/-- The base searcher hears of everything that the instruction removed. -/
def ToldRemovals (c : Config σ τ) (current : StateId) : Prop :=
  current ∈ c.pausedStates → c.removedStates = []

instance : DecidableRel (ToldRemovals (σ := σ) (τ := τ)) :=
  fun _ _ => inferInstanceAs (Decidable (_ → _))

variable {removed : Config σ τ} {current : StateId} {held : List StateId}

/-- The states that a call of `updateStates` removes were in the base searcher or
new, so none of them stays in the searcher. -/
theorem Config.Updated.removed_gone (updated : c.Updated env current held removed c')
    (scheduled : Scheduled c) (told : ToldRemovals c current) {state : StateId}
    (requested : state ∈ c.removedStates) : state ∉ held ∧ state ∉ c.pausedStates := by
  have running : current ∉ c.pausedStates := by
    intro paused
    rw [told paused] at requested
    simp at requested
  obtain ⟨members, _, known⟩ := updated.told running
  refine ⟨fun still => ((members state).mp still).2 requested, fun waits => ?_⟩
  rcases known state requested with base | added
  · exact scheduled.apart state waits base
  · exact (scheduled.addedApart state added).2.2 waits

theorem Config.Updated.held_known (updated : c.Updated env current held removed c')
    {state : StateId} (member : state ∈ held) : state ∈ c.baseSearcher ∨ state ∈ c.addedStates := by
  by_cases paused : current ∈ c.pausedStates
  · rw [updated.skipped paused] at member
    exact .inl member
  · exact ((updated.told paused).1 state |>.mp member).1

theorem SearcherLive.updated (live : SearcherLive c) (scheduled : Scheduled c)
    (told : ToldRemovals c current) (updated : c.Updated env current held removed c') : SearcherLive c' := by
  have swept := updated.removals.swept
  intro state member
  rw [updated.result] at member ⊢
  have reach : state ∈ held ∨ state ∈ c.pausedStates := by
    have still := swept.paused state
    have members := swept.held state
    tauto
  refine (swept.states state).mpr ⟨?_, fun requested => ?_⟩
  · change state ∈ c.states ∪ c.addedStates.toFinset
    rw [Finset.mem_union, List.mem_toFinset]
    rcases reach with held | waits
    · exact (updated.held_known held).imp_left fun base => live state (.inl base)
    · exact .inl (live state (.inr waits))
  · obtain ⟨gone, notPaused⟩ := updated.removed_gone scheduled told requested
    exact reach.elim gone notPaused

/-- What holds between iterations of a run whose removals the base searcher hears
of. -/
structure Settling (c : Config σ τ) : Prop where
  live : SearcherLive c
  applied : c.addedStates = []
  removed : c.removedStates = []

theorem reachable_settling {initial : List (ExecutionState σ)} {memory : τ}
    (reachable : Reachable env (.whenUpdating ToldRemovals) (start initial memory) c) : Settling c := by
  refine reachable.invariant Settling SearcherLive (start_valid initial memory) ?_ ?_ ?_ ?_
  · refine ⟨?_, rfl, rfl⟩
    intro state member
    simpa [start] using member
  · intro c choice selected current stepped valid settling _ select _ stepping
    obtain ⟨validSelected, moves, _⟩ := (selectState_spec valid).elim select
    obtain ⟨_, es, _, rfl⟩ := (stepInstruction_spec validSelected).elim stepping
    have liveSelected : SearcherLive selected := settling.live.moves moves
    exact liveSelected
  · exact fun _ _ step live => live.step step
  · intro c current held removed c' valid live told updated _ emptied
    refine ⟨live.updated valid.scheduled told updated, ?_, emptied⟩
    rw [updated.result]
    exact updated.removals.swept.addedStates

theorem selectState_overridden {pick : Nat} (valid : Valid [] c) (incomplete : env.useIncompleteMerge = true)
    (overridden : Overridden env c c.mergeGroups) :
    Satisfies Tolerated (fun selected => selected.2 ∈ selected.1.removedStates → selected.2 ∈ c.removedStates) (c.selectState env pick) := by
  obtain ⟨before, id, after, split, notOverdue, apart⟩ := overridden
  refine satisfies_require (fun _ => by decide) fun _ => ?_
  rw [if_pos incomplete, split]
  exact (selectMerging_overridden valid notOverdue apart).mono fun _ facts => facts.2

/-- In every run whose removals the base searcher hears of, `selectState` returns a
live state that is neither paused nor requested to be removed, if the handlers
that it releases preemptively are settled or followed by one with a state to
prioritize. -/
theorem selectState_safe {initial : List (ExecutionState σ)} {memory : τ}
    {c c' : Config σ τ} {pick : Nat} {state : StateId}
    (reachable : Reachable env (.whenUpdating ToldRemovals) (start initial memory) c)
    (settled : env.useIncompleteMerge = true →
      ReleasesSettled env c c.mergeGroups ∨ Overridden env c c.mergeGroups)
    (selected : c.selectState env pick = .ok (c', state)) :
    state ∈ c'.states ∧ state ∉ c'.pausedStates ∧ state ∉ c'.removedStates := by
  have valid := reachable.valid (start_valid initial memory)
  have settling := reachable_settling reachable
  obtain ⟨validAfter, moves, chosen, calm⟩ := (selectState_spec valid).elim selected
  have unrequested : state ∉ c'.removedStates := by
    by_cases overridden : env.useIncompleteMerge = true ∧ Overridden env c c.mergeGroups
    · intro requested
      have earlier := (selectState_overridden valid overridden.1 overridden.2).elim selected requested
      rw [settling.removed] at earlier
      cases earlier
    · have settled (incomplete : env.useIncompleteMerge = true) : ReleasesSettled env c c.mergeGroups :=
        (settled incomplete).resolve_right fun overrides => overridden ⟨incomplete, overrides⟩
      have removed : c'.removedStates = [] := (calm settled).removed.trans settling.removed
      simp [removed]
  rcases chosen with held | ⟨_, running, id, handler, present, inside⟩
  · exact ⟨settling.live.moves moves state (.inl held),
      fun paused => validAfter.scheduled.apart state paused held, unrequested⟩
  · have listed := (validAfter.scheduled.allocated state).mp
      (validAfter.owned.open_allocated present inside)
    have applied : c'.addedStates = [] := moves.addedStates.trans settling.applied
    refine ⟨?_, ?_, unrequested⟩
    · simpa [applied] using listed
    · exact fun paused => running ((validAfter.scheduled.closing state).mpr paused)

/-- With `--use-incomplete-merge`. -/
def preemptive : Env Unit Unit := { nestedBranches with useIncompleteMerge := true }

/-- State 0 opens a region and forks states 1 and 2, which arrive at the close
point 39 while state 0 takes more than twice as long. -/
def overtaken : List (Choice Unit Unit) :=
  [⟨0, [.openMerge 0], false, []⟩, ⟨0, [.branch 0], false, []⟩, ⟨0, [.branch 0], false, []⟩,
    ⟨1, [.assign 1 40 () (), .closeMerge 1 39], false, []⟩, ⟨0, [], false, []⟩,
    ⟨0, [], false, []⟩, ⟨0, [.assign 2 40 () (), .closeMerge 2 39], false, []⟩, ⟨0, [], false, []⟩]

def outsideRegions : List (ExecutionState Unit) :=
  [{ pc := 20, prevPC := 20, steppedInstructions := 0, openMergeStack := [], contents := () }]

/-- `selectState` releases states 1 and 2, merges state 2 into state 1, and returns
state 2. -/
theorem selectState_returns_merged_state :
    ¬ ∀ c c' pick state, Reachable preemptive .always (start outsideRegions ()) c →
      c.selectState preemptive pick = .ok (c', state) →
      state ∈ c'.states ∧ state ∉ c'.pausedStates ∧ state ∉ c'.removedStates := by
  intro safe
  obtain ⟨c, ran, merged⟩ := exists_of_checkRun preemptive (start outsideRegions ()) overtaken
    (fun c => match c.selectState preemptive 2 with
      | .ok (c', state) => decide (state ∈ c'.removedStates)
      | .error _ => false) (by decide +kernel)
  have reachable : Reachable preemptive .always (start outsideRegions ()) c :=
    reachable_of_complies .start (by decide +kernel) ran
  cases selected : c.selectState preemptive 2 with
  | error fault => simp [selected] at merged
  | ok result =>
    simp only [selected, decide_eq_true_eq] at merged
    exact (safe c result.1 2 result.2 reachable selected).2.2 merged

/-- State 0 opens a second region inside the first one, from which state 3 is forked and
waits, while states 1 and 2 have waited for too long. -/
def overriding : List (Choice Unit Unit) :=
  [⟨0, [.openMerge 0], false, []⟩, ⟨0, [.branch 0], false, []⟩, ⟨0, [.branch 0], false, []⟩,
    ⟨1, [.assign 1 40 () (), .closeMerge 1 39], false, []⟩, ⟨0, [.openMerge 0], false, []⟩,
    ⟨0, [.branch 0], false, []⟩, ⟨0, [.assign 2 40 () (), .closeMerge 2 39], false, []⟩,
    ⟨0, [], false, []⟩, ⟨0, [.assign 3 40 () (), .closeMerge 3 39], false, []⟩]

/-- `selectState` releases states 1 and 2, merges state 2 into state 1, and returns
state 0, for which state 3 waits. -/
theorem selectState_overrides_release : ∃ c c',
    (start outsideRegions ()).run preemptive overriding = .ok c ∧
    c.selectState preemptive 2 = .ok (c', 0) ∧ 2 ∈ c'.removedStates ∧
    0 ∈ c'.states ∧ 0 ∉ c'.pausedStates ∧ 0 ∉ c'.removedStates := by
  obtain ⟨c, ran, checked⟩ := exists_of_checkRun preemptive (start outsideRegions ()) overriding
    (fun c => (decide (c.mergeGroups = [0, 1]) && !decide (Overdue preemptive c 1)) &&
      decide (∀ first ∈ [(0 : HandlerId)], ∀ state ∈ c.waiting first, ∀ other ∈ [(0 : HandlerId), 1], other ∉ c.stack state) &&
      match c.selectState preemptive 2 with
      | .ok (c', state) => decide (state = 0 ∧ 2 ∈ c'.removedStates)
      | .error _ => false) (by decide +kernel)
  simp only [Bool.and_eq_true, Bool.not_eq_true', decide_eq_true_eq, decide_eq_false_iff_not] at checked
  obtain ⟨⟨⟨split, notOverdue⟩, apart⟩, first⟩ := checked
  cases selected : c.selectState preemptive 2 with
  | error fault => simp [selected] at first
  | ok result =>
    obtain ⟨c', state⟩ := result
    simp only [selected, decide_eq_true_eq] at first
    obtain ⟨rfl, merged⟩ := first
    exact ⟨c, c', ran, selected, merged, selectState_safe (reachable_of_complies .start (by decide +kernel) ran)
      (fun _ => .inr ⟨[0], 1, [], split, notOverdue, apart⟩) selected⟩

end NeuroMerge.Merging
