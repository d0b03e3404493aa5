import NeuroMerge.Merging.RunProperties

/-!
# Where the live states are

Between iterations every live state should be in the base searcher or paused, and
nothing should point to a state that is no longer live. Both can fail when
`updateStates` is called for a state that the instruction paused, and both hold
in every run in which that does not happen at the wrong time.
-/

namespace NeuroMerge.Merging

open Config

variable {σ τ : Type} {env : Env σ τ}

/-- The live states are the disjoint union of the states of the base searcher and
the paused states. -/
def Partitioned (c : Config σ τ) : Prop :=
  ∀ state, (state ∈ c.states ↔ state ∈ c.baseSearcher ∨ state ∈ c.pausedStates) ∧
    ¬ (state ∈ c.baseSearcher ∧ state ∈ c.pausedStates)

/-- The part of `Partitioned` that does not follow from the invariant. -/
def Covered (c : Config σ τ) : Prop :=
  ∀ state, state ∈ c.states ↔ state ∈ c.baseSearcher ∨ state ∈ c.pausedStates

variable {c c' : Config σ τ}

theorem Covered.moves (covered : Covered c) (moves : Moves c c') : Covered c' := by
  intro state
  have still := moves.paused state
  rw [moves.states, moves.held, covered state]
  tauto

theorem Covered.step (step : Step c c') (covered : Covered c) : Covered c' := by
  cases step with
  | branch | openMerge | maps | opened => exact covered
  | @closeMerge state es id mp held handlers present top listed running unpaused members =>
    intro other
    change other ∈ c.states ↔ other ∈ held ∨ other ∈ c.pausedStates ++ [state]
    rw [covered other, members, List.mem_append, List.mem_singleton]
    by_cases same : other = state
    · subst same
      tauto
    · tauto
  | plain plain =>
    cases plain with
    | moves moves => exact covered.moves moves
    | assign | terminate => exact covered
    | @discard state c' added unlisted moves =>
      exact Covered.moves (c := { c with addedStates := c.addedStates.erase state }.discard state) covered moves

/-- The base searcher hears of everything that the instruction added or removed. -/
def ToldAll (c : Config σ τ) (current : StateId) : Prop :=
  current ∈ c.pausedStates → c.addedStates = [] ∧ c.removedStates = []

theorem Covered.updated {removed : Config σ τ} {current : StateId} {held : List StateId}
    (covered : Covered c) (scheduled : Scheduled c) (told : ToldAll c current)
    (updated : c.Updated env current held removed c') : Covered c' := by
  have swept := updated.removals.swept
  have states : ∀ state, state ∈ c'.states ↔ (state ∈ c.states ∨ state ∈ c.addedStates) ∧ state ∉ c.removedStates := by
    intro state
    rw [updated.result]
    simpa [applyAdded] using swept.states state
  have reach : ∀ state, state ∈ c'.baseSearcher ∨ state ∈ c'.pausedStates ↔ state ∈ held ∨ state ∈ c.pausedStates := by
    intro state
    have still := swept.paused state
    have members := swept.held state
    rw [updated.result]
    tauto
  intro state
  rw [states, reach, covered state]
  by_cases paused : current ∈ c.pausedStates
  · obtain ⟨noneAdded, noneRemoved⟩ := told paused
    rw [updated.skipped paused, noneAdded, noneRemoved]
    simp
  · obtain ⟨members, _, known⟩ := updated.told paused
    rw [members]
    have waits := scheduled.apart state
    have fresh := scheduled.addedApart state
    have requested := known state
    tauto

/-- In every run in which `updateStates` is never called for a paused state while
states were added or removed, the live states are partitioned between all
iterations. -/
theorem reachable_partitioned {initial : List (ExecutionState σ)} {memory : τ} {c : Config σ τ}
    (reachable : Reachable env (.whenUpdating ToldAll) (start initial memory) c) :
    Partitioned c := by
  have covered : Covered c := by
    refine reachable.invariant Covered Covered (start_valid initial memory) ?_ ?_ ?_ ?_
    · intro state
      simp [start]
    · intro c choice selected current stepped valid covered _ select _ stepping
      obtain ⟨validSelected, moves, _⟩ := (selectState_spec valid).elim select
      obtain ⟨_, es, _, rfl⟩ := (stepInstruction_spec validSelected).elim stepping
      have coveredSelected : Covered selected := covered.moves moves
      exact coveredSelected
    · exact fun _ _ step covered => covered.step step
    · exact fun _ _ _ _ _ valid covered told updated _ _ =>
        covered.updated valid.scheduled told updated
  have apart := (reachable.valid (start_valid initial memory)).scheduled.apart
  exact fun state => ⟨covered state, fun both => apart state both.2 both.1⟩

/-- A program of seven blocks without data. Blocks 0 and 1 branch, both regions
end at block 5, and every block but block 5 is a single terminator. -/
def nestedBranches : Env Unit Unit where
  canMerge _ _ _ := true
  merge _ _ _ := .merged () ()
  mergeOrNot _ := true
  round := id
  useIncompleteMerge := false
  parent pc := pc / 2
  terminator block := 2 * block + 1
  firstNonPHI block := if block = 5 then 10 else 2 * block + 1
  successors block := match block with
    | 0 => [1, 2]
    | 1 => [3, 4]
    | 2 | 3 | 4 => [5]
    | 5 => [6]
    | _ => []
  findNearestCommonDominator left right := if left = right then some left else some 5
  isPotentiallyReachable _ _ := true

/-- Three states of which state 2 arrives at block 5 while states 0 and 1 are
still inside the region that block 0 opened. -/
def arriving : List (Choice Unit Unit) :=
  [⟨0, [.branch 0, .assign 0 3 () (), .assign 1 5 () ()], true, []⟩,
    ⟨0, [.branch 0, .assign 0 7 () (), .assign 2 9 () ()], true, []⟩,
    ⟨2, [.assign 2 10 () ()], false, []⟩]

def atBlockZero : List (ExecutionState Unit) :=
  [{ pc := 1, prevPC := 1, steppedInstructions := 0, openMergeStack := [], contents := () }]

def checkRun (env : Env σ τ) (c : Config σ τ) (choices : List (Choice σ τ))
    (check : Config σ τ → Bool) : Bool :=
  match c.run env choices with
  | .ok c => check c
  | .error _ => false

theorem exists_of_checkRun (env : Env σ τ) (c : Config σ τ) (choices : List (Choice σ τ))
    (check : Config σ τ → Bool) (checked : checkRun env c choices check = true) : ∃ c', c.run env choices = .ok c' ∧ check c' = true := by
  unfold checkRun at checked
  cases ran : c.run env choices with
  | ok c' => exact ⟨c', rfl, by simpa [ran] using checked⟩
  | error fault => simp [ran] at checked

/-- State 2 forks at a memory access that is the first instruction of block 5 and
is paused there: the forked state 3 is live but nowhere in the searcher. -/
theorem forked_at_close_block_unscheduled :
    ¬ ∀ c, Reachable nestedBranches .always (start atBlockZero ()) c → Partitioned c := by
  intro partitioned
  obtain ⟨c, ran, lost⟩ := exists_of_checkRun nestedBranches (start atBlockZero ())
    (arriving ++ [⟨2, [.branch 2], false, []⟩])
    (fun c => decide (3 ∈ c.states ∧ 3 ∉ c.baseSearcher ∧ 3 ∉ c.pausedStates)) (by decide)
  simp only [decide_eq_true_eq] at lost
  have reachable : Reachable nestedBranches .always (start atBlockZero ()) c :=
    reachable_of_complies .start (by decide) ran
  have scheduled := ((partitioned c reachable 3).1).mp lost.1
  exact scheduled.elim lost.2.1 lost.2.2

instance : DecidableRel (ToldAll (σ := σ) (τ := τ)) :=
  fun _ _ => inferInstanceAs (Decidable (_ → _))

/-- When the first instruction of block 5 does not fork, the waiting state 2 is
paused and the other two are in the base searcher. -/
theorem arriving_partitioned : ∃ c,
    (start atBlockZero ()).run nestedBranches (arriving ++ [⟨2, [.assign 2 11 () ()], false, []⟩])
      = .ok c ∧ c.pausedStates = [2] ∧ Partitioned c := by
  obtain ⟨c, ran, paused⟩ := exists_of_checkRun nestedBranches (start atBlockZero ())
    (arriving ++ [⟨2, [.assign 2 11 () ()], false, []⟩])
    (fun c => decide (c.pausedStates = [2])) (by decide)
  exact ⟨c, ran, of_decide_eq_true paused,
    reachable_partitioned (reachable_of_complies .start (by decide) ran)⟩

/-- Everything that the merge handlers and the merging searcher point to is live. -/
structure NoDangling (c : Config σ τ) : Prop where
  openStates : ∀ id handler, c.handlers id = some handler →
    ∀ state ∈ handler.openStates, state ∈ c.states
  reachedCloseMerge : ∀ id handler, c.handlers id = some handler →
    ∀ state ∈ handler.waiting, state ∈ c.states
  pausedStates : ∀ state ∈ c.pausedStates, state ∈ c.states
  inCloseMerge : ∀ state ∈ c.inCloseMerge, state ∈ c.states

/-- The part of `NoDangling` that does not follow from the invariant. -/
def PausedLive (c : Config σ τ) : Prop :=
  ∀ state ∈ c.pausedStates, state ∈ c.states

theorem PausedLive.moves (live : PausedLive c) (moves : Moves c c') : PausedLive c' := by
  intro state member
  rw [moves.states]
  exact live state (moves.paused state member)

theorem PausedLive.step (step : Step c c') (live : PausedLive c) : PausedLive c' := by
  cases step with
  | branch | openMerge | maps | opened => exact live
  | @closeMerge state es id mp held handlers present top listed running unpaused members =>
    intro other member
    rcases List.mem_append.mp member with waits | arrived
    · exact live other waits
    · rwa [List.mem_singleton.mp arrived]
  | plain plain =>
    cases plain with
    | moves moves => exact live.moves moves
    | assign | terminate => exact live
    | @discard state c' added unlisted moves =>
      exact PausedLive.moves (c := { c with addedStates := c.addedStates.erase state }.discard state) live moves

def WaitersStay (c : Config σ τ) (_ : StateId) : Prop :=
  ∀ state ∈ c.removedStates, state ∉ c.pausedStates

theorem PausedLive.updated {removed : Config σ τ} {current : StateId} {held : List StateId}
    (live : PausedLive c) (stay : WaitersStay c current) (updated : c.Updated env current held removed c') : PausedLive c' := by
  have swept := updated.removals.swept
  intro state member
  rw [updated.result] at member ⊢
  have waits : state ∈ c.pausedStates := swept.paused state member
  refine (swept.states state).mpr ⟨?_, fun requested => stay state requested waits⟩
  exact Finset.mem_union_left _ (live state waits)

/-- In every run in which no call of `updateStates` removes a waiting state, nothing
dangles between iterations. -/
theorem reachable_noDangling {initial : List (ExecutionState σ)} {memory : τ} {c : Config σ τ}
    (reachable : Reachable env (.whenUpdating WaitersStay) (start initial memory) c) :
    NoDangling c := by
  have live : PausedLive c ∧ c.addedStates = [] := by
    refine reachable.invariant (fun c => PausedLive c ∧ c.addedStates = []) PausedLive
      (start_valid initial memory) ⟨by simp [PausedLive, start], rfl⟩ ?_ ?_ ?_
    · intro c choice selected current stepped valid live _ select _ stepping
      obtain ⟨validSelected, moves, _⟩ := (selectState_spec valid).elim select
      obtain ⟨_, es, _, rfl⟩ := (stepInstruction_spec validSelected).elim stepping
      have liveSelected : PausedLive selected := live.1.moves moves
      exact liveSelected
    · exact fun _ _ step live => live.step step
    · intro c current held removed c' _ live stay updated _ _
      refine ⟨live.updated stay updated, ?_⟩
      rw [updated.result]
      exact updated.removals.swept.addedStates
  obtain ⟨owned, scheduled, waits⟩ := reachable.valid (start_valid initial memory)
  refine ⟨?_, ?_, live.1, fun state member => live.1 state ((scheduled.closing state).mp member)⟩
  · intro id handler present state member
    have listed := (scheduled.allocated state).mp (owned.open_allocated present member)
    rwa [live.2, List.mem_nil_iff, or_false] at listed
  · intro id handler present state member
    refine live.1 state ((waits.paused state).mpr ⟨id, ?_⟩)
    rwa [waiting_eq present]

/-- State 2 is terminated by the first instruction of block 5 and registered there
as waiting all the same. -/
theorem terminated_at_close_block_dangles :
    ¬ ∀ c, Reachable nestedBranches .always (start atBlockZero ()) c → NoDangling c := by
  intro noDangling
  obtain ⟨c, ran, dangles⟩ := exists_of_checkRun nestedBranches (start atBlockZero ())
    (arriving ++ [⟨2, [.terminate 2], false, []⟩])
    (fun c => decide (2 ∈ c.pausedStates ∧ 2 ∉ c.states)) (by decide)
  simp only [decide_eq_true_eq] at dangles
  exact dangles.2 ((noDangling c (reachable_of_complies .start (by decide) ran)).pausedStates 2
    dangles.1)

instance : DecidableRel (WaitersStay (σ := σ) (τ := τ)) :=
  fun _ _ => inferInstanceAs (Decidable (∀ state ∈ _, _))

theorem arriving_noDangling : ∃ c,
    (start atBlockZero ()).run nestedBranches (arriving ++
      [⟨2, [.assign 2 11 () ()], false, []⟩, ⟨1, [.terminate 1], false, []⟩]) = .ok c ∧
      c.pausedStates = [2] ∧ 1 ∉ c.states ∧ NoDangling c := by
  obtain ⟨c, ran, paused⟩ := exists_of_checkRun nestedBranches (start atBlockZero ())
    (arriving ++ [⟨2, [.assign 2 11 () ()], false, []⟩, ⟨1, [.terminate 1], false, []⟩])
    (fun c => decide (c.pausedStates = [2] ∧ 1 ∉ c.states)) (by decide)
  simp only [decide_eq_true_eq] at paused
  exact ⟨c, ran, paused.1, paused.2,
    reachable_noDangling (reachable_of_complies .start (by decide) ran)⟩

end NeuroMerge.Merging
