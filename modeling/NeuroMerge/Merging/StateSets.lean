import NeuroMerge.Merging.Partition

/-!
# The sets of states

What `states`, `addedStates` and `removedStates` have to do with each other at
every point of an iteration, in whatever order the functions that change them are
called.
-/

namespace NeuroMerge.Merging

open Config

variable {σ τ : Type} {env : Env σ τ}

/-- A call of one of the functions that make up an iteration. `effect` is a call of
`fork`, `terminateState`, `handleOpenMerge` or `handleCloseMerge`. -/
inductive Call (σ τ : Type) where
  | selectState (pick : Nat)
  | stepInstruction (state : StateId)
  | effect (effect : Effect σ τ)
  | autoOpenMerge (state : StateId) (ki : KInst) (forked : Bool)
  | autoCloseMerge (state : StateId) (ki : KInst)
  | updateStates (current : StateId)

def Config.call (env : Env σ τ) (c : Config σ τ) : Call σ τ → Except Fault (Config σ τ)
  | .selectState pick => do
    let (c, _) ← c.selectState env pick
    pure c
  | .stepInstruction state => c.stepInstruction state
  | .effect effect => c.applyEffect env effect
  | .autoOpenMerge state ki forked => c.autoOpenMerge env state ki forked
  | .autoCloseMerge state ki => c.autoCloseMerge env state ki
  | .updateStates current => c.updateStates env current

/-- A sequence of calls, each allowed where it is made. -/
def Called (env : Env σ τ) (allowed : Config σ τ → Call σ τ → Prop) :
    Config σ τ → Config σ τ → Prop :=
  Relation.ReflTransGen fun c c' => ∃ call, allowed c call ∧ c.call env call = .ok c'

section Conditions

/-- No state that waits is requested to be removed. -/
def NoRequestWaits (c : Config σ τ) : Prop := ∀ state ∈ c.removedStates, state ∉ c.pausedStates

/-- A state that leaves a region is not requested to be removed, and nor is one that
waits. -/
def LeavesAlive (c : Config σ τ) (state : StateId) : Prop :=
  c.stack state ≠ [] → state ∉ c.removedStates ∧ NoRequestWaits c

/-- The call is not made for a state whose removal is already requested, and releases
no such state. -/
def Call.Fresh (env : Env σ τ) (c : Config σ τ) : Call σ τ → Prop
  | .effect (.terminate state) =>
    state ∉ c.removedStates ∧ (state ∈ c.addedStates → NoRequestWaits c)
  | .effect (.closeMerge state _) => LeavesAlive c state
  | .autoCloseMerge state ki =>
    ki = env.firstNonPHI (env.parent ki) ∧ env.parent ki ∈ c.closeMergeSet → LeavesAlive c state
  | .selectState _ => env.useIncompleteMerge = true → NoRequestWaits c
  | _ => True

structure DocumentedSets (c : Config σ τ) : Prop where
  addedApart : ∀ state ∈ c.addedStates, state ∉ c.states
  removedListed : ∀ state ∈ c.removedStates, state ∈ c.states
  removedOnce : c.removedStates.Nodup
  apart : ∀ state ∈ c.addedStates, state ∉ c.removedStates

/-- What of the documented invariants does not follow from the invariant of the
scheduling state. -/
structure RequestsListed (c : Config σ τ) : Prop where
  once : c.removedStates.Nodup
  listed : ∀ state ∈ c.removedStates, state ∈ c.states

theorem RequestsListed.documented {c : Config σ τ} (requested : RequestsListed c) (scheduled : Scheduled c) : DocumentedSets c where
  addedApart state added := (scheduled.addedApart state added).1
  removedListed := requested.listed
  removedOnce := requested.once
  apart state added removed := (scheduled.addedApart state added).1 (requested.listed state removed)

structure SameRequests (c c' : Config σ τ) : Prop where
  states : c'.states = c.states
  removedStates : c'.removedStates = c.removedStates

theorem RequestsListed.same {c c' : Config σ τ} (requested : RequestsListed c) (same : SameRequests c c') : RequestsListed c' := by
  constructor
  · rw [same.removedStates]
    exact requested.once
  · rw [same.removedStates, same.states]
    exact requested.listed

def WaitersListed (c : Config σ τ) : Prop :=
  ∀ state ∈ c.pausedStates, (c.heap state).isSome → state ∈ c.states

theorem Config.Scheduled.waitersListed {c : Config σ τ} (scheduled : Scheduled c) : WaitersListed c := by
  intro state paused existed
  apply ((scheduled.allocated state).mp existed).resolve_right
  exact fun added => (scheduled.addedApart state added).2.2 paused

theorem RequestsListed.moves {c c' : Config σ τ} (requested : RequestsListed c) (listed : WaitersListed c)
    (stay : NoRequestWaits c) (moves : Moves c c') : RequestsListed c' := by
  obtain ⟨sources, removed, once, fromPaused⟩ := moves.requested
  constructor
  · rw [removed]
    refine requested.once.append once fun state earlier merged => ?_
    exact stay state earlier (fromPaused state merged).1
  · intro state member
    rw [moves.states]
    rw [removed, List.mem_append] at member
    cases member with
    | inl earlier => exact requested.listed state earlier
    | inr merged =>
      obtain ⟨paused, -, existed⟩ := fromPaused state merged
      exact listed state paused existed

end Conditions

section Preservation

variable {c : Config σ τ} {state : StateId}

theorem handleOpenMerge_same (c : Config σ τ) (state : StateId) : Satisfies Tolerated (SameRequests c) (c.handleOpenMerge state) :=
  satisfies_deref fun _ _ => ⟨rfl, rfl⟩

theorem openRegion_same (c : Config σ τ) (state : StateId) (closeBB : Block) :
    Satisfies Tolerated (SameRequests c) (c.openRegion state closeBB) := by
  apply Satisfies.bind (handleOpenMerge_same c state)
  intro c' same
  exact ⟨same.states, same.removedStates⟩

theorem autoOpenMerge_same (c : Config σ τ) (state : StateId) (ki : KInst) (forked : Bool) :
    Satisfies Tolerated (SameRequests c) (c.autoOpenMerge env state ki forked) := by
  rw [autoOpenMerge]
  split
  · split
    · exact openRegion_same c state _
    · split
      · exact ⟨rfl, rfl⟩
      · split
        · apply Satisfies.bind (openRegion_same _ state _)
          intro c' same
          exact ⟨same.states, same.removedStates⟩
        · exact ⟨rfl, rfl⟩
  · exact ⟨rfl, rfl⟩

section

variable (valid : Valid [] c) (requested : RequestsListed c)
include valid requested

theorem handleCloseMerge_requested {mp : KInst} (alive : LeavesAlive c state) :
    Satisfies Tolerated RequestsListed (c.handleCloseMerge env state mp) := by
  apply (handleCloseMerge_spec valid).mono
  intro c' facts
  cases facts.2 with
  | outside present empty => exact requested
  | @left es id held handlers _ present top step moves =>
    have inside : c.stack state ≠ [] := by
      rw [stack_eq present]
      intro empty
      rw [empty] at top
      cases top
    obtain ⟨notRequested, stay⟩ := alive inside
    have notAdded : state ∉ c.addedStates := by
      intro added
      obtain ⟨-, notHeld, notPaused⟩ := facts.1.scheduled.addedApart state (moves.addedStates ▸ added)
      have paused : state ∈ (c.leave state es id mp held handlers).pausedStates := by
        simp [leave]
      exact notHeld ((moves.held state).mpr (.inr ⟨paused, notPaused⟩))
    have left : RequestsListed (c.leave state es id mp held handlers) := ⟨requested.once, requested.listed⟩
    apply left.moves _ _ moves
    · intro other paused existed
      have existedBefore : (c.heap other).isSome := by
        have same : ((c.leave state es id mp held handlers).heap other).isSome =
            (c.heap other).isSome := allocated_update present rfl other
        rwa [same] at existed
      cases List.mem_append.mp paused with
      | inl earlier => exact valid.scheduled.waitersListed other earlier existedBefore
      | inr here =>
        rw [List.mem_singleton.mp here] at existedBefore ⊢
        exact ((valid.scheduled.allocated state).mp existedBefore).resolve_right notAdded
    · intro other removed paused
      cases List.mem_append.mp paused with
      | inl earlier => exact stay other removed earlier
      | inr here => exact notRequested (List.mem_singleton.mp here ▸ removed)

theorem terminateState_requested (fresh : state ∉ c.removedStates) (stay : state ∈ c.addedStates → NoRequestWaits c) :
    Satisfies Tolerated RequestsListed (c.terminateState (destroy env) state) := by
  rw [terminateState]
  split
  case isTrue added =>
    apply (destroyAdded_spec valid added).mono
    intro c' facts
    have deleted : RequestsListed ({ c with addedStates := c.addedStates.erase state }.discard state) :=
      ⟨requested.once, requested.listed⟩
    apply deleted.moves _ (stay added) facts.2
    intro other paused existed
    apply valid.scheduled.waitersListed other paused
    have different : other ≠ state := by
      intro same
      exact (valid.scheduled.addedApart state added).2.2 (same ▸ paused)
    change (Function.update c.heap state none other).isSome at existed
    rwa [Function.update_of_ne different] at existed
  case isFalse started =>
    apply satisfies_deref
    intro es present
    have listed : state ∈ c.states := ((valid.scheduled.allocated state).mp (by simp [present])).resolve_right started
    constructor
    · exact requested.once.append (List.nodup_singleton state) (by simpa using fresh)
    · intro other member
      cases List.mem_append.mp member with
      | inl earlier => exact requested.listed other earlier
      | inr here => exact List.mem_singleton.mp here ▸ listed

theorem selectState_requested {pick : Nat} (stay : env.useIncompleteMerge = true → NoRequestWaits c) :
    Satisfies Tolerated (fun selected => RequestsListed selected.1) (c.selectState env pick) := by
  apply ((selectState_spec valid).and .self).mono
  intro selected facts
  by_cases incomplete : env.useIncompleteMerge = true
  · exact requested.moves valid.scheduled.waitersListed (stay incomplete) facts.1.2.1
  · have returned := facts.2
    rw [selectState, if_neg incomplete] at returned
    obtain ⟨_, -, returned⟩ := bind_eq_ok_iff.mp returned
    obtain ⟨_, -, returned⟩ := bind_eq_ok_iff.mp returned
    cases returned
    exact requested

theorem applyEffect_requested {effect : Effect σ τ} (fresh : (Call.effect effect).Fresh env c) :
    Satisfies Tolerated RequestsListed (c.applyEffect env effect) := by
  cases effect with
  | branch state =>
    apply (branch_spec valid).mono
    intro c' facts
    obtain ⟨-, es, handlers, -, rfl⟩ := facts
    exact ⟨requested.once, requested.listed⟩
  | terminate state => exact terminateState_requested valid requested fresh.1 fresh.2
  | openMerge state => exact (handleOpenMerge_same c state).mono fun _ => requested.same
  | closeMerge state mp => exact handleCloseMerge_requested valid requested fresh
  | assign state pc contents memory =>
    apply satisfies_deref
    intro es present
    exact ⟨requested.once, requested.listed⟩

theorem call_requested {call : Call σ τ} (fresh : call.Fresh env c) :
    Satisfies Tolerated (fun c' => Valid [] c' ∧ RequestsListed c') (c.call env call) := by
  cases call with
  | selectState pick =>
    apply Satisfies.bind ((selectState_spec valid).and (selectState_requested valid requested fresh))
    intro selected facts
    exact ⟨facts.1.1, facts.2⟩
  | stepInstruction state =>
    apply (stepInstruction_spec valid).mono
    intro c' facts
    obtain ⟨validAfter, es, -, rfl⟩ := facts
    exact ⟨validAfter, requested.once, requested.listed⟩
  | effect effect =>
    exact ((applyEffect_progress valid effect).mono fun _ progress => progress.1).and (applyEffect_requested valid requested fresh)
  | autoOpenMerge state ki forked =>
    exact ((autoOpenMerge_progress valid).mono fun _ progress => progress.1).and
      ((autoOpenMerge_same c state ki forked).mono fun _ => requested.same)
  | autoCloseMerge state ki =>
    apply ((autoCloseMerge_progress valid).mono fun _ progress => progress.1).and
    rw [autoCloseMerge]
    split
    · rename_i atClose
      exact handleCloseMerge_requested valid requested (fresh atClose)
    · exact requested
  | updateStates current =>
    apply (updateStates_spec valid).mono
    intro c' facts
    obtain ⟨validAfter, emptied, -⟩ := facts
    refine ⟨validAfter, ?_, ?_⟩
    · rw [emptied]
      exact .nil
    · rw [emptied]
      exact nofun

end

end Preservation

/-- In every sequence of calls none of which is made for a state whose removal is
already requested, or releases one, the documented invariants hold after each call. -/
theorem called_documented {initial : List (ExecutionState σ)} {memory : τ} {c : Config σ τ}
    (called : Called env (fun c call => call.Fresh env c) (start initial memory) c) :
    DocumentedSets c := by
  have invariant : Valid [] c ∧ RequestsListed c := by
    induction called with
    | refl => exact ⟨start_valid initial memory, .nil, nofun⟩
    | tail _ last ih =>
      obtain ⟨call, fresh, returned⟩ := last
      exact (call_requested ih.1 ih.2 fresh).elim returned
  exact invariant.2.documented invariant.1.scheduled

theorem called_documented_sample : ∃ c,
    Called nestedBranches (fun c call => call.Fresh nestedBranches c) (start atBlockZero ()) c ∧
      c.addedStates = [1] ∧ c.removedStates = [0] ∧ DocumentedSets c := by
  have selects : Called nestedBranches (fun c call => call.Fresh nestedBranches c)
      (start atBlockZero ()) _ := .single ⟨.selectState 0, nofun, rfl⟩
  have called := ((selects.tail ⟨.stepInstruction 0, trivial, rfl⟩).tail
    ⟨.effect (.branch 0), trivial, rfl⟩).tail ⟨.effect (.terminate 0), ⟨nofun, fun _ => nofun⟩, rfl⟩
  exact ⟨_, called, rfl, rfl, called_documented called⟩

/-- The state that its instruction has terminated is still listed, so the memory cap may
choose it. -/
theorem terminated_state_killed : ¬ ∀ (choice : Choice Unit Unit) c current,
    (start atBlockZero ()).execute nestedBranches choice = .ok (c, current) → DocumentedSets c := by
  intro documented
  have twice := (documented ⟨0, [.terminate 0], false, [0]⟩ _ _ rfl).removedOnce
  revert twice
  decide

end NeuroMerge.Merging
