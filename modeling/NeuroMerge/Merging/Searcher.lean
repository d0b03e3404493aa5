import NeuroMerge.Merging.Config

/-!
# The merging searcher

`pauseState` and `continueState` change the base searcher at once; the states
an instruction added or removed reach it through `update`. A base searcher is
the collection of the states it may return; the order in which it prefers them
is its own. What pausing, continuing and updating do to it comes after them.
-/

namespace NeuroMerge.Merging

variable {σ τ : Type}

namespace Config

/-- `baseSearcher->update(current, addedStates, removedStates)` -/
def baseUpdate (c : Config σ τ) (added removed : List StateId) :
    Except Fault (Config σ τ) := do
  let held ← removed.foldlM (fun held state => do
    require (state ∈ held) .invalidStateRemoved
    pure (held.erase state)) (c.baseSearcher ++ added)
  pure { c with baseSearcher := held }

def pauseState (c : Config σ τ) (state : StateId) : Except Fault (Config σ τ) := do
  require (state ∉ c.pausedStates) .stateAlreadyPaused
  baseUpdate { c with pausedStates := c.pausedStates ++ [state] } [] [state]

def continueState (c : Config σ τ) (state : StateId) : Except Fault (Config σ τ) := do
  require (state ∈ c.pausedStates) .stateNotPaused
  let c ← baseUpdate { c with pausedStates := c.pausedStates.erase state } [state] []
  pure (c.record (.continued state))

/-- `MergingSearcher::update`: the base searcher learns nothing of an
instruction whose state was paused by it. -/
def searcherUpdate (c : Config σ τ) (current : StateId) : Except Fault (Config σ τ) :=
  if current ∈ c.pausedStates then pure c
  else c.baseUpdate c.addedStates c.removedStates

/-- `baseSearcher->selectState()`, where `pick` is the preference of the base
searcher. -/
def baseSelect (c : Config σ τ) (pick : Nat) : Except Fault StateId :=
  match c.baseSearcher[pick % c.baseSearcher.length]? with
  | some state => .ok state
  | none => .error (.assertion .baseSearcherEmpty)

end Config

/-- Faults other than those that would mean that a handler and the stacks of
the states disagree about who is inside the handler's region. -/
def Tolerated (fault : Fault) : Prop :=
  fault ≠ .assertion .openStateMissing ∧ fault ≠ .assertion .handlerNotRegistered ∧
    fault ≠ .outOfFuel

instance : DecidablePred Tolerated := fun _ =>
  inferInstanceAs (Decidable (_ ∧ _ ∧ _))

@[simp] theorem tolerated_useAfterFree : Tolerated .useAfterFree := by decide

@[simp] theorem tolerated_mergeAborted : Tolerated .mergeAborted := by decide

variable {α : Type} {c : Config σ τ} {state : StateId} {post : α → Prop}

theorem satisfies_deref {next : ExecutionState σ → Except Fault α}
    (found : ∀ es, c.heap state = some es → Satisfies Tolerated post (next es)) : Satisfies Tolerated post (c.deref state >>= next) := by
  unfold Config.deref
  cases present : c.heap state with
  | none => exact tolerated_useAfterFree
  | some es => exact found es present

theorem satisfies_handler {id : HandlerId} {next : MergeHandler → Except Fault α}
    (found : ∀ handler, c.handlers id = some handler → Satisfies Tolerated post (next handler)) :
    Satisfies Tolerated post (c.handler id >>= next) := by
  unfold Config.handler
  cases present : c.handlers id with
  | none => exact tolerated_useAfterFree
  | some handler => exact found handler present

theorem satisfies_require {condition : Prop} [Decidable condition] {failed : Assertion}
    {next : Unit → Except Fault α} (tolerated : ¬ condition → Tolerated (.assertion failed))
    (holds : condition → Satisfies Tolerated post (next ())) : Satisfies Tolerated post (require condition failed >>= next) := by
  unfold require
  split
  case isTrue met => exact holds met
  case isFalse violated => exact tolerated violated

namespace Config

theorem baseUpdate_spec {added removed : List StateId} (once : (c.baseSearcher ++ added).Nodup) :
    Satisfies Tolerated (fun updated => ∃ held, updated = { c with baseSearcher := held } ∧ held.Nodup ∧
        (∀ state, state ∈ held ↔ (state ∈ c.baseSearcher ∨ state ∈ added) ∧ state ∉ removed) ∧
        removed.Nodup ∧ ∀ state ∈ removed, state ∈ c.baseSearcher ∨ state ∈ added)
      (c.baseUpdate added removed) := by
  refine .bind (.foldlM (fun seen (held : List StateId) => held.Nodup ∧
      (∀ state, state ∈ held ↔ (state ∈ c.baseSearcher ∨ state ∈ added) ∧ state ∉ seen) ∧
      seen.Nodup ∧ ∀ state ∈ seen, state ∈ c.baseSearcher ∨ state ∈ added)
    ⟨once, by simp, by simp, by simp⟩ ?_) ?_
  · intro seen state remaining held split ⟨heldOnce, members, seenOnce, known⟩
    refine satisfies_require (fun _ => by decide) ?_
    intro present
    obtain ⟨origin, unseen⟩ := (members state).mp present
    refine ⟨heldOnce.erase state, ?_, ?_, ?_⟩
    · intro other
      rw [heldOnce.mem_erase_iff, members other]
      simp only [List.mem_append, List.mem_singleton]
      tauto
    · exact seenOnce.append (List.nodup_singleton state) (by simpa [List.disjoint_singleton] using unseen)
    · intro other member
      rcases List.mem_append.mp member with earlier | last
      · exact known other earlier
      · rwa [List.mem_singleton.mp last]
  · intro held ⟨heldOnce, members, removedOnce, known⟩
    exact ⟨held, rfl, heldOnce, members, removedOnce, known⟩

theorem pauseState_spec (once : c.baseSearcher.Nodup) :
    Satisfies Tolerated
      (fun paused => ∃ held, paused = { c with
          baseSearcher := held, pausedStates := c.pausedStates ++ [state] } ∧
        held.Nodup ∧ (∀ other, other ∈ held ↔ other ∈ c.baseSearcher ∧ other ≠ state) ∧
        state ∈ c.baseSearcher ∧ state ∉ c.pausedStates)
      (c.pauseState state) := by
  refine satisfies_require (fun _ => by decide) ?_
  intro unpaused
  refine (baseUpdate_spec (by simpa using once)).mono ?_
  rintro paused ⟨held, rfl, heldOnce, members, _, known⟩
  exact ⟨held, rfl, heldOnce, by simpa using members, by simpa using known, unpaused⟩

theorem continueState_spec (once : c.baseSearcher.Nodup) (apart : state ∈ c.pausedStates → state ∉ c.baseSearcher) :
    Satisfies Tolerated
      (fun continued => ∃ held, continued = ({ c with
          baseSearcher := held, pausedStates := c.pausedStates.erase state }).record (.continued state) ∧
        held.Nodup ∧ (∀ other, other ∈ held ↔ other ∈ c.baseSearcher ∨ other = state) ∧
        state ∈ c.pausedStates)
      (c.continueState state) := by
  refine satisfies_require (fun _ => by decide) ?_
  intro paused
  refine .bind (baseUpdate_spec ?_) ?_
  · exact once.append (List.nodup_singleton state) (by simpa [List.disjoint_singleton] using apart paused)
  · rintro updated ⟨held, rfl, heldOnce, members, _⟩
    exact ⟨held, rfl, heldOnce, by simpa using members, paused⟩

end Config

end NeuroMerge.Merging
