import NeuroMerge.Merging.Partition

/-!
# Which states an automatically opened region tracks

The open merge part of the main loop runs after the instruction has forked, so
the forked states have copied a stack without the new handler.
-/

namespace NeuroMerge.Merging

variable {σ τ : Type} {env : Env σ τ}

/-- An iteration of the main loop up to the end of its open merge part: the state
and the instruction, and the configurations before and after the open merge
part. -/
structure Opening (σ τ : Type) where
  current : StateId
  ki : KInst
  executed : Config σ τ
  opened : Config σ τ

namespace Config

def openingPart (env : Env σ τ) (c : Config σ τ) (choice : Choice σ τ) :
    Except Fault (Opening σ τ) := do
  let (c, current) ← c.selectState env choice.pick
  let ki := (← c.deref current).pc
  let c ← c.stepInstruction current
  let executed ← c.executeInstruction env current choice.effects
  let opened ← executed.autoOpenMerge env current ki choice.forked
  pure { current, ki, executed, opened }

theorem execute_eq_openingPart (env : Env σ τ) (c : Config σ τ) (choice : Choice σ τ) :
    c.execute env choice = (do
      let opening ← c.openingPart env choice
      let c ← opening.opened.autoCloseMerge env opening.current opening.ki
      let c ← c.checkMemoryUsage env choice.killed
      pure (c, opening.current)) := by
  simp only [execute, openingPart, bind_assoc, pure_bind]

def inRegion (c : Config σ τ) (state : StateId) (es : ExecutionState σ) (handler : MergeHandler)
    (closeBB : Block) (openMergeMap : Block → Option Block) (closeMergeSet : Finset Block) :
    Config σ τ :=
  { c with
    heap := Function.update c.heap state
      (some { es with openMergeStack := es.openMergeStack ++ [c.nextHandler] })
    handlers := Function.update c.handlers c.nextHandler (some handler)
    nextHandler := c.nextHandler + 1
    mergeGroups := c.mergeGroups ++ [c.nextHandler]
    openMergeMap := openMergeMap
    closeMergeSet := closeMergeSet
    log := c.log ++ [.opened state c.nextHandler closeBB] }

/-- What the open merge part did to `c`. -/
inductive AutoOpened (env : Env σ τ) (c : Config σ τ) (state : StateId) (ki : KInst)
    (forked : Bool) : Config σ τ → Prop
  | skipped : AutoOpened env c state ki forked c
  | opened {es handler closeBB openMergeMap closeMergeSet} (present : c.heap state = some es)
      (branches : ki = env.terminator (env.parent ki) ∧
        1 < (env.successors (env.parent ki)).length ∧ forked)
      (alone : handler.openStates = [state])
      (recorded : openMergeMap = Function.update c.openMergeMap (env.parent ki) (some closeBB))
      (closes : c.openMergeMap (env.parent ki) = some closeBB ∧ closeMergeSet = c.closeMergeSet ∨
        c.openMergeMap (env.parent ki) = none ∧ closeBlock env (env.parent ki) = some closeBB ∧
          env.isPotentiallyReachable (env.parent ki) closeBB = true ∧
          closeMergeSet = insert closeBB c.closeMergeSet) :
      AutoOpened env c state ki forked
        (c.inRegion state es handler closeBB openMergeMap closeMergeSet)

theorem openRegion_spec {c : Config σ τ} {state : StateId} {closeBB : Block} :
    Satisfies Tolerated
      (fun c' => ∃ es handler, c.heap state = some es ∧ handler.openStates = [state] ∧
        c' = c.inRegion state es handler closeBB c.openMergeMap c.closeMergeSet) (c.openRegion state closeBB) := by
  unfold openRegion handleOpenMerge deref
  cases present : c.heap state with
  | none => exact tolerated_useAfterFree
  | some es => exact ⟨es, _, rfl, rfl, rfl⟩

theorem autoOpenMerge_spec {c : Config σ τ} {state : StateId} {ki : KInst} {forked : Bool} :
    Satisfies Tolerated (AutoOpened env c state ki forked) (c.autoOpenMerge env state ki forked) := by
  unfold autoOpenMerge
  simp only
  split
  case isFalse => exact .skipped
  case isTrue branches =>
    cases known : c.openMergeMap (env.parent ki) with
    | some closeBB =>
      refine openRegion_spec.mono ?_
      rintro c' ⟨es, handler, present, alone, rfl⟩
      refine .opened present branches alone ?_ (.inl ⟨known, rfl⟩)
      rw [← known, Function.update_eq_self]
    | none =>
      cases found : closeBlock env (env.parent ki) with
      | none => exact .skipped
      | some closeBB =>
        simp only
        split
        case isFalse => exact .skipped
        case isTrue reachable =>
          refine openRegion_spec.bind ?_
          rintro c' ⟨es, handler, present, alone, rfl⟩
          exact .opened present branches alone rfl (.inr ⟨known, found, reachable, rfl⟩)

theorem Plain.states {c c' : Config σ τ} (plain : Plain c c') : c'.states = c.states := by
  cases plain with
  | moves moves => exact moves.states
  | assign | terminate => rfl
  | discard added unlisted moves => exact moves.states

theorem Steps.states {c c' : Config σ τ} (steps : Steps c c') : c'.states = c.states := by
  induction steps with
  | refl => rfl
  | tail _ step ih =>
    refine Eq.trans ?_ ih
    cases step with
    | plain plain => exact plain.states
    | branch | openMerge | closeMerge | maps | opened => rfl

theorem openingPart_spec {c : Config σ τ} {choice : Choice σ τ} (valid : Valid [] c) (applied : c.addedStates = []) :
    Satisfies Tolerated
      (fun opening => Valid [] opening.executed ∧
        opening.current ∉ opening.executed.addedStates ∧
        AutoOpened env opening.executed opening.current opening.ki choice.forked opening.opened) (c.openingPart env choice) := by
  refine .bind (selectState_spec valid) ?_
  rintro ⟨selected, current⟩ ⟨validSelected, moves, _⟩
  refine satisfies_deref fun es present => ?_
  refine .bind (stepInstruction_spec validSelected) ?_
  rintro _ ⟨validStepped, _, _, rfl⟩
  refine .bind (executeInstruction_progress validStepped) ?_
  rintro executed ⟨validExecuted, steps⟩
  refine autoOpenMerge_spec.bind ?_
  intro opened autoOpened
  have listed : current ∈ selected.states := by
    have sameAdded : selected.addedStates = c.addedStates := moves.addedStates
    have existing := (validSelected.scheduled.allocated current).mp (Option.isSome_iff_exists.mpr ⟨es, present⟩)
    simpa [sameAdded, applied] using existing
  have listedAfter : current ∈ executed.states := by
    have same := Steps.states steps
    rw [same]
    exact listed
  exact ⟨validExecuted, fun added =>
    (validExecuted.scheduled.addedApart current added).1 listedAfter, autoOpened⟩

end Config

open Config

def TracksSuccessors (c : Config σ τ) (id : HandlerId) (current : StateId) : Prop :=
  ∀ successor, successor = current ∨ successor ∈ c.addedStates →
    id ∈ c.stack successor ∧ ∃ handler, c.handlers id = some handler ∧
      successor ∈ handler.openStates

/-- Whenever the open merge part opens a region after a fork, the forked states are
not in it: only the current state is. -/
theorem openMerge_loses_successors {initial : List (ExecutionState σ)} {memory : τ}
    {c : Config σ τ} {choice : Choice σ τ} {opening : Opening σ τ}
    (reachable : Reachable env .always (start initial memory) c)
    (iteration : c.openingPart env choice = .ok opening) (forks : opening.executed.addedStates ≠ [])
    (opens : opening.opened.nextHandler ≠ opening.executed.nextHandler) :
    ¬ TracksSuccessors opening.opened opening.executed.nextHandler opening.current := by
  obtain ⟨valid, unforked, autoOpened⟩ := (openingPart_spec
    (reachable.valid (start_valid initial memory))
    (reachable.applied (start_valid initial memory) rfl)).elim iteration
  generalize opening.opened = opened at *
  intro tracks
  cases autoOpened with
  | skipped => exact opens rfl
  | @opened es handler closeBB openMergeMap closeMergeSet present branches alone recorded closes =>
    obtain ⟨child, forked⟩ := List.exists_mem_of_ne_nil _ forks
    obtain ⟨_, found, foundPresent, inside⟩ := tracks child (.inr forked)
    have same : handler = found := by
      simpa [inRegion] using foundPresent
    rw [← same, alone, List.mem_singleton] at inside
    exact unforked (inside ▸ forked)

def forksAtZero : Choice Unit Unit :=
  ⟨0, [.branch 0, .assign 0 3 () (), .assign 1 5 () ()], true, []⟩

/-- The region opened at block 0 has state 0 inside and state 1 outside. -/
theorem forked_at_zero_opening : ∃ opening,
    (start atBlockZero ()).openingPart nestedBranches forksAtZero = .ok opening ∧
      opening.executed.addedStates ≠ [] ∧ 1 ∈ opening.opened.addedStates ∧
      opening.opened.nextHandler ≠ opening.executed.nextHandler ∧ opening.executed.nextHandler ∉ opening.opened.stack 1 := by
  have facts : (match (start atBlockZero ()).openingPart nestedBranches forksAtZero with
      | .ok opening => decide (opening.executed.addedStates ≠ [] ∧
          1 ∈ opening.opened.addedStates ∧
          opening.opened.nextHandler ≠ opening.executed.nextHandler ∧
          opening.executed.nextHandler ∉ opening.opened.stack 1)
      | .error _ => false) = true := by decide
  cases iteration : (start atBlockZero ()).openingPart nestedBranches forksAtZero with
  | error fault => simp [iteration] at facts
  | ok opening =>
    rw [iteration] at facts
    exact ⟨opening, rfl, of_decide_eq_true facts⟩

theorem forked_state_untracked :
    ¬ ∀ c choice opening, Reachable nestedBranches .always (start atBlockZero ()) c →
      c.openingPart nestedBranches choice = .ok opening → opening.executed.addedStates ≠ [] →
      opening.opened.nextHandler ≠ opening.executed.nextHandler →
      TracksSuccessors opening.opened opening.executed.nextHandler opening.current := by
  intro tracks
  obtain ⟨opening, iteration, forks, forked, opens, outside⟩ := forked_at_zero_opening
  exact outside (tracks _ _ opening .start iteration forks opens 1 (.inr forked)).1

theorem block_zero_loses_successor : ∃ opening,
    (start atBlockZero ()).openingPart nestedBranches forksAtZero = .ok opening ∧
      ¬ TracksSuccessors opening.opened opening.executed.nextHandler opening.current := by
  obtain ⟨opening, iteration, forks, _, opens, _⟩ := forked_at_zero_opening
  exact ⟨opening, iteration, openMerge_loses_successors .start iteration forks opens⟩

end NeuroMerge.Merging
