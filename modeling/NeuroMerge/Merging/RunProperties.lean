import NeuroMerge.Merging.Transition

/-!
# Iterations and runs

An iteration of the main loop selects a state, executes an instruction of it as
a sequence of steps, and applies the pending additions and removals. `Reachable`
collects the configurations between iterations; `meets` is a condition on the
configuration in which `updateStates` is called and the state it is called for.
-/

namespace NeuroMerge.Merging.Config

open List

variable {σ τ : Type} {env : Env σ τ}

theorem selectState_spec {c : Config σ τ} {pick : Nat} (valid : Valid [] c) :
    Satisfies Tolerated
      (fun selected => Valid [] selected.1 ∧ Moves c selected.1 ∧
        (selected.2 ∈ selected.1.baseSearcher ∨
          env.useIncompleteMerge = true ∧ Prioritized selected.1 selected.2) ∧
        ((env.useIncompleteMerge = true → ReleasesSettled env c c.mergeGroups) → Calm env c selected.1)) (c.selectState env pick) := by
  refine satisfies_require (fun _ => by decide) fun _ => ?_
  split
  case isTrue incomplete =>
    refine (selectMerging_spec valid).mono ?_
    rintro selected ⟨validAfter, moves, chosen, calm⟩
    exact ⟨validAfter, moves, chosen.imp_right fun first => ⟨incomplete, first⟩, fun settled => calm (settled incomplete)⟩
  case isFalse =>
    refine .bind baseSelect_spec ?_
    exact fun state member => ⟨valid, .refl c, .inl member, fun _ => .refl c⟩

/-- How the instruction of one iteration came about. -/
structure Executed (env : Env σ τ) (c : Config σ τ) (choice : Choice σ τ) (c' : Config σ τ)
    (state : StateId) : Prop where
  valid : Valid [] c'
  progress : ∃ selected stepped, c.selectState env choice.pick = .ok (selected, state) ∧
    selected.stepInstruction state = .ok stepped ∧ Steps stepped c'

theorem stepInstruction_spec {c : Config σ τ} {state : StateId} (valid : Valid [] c) :
    Satisfies Tolerated
      (fun c' => Valid [] c' ∧ ∃ es, c.heap state = some es ∧
        c' = (c.setState state (some { es with
          steppedInstructions := (es.steppedInstructions + 1) % 2 ^ 64
          prevPC := es.pc
          pc := es.pc + 1 })).record (.executed state))
      (c.stepInstruction state) := by
  refine satisfies_deref fun es present => ?_
  exact ⟨valid.overwrite present rfl rfl rfl rfl, es, present, rfl⟩

theorem execute_spec {c : Config σ τ} {choice : Choice σ τ} (valid : Valid [] c) :
    Satisfies Tolerated (fun executed => c.Executed env choice executed.1 executed.2) (c.execute env choice) := by
  refine .bind ((selectState_spec valid).and .self) ?_
  rintro ⟨selected, state⟩ ⟨⟨validSelected, _⟩, select⟩
  refine satisfies_deref fun es present => ?_
  refine .bind ((stepInstruction_spec validSelected).and .self) ?_
  rintro stepped ⟨⟨validStepped, _⟩, step⟩
  refine .bind (executeInstruction_progress validStepped) ?_
  rintro c₁ ⟨valid₁, steps₁⟩
  refine .bind (autoOpenMerge_progress valid₁) ?_
  rintro c₂ ⟨valid₂, steps₂⟩
  refine .bind (autoCloseMerge_progress valid₂) ?_
  rintro c₃ ⟨valid₃, steps₃⟩
  refine .bind (checkMemoryUsage_progress valid₃) ?_
  rintro c' ⟨validAfter, steps₄⟩
  exact ⟨validAfter, selected, stepped, select, step, ((steps₁.trans steps₂).trans steps₃).trans steps₄⟩

/-- The removal requests are executed one after another. -/
inductive Removals (env : Env σ τ) : Config σ τ → List StateId → Config σ τ → Prop
  | done (c : Config σ τ) : Removals env c [] c
  | remove {c c₁ c' : Config σ τ} {state : StateId} {rest : List StateId}
      (listed : state ∈ c.states)
      (moves : Moves ({ c with states := c.states.erase state }.discard state) c₁)
      (calm : AloneSettled env c state → Calm env c c₁) (valid : Valid [] c₁)
      (later : Removals env c₁ rest c') : Removals env c (state :: rest) c'

structure Swept (c : Config σ τ) (removed : List StateId) (c' : Config σ τ) : Prop where
  states : ∀ state, state ∈ c'.states ↔ state ∈ c.states ∧ state ∉ removed
  addedStates : c'.addedStates = c.addedStates
  nextState : c'.nextState = c.nextState
  paused : ∀ state ∈ c'.pausedStates, state ∈ c.pausedStates
  held : ∀ state, state ∈ c'.baseSearcher ↔
    state ∈ c.baseSearcher ∨ state ∈ c.pausedStates ∧ state ∉ c'.pausedStates
  events : ∃ events, c'.log = c.log ++ events ∧
    c'.removedStates = c.removedStates ++ requests events ∧
    (∀ state, events.count (.deleted state) = removed.count state) ∧
    .updated ∉ events ∧ ∀ state, .executed state ∉ events

theorem count_releasing {events : List Event} (releasing : ∀ event ∈ events, event.Releasing)
    (event : Event) (other : ¬ event.Releasing) : events.count event = 0 :=
  count_eq_zero.mpr fun member => other (releasing event member)

theorem Removals.swept {c c' : Config σ τ} {removed : List StateId} (removals : Removals env c removed c') : Swept c removed c' := by
  induction removals with
  | done c =>
    exact ⟨by simp, rfl, rfl, by simp, by simp, [], by simp, by simp [requests], by simp, by simp, by simp⟩
  | @remove c c₁ c' state rest listed moves _ _ _ ih =>
    have freed : ({ c with states := c.states.erase state }.discard state).log =
        c.log ++ [.deleted state] := rfl
    refine ⟨?_, ih.addedStates.trans moves.addedStates, ih.nextState.trans moves.nextState,
      fun other member => moves.paused other (ih.paused other member), ?_, ?_⟩
    · intro other
      rw [ih.states, moves.states]
      change other ∈ c.states.erase state ∧ _ ↔ _
      rw [Finset.mem_erase, mem_cons]
      tauto
    · intro other
      rw [ih.held, moves.held]
      have earlier := moves.paused other
      have later := ih.paused other
      tauto
    · obtain ⟨events, log, releasing, requested, _⟩ := moves.events
      obtain ⟨more, moreLog, moreRequested, counts, notUpdated, notExecuted⟩ := ih.events
      refine ⟨.deleted state :: events ++ more, ?_, ?_, ?_, ?_, ?_⟩
      · rw [moreLog, log, freed]
        simp
      · rw [moreRequested, requested]
        simp [requests, discard, record, setState]
      · intro other
        rw [count_append, counts, count_cons, count_cons, count_releasing releasing _ (by simp [Event.Releasing])]
        simp [Nat.add_comm]
      · rw [mem_append, mem_cons]
        rintro ((impossible | member) | member)
        · cases impossible
        · exact releasing _ member
        · exact notUpdated member
      · intro other
        rw [mem_append, mem_cons]
        rintro ((impossible | member) | member)
        · cases impossible
        · exact releasing _ member
        · exact notExecuted other member

theorem removeState_spec {c : Config σ τ} {state : StateId} (valid : Valid [] c) (applied : c.addedStates = []) :
    Satisfies Tolerated (fun c' => Valid [] c' ∧ state ∈ c.states ∧ Moves ({ c with states := c.states.erase state }.discard state) c' ∧
        (AloneSettled env c state → Calm env c c'))
      (c.removeState env state) := by
  have scheduled := valid.scheduled
  refine satisfies_require (fun _ => by decide) fun listed => ?_
  have freed : ∀ other, (({ c with states := c.states.erase state }.discard state).heap other).isSome ↔
        other ≠ state ∧ (c.heap other).isSome := by
    intro other
    by_cases same : other = state
    · simp [discard, record, same]
    · simp [discard, record, same]
  have scheduledAfter : Scheduled ({ c with states := c.states.erase state }.discard state) := by
    refine ⟨?_, ?_, scheduled.addedOnce, ?_, scheduled.heldOnce, scheduled.pausedOnce, scheduled.apart, scheduled.closing⟩
    · intro other
      rw [freed, scheduled.allocated]
      simp only [discard, record, setState, Finset.mem_erase, applied, not_mem_nil, or_false]
    · intro other existed
      rw [freed] at existed
      exact scheduled.known other (existed.imp_left And.right)
    · intro other member
      simp [discard, record, setState, applied] at member
  refine (deleteState_spec (c := { c with states := c.states.erase state })
    (valid.owned.of_same (fun _ => rfl) (fun _ => rfl) rfl rfl) scheduledAfter
    (valid.waits.of_same (fun _ => rfl) fun _ => .rfl)).mono ?_
  rintro c' ⟨validAfter, moves, calm⟩
  refine ⟨validAfter, listed, moves, fun settled => ?_⟩
  have still := calm fun id handler present alone =>
    (settled id handler present alone).of_same rfl rfl rfl rfl
  exact ⟨still.memory, still.decision, still.heap, still.reached, still.removed⟩

theorem removeStates_spec {removed : List StateId} :
    ∀ {c : Config σ τ}, Valid [] c → c.addedStates = [] →
      Satisfies Tolerated (fun c' => Valid [] c' ∧ Removals env c removed c') (removed.foldlM (removeState env) c) := by
  induction removed with
  | nil => exact fun valid _ => ⟨valid, .done _⟩
  | cons state rest ih =>
    intro c valid applied
    refine (removeState_spec valid applied).bind ?_
    rintro c₁ ⟨valid₁, listed, moves, calm⟩
    refine (ih valid₁ (moves.addedStates.trans applied)).mono ?_
    rintro c' ⟨validAfter, later⟩
    exact ⟨validAfter, .remove listed moves calm valid₁ later⟩

def applyAdded (c : Config σ τ) (held : List StateId) : Config σ τ :=
  { c with
    states := c.states ∪ c.addedStates.toFinset
    addedStates := []
    baseSearcher := held }

structure Updated (env : Env σ τ) (c : Config σ τ) (current : StateId) (held : List StateId)
    (removed c' : Config σ τ) : Prop where
  skipped : current ∈ c.pausedStates → held = c.baseSearcher
  told : current ∉ c.pausedStates →
    (∀ state, state ∈ held ↔
      (state ∈ c.baseSearcher ∨ state ∈ c.addedStates) ∧ state ∉ c.removedStates) ∧
    c.removedStates.Nodup ∧
    ∀ state ∈ c.removedStates, state ∈ c.baseSearcher ∨ state ∈ c.addedStates
  removals : Removals env (c.applyAdded held) c.removedStates removed
  result : c' = { removed with removedStates := [], log := removed.log ++ [.updated] }

theorem searcherUpdate_spec {c : Config σ τ} {current : StateId} (scheduled : Scheduled c) :
    Satisfies Tolerated (fun c' => ∃ held, c' = { c with baseSearcher := held } ∧ held.Nodup ∧
        (∀ state ∈ held, state ∈ c.baseSearcher ∨ state ∈ c.addedStates) ∧
        (current ∈ c.pausedStates → held = c.baseSearcher) ∧
        (current ∉ c.pausedStates →
          (∀ state, state ∈ held ↔ (state ∈ c.baseSearcher ∨ state ∈ c.addedStates) ∧ state ∉ c.removedStates) ∧
          c.removedStates.Nodup ∧
          ∀ state ∈ c.removedStates, state ∈ c.baseSearcher ∨ state ∈ c.addedStates))
      (c.searcherUpdate current) := by
  unfold searcherUpdate
  split
  case isTrue paused =>
    exact ⟨c.baseSearcher, rfl, scheduled.heldOnce, fun _ member => .inl member, fun _ => rfl, fun running => absurd paused running⟩
  case isFalse running =>
    have once : (c.baseSearcher ++ c.addedStates).Nodup := by
      refine scheduled.heldOnce.append scheduled.addedOnce ?_
      exact fun state held added => (scheduled.addedApart state added).2.1 held
    refine (baseUpdate_spec once).mono ?_
    rintro c' ⟨held, rfl, heldOnce, members, removedOnce, known⟩
    exact ⟨held, rfl, heldOnce, fun state member => ((members state).mp member).1,
      fun paused => absurd paused running, fun _ => ⟨members, removedOnce, known⟩⟩

theorem applyAdded_valid {c : Config σ τ} {held : List StateId} (valid : Valid [] c) (heldOnce : held.Nodup)
    (known : ∀ state ∈ held, state ∈ c.baseSearcher ∨ state ∈ c.addedStates) : Valid [] (c.applyAdded held) := by
  have scheduled := valid.scheduled
  refine ⟨valid.owned.of_same (fun _ => rfl) (fun _ => rfl) rfl rfl, ?_, valid.waits.of_same (fun _ => rfl) fun _ => .rfl⟩
  refine ⟨?_, ?_, nodup_nil, by simp [applyAdded], heldOnce, scheduled.pausedOnce, ?_, scheduled.closing⟩
  · intro state
    simp only [applyAdded, scheduled.allocated, Finset.mem_union, mem_toFinset, not_mem_nil, or_false]
  · intro state existed
    refine scheduled.known state ?_
    rcases existed with here | member | waits
    · exact .inl here
    · rcases known state member with base | added
      · exact .inr (.inl base)
      · exact .inl ((scheduled.allocated state).mpr (.inr added))
    · exact .inr (.inr waits)
  · intro state paused member
    rcases known state member with base | added
    · exact scheduled.apart state paused base
    · exact (scheduled.addedApart state added).2.2 paused

theorem updateStates_spec {c : Config σ τ} {current : StateId} (valid : Valid [] c) :
    Satisfies Tolerated
      (fun c' => Valid [] c' ∧ c'.removedStates = [] ∧
        ∃ held removed, c.Updated env current held removed c') (c.updateStates env current) := by
  refine .bind (searcherUpdate_spec valid.scheduled) ?_
  rintro c₁ ⟨held, rfl, heldOnce, known, skipped, told⟩
  change Satisfies Tolerated _ (c.removedStates.foldlM (removeState env) (c.applyAdded held) >>= _)
  refine .bind (removeStates_spec (applyAdded_valid valid heldOnce known) rfl) ?_
  rintro removed ⟨validRemoved, removals⟩
  refine ⟨?_, rfl, held, removed, skipped, told, removals, rfl⟩
  exact ⟨validRemoved.owned.of_same (fun _ => rfl) (fun _ => rfl) rfl rfl, validRemoved.scheduled.of_same (fun _ => rfl) rfl,
    validRemoved.waits.of_same (fun _ => rfl) fun _ => .rfl⟩

theorem start_valid (initial : List (ExecutionState σ)) (memory : τ) : Valid [] (start initial memory) := by
  have allocated : ∀ state, ((start initial memory).heap state).isSome ↔ state < initial.length := by
    intro state
    simp [start]
  have stackEmpty : ∀ state, (start initial memory).stack state = [] := by
    intro state
    cases present : initial[state]? with
    | none => simp [stack, start, present]
    | some es => simp [stack, start, present]
  refine ⟨⟨by simp [start], by simp [start], by simp [start], by simp [start], ?_, by simp,
    by simp [start]⟩, ⟨?_, ?_, by simp [start], by simp [start], by simp [start, nodup_range],
    by simp [start], by simp [start], by simp [start]⟩, ⟨?_, ?_, ?_⟩⟩
  · intro state id member
    simp [stackEmpty] at member
  · intro state
    simp [start]
  · intro state existed
    rw [allocated] at existed
    simp only [start, mem_range, not_mem_nil, or_false, or_self] at existed
    exact existed
  · simp [waiting, start]
  · simp [waiting, start]
  · simp [waiting, start]

/-- A condition on the iterations of a run: on what happens in the iteration, on
the state that was selected, and on the configuration in which `updateStates` is
called for it. -/
structure Condition (σ τ : Type) where
  starting : Config σ τ → Choice σ τ → Prop
  selected : Config σ τ → StateId → Prop
  updating : Config σ τ → StateId → Prop

def Condition.always : Condition σ τ := ⟨fun _ _ => True, fun _ _ => True, fun _ _ => True⟩

/-- A condition on the calls of `updateStates` only. -/
def Condition.whenUpdating (updating : Config σ τ → StateId → Prop) : Condition σ τ :=
  { Condition.always with updating }

/-- The configurations between the iterations of a run in which every iteration
meets the condition. -/
inductive Reachable (env : Env σ τ) (condition : Condition σ τ) (initial : Config σ τ) :
    Config σ τ → Prop
  | start : Reachable env condition initial initial
  | iterate {c c₁ c₂ choice current} (before : Reachable env condition initial c)
      (running : c.states ≠ ∅) (starting : condition.starting c choice)
      (selected : ∀ chosen state, c.selectState env choice.pick = .ok (chosen, state) →
        condition.selected chosen state)
      (executed : c.execute env choice = .ok (c₁, current))
      (updating : condition.updating c₁ current)
      (updated : c₁.updateStates env current = .ok c₂) : Reachable env condition initial c₂

variable {condition : Condition σ τ} {initial : Config σ τ}

theorem Reachable.valid {c : Config σ τ} (reachable : Reachable env condition initial c) (valid : Valid [] initial) : Valid [] c := by
  induction reachable with
  | start => exact valid
  | iterate before running starting selected executed updating updated ih =>
    exact ((updateStates_spec ((execute_spec ih).elim executed).valid).elim updated).1

theorem Reachable.applied {c : Config σ τ} (reachable : Reachable env condition initial c)
    (valid : Valid [] initial) (applied : initial.addedStates = []) : c.addedStates = [] := by
  cases reachable with
  | start => exact applied
  | iterate before running starting selected executed updating updated =>
    obtain ⟨_, _, held, removed, update⟩ := (updateStates_spec ((execute_spec (before.valid valid)).elim executed).valid).elim updated
    rw [update.result]
    exact update.removals.swept.addedStates

/-- The induction over a run: an invariant that the steps keep from the selected
state on and that `updateStates` restores. -/
theorem Reachable.invariant {c : Config σ τ} (outer inner : Config σ τ → Prop)
    (reachable : Reachable env condition initial c) (valid : Valid [] initial) (initially : outer initial)
    (enter : ∀ c choice selected current stepped, Valid [] c → outer c → c.states ≠ ∅ →
      c.selectState env choice = .ok (selected, current) → condition.selected selected current →
      selected.stepInstruction current = .ok stepped → inner stepped) (step : ∀ c c', Step c c' → inner c → inner c')
    (leave : ∀ c current held removed c', Valid [] c → inner c → condition.updating c current →
      c.Updated env current held removed c' → Valid [] c' → c'.removedStates = [] → outer c') : outer c := by
  induction reachable with
  | start => exact initially
  | @iterate c c₁ c₂ choice current before running starting selected executed updating updated ih =>
      have validBefore := before.valid valid
      obtain ⟨validExecuted, chosen, stepped, select, stepping, steps⟩ := (execute_spec validBefore).elim executed
      have innerStart := enter c choice.pick chosen current stepped validBefore ih running select
        (selected chosen current select) stepping
      change Steps stepped c₁ at steps
      have innerEnd : inner c₁ := by
        clear executed updated updating validExecuted select stepping
        induction steps with
        | refl => exact innerStart
        | tail _ last continued => exact step _ _ last continued
      obtain ⟨validUpdated, emptied, held, removed, update⟩ := (updateStates_spec validExecuted).elim updated
      exact leave c₁ current held removed c₂ validExecuted innerEnd updating update validUpdated emptied

theorem Reachable.mono {weaker : Condition σ τ} {c : Config σ τ}
    (reachable : Reachable env condition initial c) (valid : Valid [] initial)
    (start : ∀ c choice, condition.starting c choice → weaker.starting c choice)
    (selecting : ∀ c state, condition.selected c state → weaker.selected c state)
    (update : ∀ c current, Valid [] c → condition.updating c current → weaker.updating c current) : Reachable env weaker initial c := by
  induction reachable with
  | start => exact .start
  | iterate before running starting selected executed updating updated ih =>
    refine .iterate ih running (start _ _ starting) (fun chosen state select => ?_) executed ?_ updated
    · exact selecting chosen state (selected chosen state select)
    · exact update _ _ ((execute_spec (before.valid valid)).elim executed).valid updating

/-- Whether the iterations that `choices` describe all return and meet a
decidable condition. -/
def complies (env : Env σ τ) (condition : Condition σ τ)
    [∀ c choice, Decidable (condition.starting c choice)]
    [DecidableRel condition.selected] [DecidableRel condition.updating] (c : Config σ τ) : List (Choice σ τ) → Bool
  | [] => true
  | choice :: choices =>
    match c.selectState env choice.pick, c.execute env choice with
    | .ok (chosen, state), .ok (c₁, current) =>
      match c₁.updateStates env current with
      | .ok c₂ =>
        decide (condition.starting c choice) && decide (condition.selected chosen state) &&
          decide (condition.updating c₁ current) && c₂.complies env condition choices
      | .error _ => false
    | _, _ => false

theorem reachable_of_complies [∀ c choice, Decidable (condition.starting c choice)]
    [DecidableRel condition.selected] [DecidableRel condition.updating] {c c' : Config σ τ}
    {choices : List (Choice σ τ)} (before : Reachable env condition initial c)
    (complies : c.complies env condition choices = true) (ran : c.run env choices = .ok c') : Reachable env condition initial c' := by
  induction choices generalizing c with
  | nil =>
    simp only [run, pure, Except.pure, Except.ok.injEq] at ran
    rwa [← ran]
  | cons choice choices ih =>
    unfold run at ran
    split at ran
    case isTrue =>
      simp only [pure, Except.pure, Except.ok.injEq] at ran
      rwa [← ran]
    case isFalse running =>
      obtain ⟨⟨c₁, current⟩, executed, ran⟩ := bind_eq_ok_iff.mp ran
      obtain ⟨c₂, updated, ran⟩ := bind_eq_ok_iff.mp ran
      unfold Config.complies at complies
      rw [executed] at complies
      cases select : c.selectState env choice.pick with
      | error fault => simp [select] at complies
      | ok chosen =>
        simp only [select, updated, Bool.and_eq_true, decide_eq_true_eq] at complies
        obtain ⟨⟨⟨starting, selected⟩, updating⟩, later⟩ := complies
        refine ih (.iterate before running starting ?_ executed updating updated) later ran
        intro other state same
        cases select.symm.trans same
        exact selected

instance (c : Config σ τ) (choice : Choice σ τ) :
    Decidable (Condition.always.starting c choice) :=
  inferInstanceAs (Decidable True)

instance : DecidableRel (Condition.always (σ := σ) (τ := τ)).selected :=
  fun _ _ => inferInstanceAs (Decidable True)

instance : DecidableRel (Condition.always (σ := σ) (τ := τ)).updating :=
  fun _ _ => inferInstanceAs (Decidable True)

instance {updating : Config σ τ → StateId → Prop} (c : Config σ τ) (choice : Choice σ τ) :
    Decidable ((Condition.whenUpdating updating).starting c choice) :=
  inferInstanceAs (Decidable True)

instance {updating : Config σ τ → StateId → Prop} :
    DecidableRel (Condition.whenUpdating updating).selected :=
  fun _ _ => inferInstanceAs (Decidable True)

instance {updating : Config σ τ → StateId → Prop} [decidable : DecidableRel updating] :
    DecidableRel (Condition.whenUpdating updating).updating :=
  decidable

end NeuroMerge.Merging.Config
