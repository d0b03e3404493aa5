import NeuroMerge.Merging.RunProperties

/-!
# Handlers and stacks mirror each other

Over every sequence of operations on the scheduling state, in whatever order,
the open states of the live handlers are the states on whose stacks they are.
-/

namespace NeuroMerge.Merging

open Config

variable {σ τ : Type} {env : Env σ τ}

/-- An operation that changes which states are inside which region: what an
instruction does to a state, a selection with its preemptive releases, and the
deletion of the states that were requested to be removed. -/
inductive Operation (σ τ : Type) where
  | effect (effect : Effect σ τ)
  | selectState (pick : Nat)
  | updateStates (current : StateId)

def Config.perform (env : Env σ τ) (c : Config σ τ) :
    Operation σ τ → Except Fault (Config σ τ)
  | .effect effect => c.applyEffect env effect
  | .selectState pick => do
    let (c, _) ← c.selectState env pick
    pure c
  | .updateStates current => c.updateStates env current

theorem perform_valid {c : Config σ τ} (valid : Valid [] c) (operation : Operation σ τ) :
    Satisfies Tolerated (Valid []) (c.perform env operation) := by
  cases operation with
  | effect effect => exact (applyEffect_progress valid effect).mono fun _ progress => progress.1
  | selectState pick =>
    refine (selectState_spec valid).bind ?_
    exact fun selected facts => facts.1
  | updateStates current => exact (updateStates_spec valid).mono fun _ facts => facts.1

/-- Every live state is among the open states of every live handler as often as
the handler is on its stack, and exactly the live handlers are merge groups. -/
structure Mirrored (c : Config σ τ) : Prop where
  count : ∀ state es id handler, c.heap state = some es → c.handlers id = some handler →
    handler.openStates.count state = es.openMergeStack.count id
  groupsOnce : c.mergeGroups.Nodup
  groups : ∀ id, id ∈ c.mergeGroups ↔ ∃ handler, c.handlers id = some handler

/-- The assertions of `removeOpenState` and of the handler's destructor. -/
def OwnershipAssertion (fault : Fault) : Prop :=
  fault = .assertion .openStateMissing ∨ fault = .assertion .handlerNotRegistered

/-- After every sequence of operations handlers and stacks mirror each other, and
no sequence of operations violates the assertions about them. -/
theorem openStates_mirror_openMergeStack (env : Env σ τ) (initial : List (ExecutionState σ))
    (memory : τ) (operations : List (Operation σ τ)) :
    (∀ c, operations.foldlM (perform env) (start initial memory) = .ok c → Mirrored c) ∧
      ∀ fault, operations.foldlM (perform env) (start initial memory) = .error fault →
        ¬ OwnershipAssertion fault := by
  have valid : Satisfies Tolerated (Valid [])
      (operations.foldlM (perform env) (start initial memory)) :=
    .foldlM_const (start_valid initial memory)
      fun operation _ _ valid => perform_valid valid operation
  constructor
  · intro c performed
    have owned := (valid.elim performed).owned
    refine ⟨?_, owned.registeredOnce, ?_⟩
    · intro state es id handler present handlerPresent
      rw [owned.mirrored id handler handlerPresent, stack_eq present]
    · intro id
      rw [owned.registered, Option.isSome_iff_exists]
  · intro fault failed
    have tolerated := valid.fault failed
    rintro (rfl | rfl)
    · exact tolerated.1 rfl
    · exact tolerated.2.1 rfl

end NeuroMerge.Merging
