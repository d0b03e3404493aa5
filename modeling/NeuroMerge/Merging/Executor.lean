import NeuroMerge.Merging.Handler

/-!
# The main loop

`Executor::run` with merging enabled. What an instruction does to the selected
state and to the states it forks is a list of effects; everything around
the instruction (selection, opening and closing merge regions, the memory cap,
`updateStates`) is the loop's own.
-/

namespace NeuroMerge.Merging

variable {σ τ : Type}

/-- What executing an instruction can do to the scheduling state. `assign` is
everything it does to one state's program state. -/
inductive Effect (σ τ : Type) where
  | branch (state : StateId)
  | terminate (state : StateId)
  | openMerge (state : StateId)
  | closeMerge (state : StateId) (mp : KInst)
  | assign (state : StateId) (pc : KInst) (contents : σ) (memory : τ)

def Effect.state : Effect σ τ → StateId
  | branch state | terminate state | openMerge state | closeMerge state _
  | assign state _ _ _ => state

/-- What one iteration of the main loop does not decide itself: the preference
of the base searcher, the effects of the instruction, whether it set `forked`,
and the states that the memory cap ends early. -/
structure Choice (σ τ : Type) where
  pick : Nat
  effects : List (Effect σ τ)
  forked : Bool
  killed : List StateId

namespace Config

variable (env : Env σ τ)

/-- `ref<MergeHandler>::inc` and `addOpenState` for one entry of a copied
`openMergeStack`. -/
def shareHandler (child : StateId) (c : Config σ τ) (id : HandlerId) :
    Except Fault (Config σ τ) := do
  let handler ← c.handler id
  addOpenState (c.setHandler id (some { handler with refCount := handler.refCount + 1 })) id child

/-- `ExecutionState::branch` followed by `addedStates.push_back`. -/
def branch (c : Config σ τ) (state : StateId) : Except Fault (Config σ τ) := do
  let es ← c.deref state
  let child := c.nextState
  let c := { c.setState child (some es) with
    nextState := child + 1
    addedStates := c.addedStates ++ [child] }
  let c ← es.openMergeStack.foldlM (shareHandler child) c
  pure (c.record (.forked state child))

def handleOpenMerge (c : Config σ τ) (state : StateId) : Except Fault (Config σ τ) := do
  let es ← c.deref state
  let id := c.nextHandler
  let c := { c.setHandler id (some {
      openInstruction := es.steppedInstructions, closedMean := 0, closedStateCount := 0,
      openStates := [state], reachedCloseMerge := [], refCount := 1 }) with
    nextHandler := id + 1
    mergeGroups := c.mergeGroups ++ [id] }
  pure (c.setState state (some { es with openMergeStack := es.openMergeStack ++ [id] }))

def enterCloseMerge (c : Config σ τ) (state : StateId) : Config σ τ :=
  { c with inCloseMerge := insert state c.inCloseMerge }

def handleCloseMerge (c : Config σ τ) (state : StateId) (mp : KInst) :
    Except Fault (Config σ τ) := do
  let es ← c.deref state
  match es.openMergeStack.getLast? with
  | none => pure c
  | some id =>
    require (state ∉ c.inCloseMerge) .stateInCloseMerge
    let c ← (c.enterCloseMerge state).addClosedState env id state mp
    let es ← c.deref state
    let c := c.setState state (some { es with openMergeStack := es.openMergeStack.dropLast })
    let c := c.record (.closed state id mp)
    decRef env (destroy env) c id

/-- One request of `removedStates` in `updateStates`. -/
def removeState (c : Config σ τ) (state : StateId) : Except Fault (Config σ τ) := do
  require (state ∈ c.states) .removedStateUnknown
  destroy env { c with states := c.states.erase state } state

/-- `Executor::updateStates`. The loop runs over the requests that are there
when it starts; `removedStates.clear()` drops those that a destructor pushes
meanwhile. -/
def updateStates (c : Config σ τ) (current : StateId) : Except Fault (Config σ τ) := do
  let c ← c.searcherUpdate current
  let removed := c.removedStates
  let c := { c with states := c.states ∪ c.addedStates.toFinset, addedStates := [] }
  let c ← removed.foldlM (removeState env) c
  pure ({ c with removedStates := [] }.record .updated)

/-- `MergeHandler::getPrioritizeState` over the remaining open states. -/
def getPrioritizeState (c : Config σ τ) (handler : MergeHandler) :
    List StateId → Except Fault (Option StateId)
  | [] => pure none
  | state :: rest => do
    if state ∈ c.inCloseMerge then getPrioritizeState c handler rest
    else
      let es ← c.deref state
      if handler.getInstructionDistance es < env.round (2 * handler.getMean) then
        pure (some state)
      else getPrioritizeState c handler rest

def selectMerging (pick : Nat) (c : Config σ τ) :
    List HandlerId → Except Fault (Config σ τ × StateId)
  | [] => do pure (c, ← c.baseSelect pick)
  | id :: groups => do
    let handler ← c.handler id
    if handler.hasMergedStates then
      match ← c.getPrioritizeState env handler handler.openStates with
      | some state => pure (c, state)
      | none => do
        let c ← c.releaseStates env (destroy env) id
        selectMerging pick c groups
    else selectMerging pick c groups

def selectState (c : Config σ τ) (pick : Nat) : Except Fault (Config σ τ × StateId) := do
  require (c.baseSearcher ≠ []) .baseSearcherEmpty
  if env.useIncompleteMerge then selectMerging env pick c c.mergeGroups
  else pure (c, ← c.baseSelect pick)

def stepInstruction (c : Config σ τ) (state : StateId) : Except Fault (Config σ τ) := do
  let es ← c.deref state
  let c := c.setState state (some { es with
    steppedInstructions := (es.steppedInstructions + 1) % 2 ^ 64
    prevPC := es.pc
    pc := es.pc + 1 })
  pure (c.record (.executed state))

def applyEffect (c : Config σ τ) : Effect σ τ → Except Fault (Config σ τ)
  | .branch state => c.branch state
  | .terminate state => c.terminateState (destroy env) state
  | .openMerge state => c.handleOpenMerge state
  | .closeMerge state mp => c.handleCloseMerge env state mp
  | .assign state pc contents memory => do
    let es ← c.deref state
    pure ({ c with memory }.setState state (some { es with pc, contents }))

/-- `executeInstruction(state, ki)`: an instruction acts on the selected state
and on the states it forked from it. -/
def executeInstruction (c : Config σ τ) (current : StateId) (effects : List (Effect σ τ)) :
    Except Fault (Config σ τ) :=
  effects.foldlM (fun c effect =>
    if effect.state = current ∨ effect.state ∈ c.addedStates then c.applyEffect env effect
    else pure c) c

/-- The block at which the states that `bb` forks come together again. -/
def closeBlock (bb : Block) : Option Block :=
  match env.successors bb with
  | [] => none
  | first :: rest =>
    (first :: rest).foldlM (fun closeBB successor =>
      env.findNearestCommonDominator closeBB successor) first

def openRegion (c : Config σ τ) (state : StateId) (closeBB : Block) :
    Except Fault (Config σ τ) := do
  let id := c.nextHandler
  let c ← c.handleOpenMerge state
  pure (c.record (.opened state id closeBB))

/-- The open merge part of `Executor::run` after the instruction `ki`. -/
def autoOpenMerge (c : Config σ τ) (state : StateId) (ki : KInst) (forked : Bool) :
    Except Fault (Config σ τ) :=
  let bb := env.parent ki
  if ki = env.terminator bb ∧ 1 < (env.successors bb).length ∧ forked then
    match c.openMergeMap bb with
    | some closeBB => c.openRegion state closeBB
    | none =>
      match closeBlock env bb with
      | none => pure c
      | some closeBB =>
        if env.isPotentiallyReachable bb closeBB then do
          let openMergeMap := Function.update c.openMergeMap bb (some closeBB)
          let c ← { c with openMergeMap }.openRegion state closeBB
          pure { c with closeMergeSet := insert closeBB c.closeMergeSet }
        else pure c
  else pure c

/-- The close merge part of `Executor::run` after the instruction `ki`. -/
def autoCloseMerge (c : Config σ τ) (state : StateId) (ki : KInst) :
    Except Fault (Config σ τ) :=
  let bb := env.parent ki
  if ki = env.firstNonPHI bb ∧ bb ∈ c.closeMergeSet then c.handleCloseMerge env state ki
  else pure c

/-- `checkMemoryUsage`: `killed` are the states drawn from `states`. -/
def checkMemoryUsage (c : Config σ τ) (killed : List StateId) : Except Fault (Config σ τ) :=
  (killed.filter (· ∈ c.states)).foldlM (terminateState (destroy env)) c

/-- An iteration of the main loop up to its call of `updateStates`, with the
state that was selected. -/
def execute (c : Config σ τ) (choice : Choice σ τ) : Except Fault (Config σ τ × StateId) := do
  let (c, state) ← c.selectState env choice.pick
  let ki := (← c.deref state).pc
  let c ← c.stepInstruction state
  let c ← c.executeInstruction env state choice.effects
  let c ← c.autoOpenMerge env state ki choice.forked
  let c ← c.autoCloseMerge env state ki
  let c ← c.checkMemoryUsage env choice.killed
  pure (c, state)

/-- `while (!states.empty() && !haltExecution)`, halted after `choices`. -/
def run (c : Config σ τ) : List (Choice σ τ) → Except Fault (Config σ τ)
  | [] => pure c
  | choice :: choices =>
    if c.states = ∅ then pure c
    else do
      let (c, state) ← c.execute env choice
      let c ← c.updateStates env state
      run c choices

end Config

end NeuroMerge.Merging
