import Mathlib.Data.Finset.Basic
import Mathlib.Data.List.Sort
import NeuroMerge.Merging.Searcher

/-!
# Merge handlers

A handler stands for one open merge region. It lists the states inside the
region and, for every close point, the states that wait there. The last
reference to a handler destroys it, which releases the waiting states; a
release may terminate states, and deleting a state drops references again.
`delete` stands for the destructor of an execution state wherever a function
is called from that destructor.
-/

namespace NeuroMerge.Merging

variable {σ τ : Type}

namespace MergeHandler

/-- `unsigned getInstructionDistance(ExecutionState *es)` -/
def getInstructionDistance (handler : MergeHandler) (es : ExecutionState σ) : Nat :=
  (((es.steppedInstructions : Int) - handler.openInstruction) % 2 ^ 32).toNat

def getMean (handler : MergeHandler) : ℚ :=
  if handler.closedStateCount = 0 then 0 else handler.closedMean

def hasMergedStates (handler : MergeHandler) : Bool :=
  !handler.reachedCloseMerge.isEmpty

/-- The statistics of `addClosedState`: the count and the travelling mean. -/
def countClosed (env : Env σ τ) (handler : MergeHandler) (es : ExecutionState σ) :
    MergeHandler :=
  let count : Nat := (handler.closedStateCount + 1) % 2 ^ 32
  let distance : ℚ := handler.getInstructionDistance es
  { handler with
    closedStateCount := count
    closedMean := env.round (handler.closedMean +
      env.round (env.round (distance - handler.closedMean) / count)) }

/-- `reachedCloseMerge[mp].push_back(es)` on the map ordered by its keys. -/
def reachClose (mp : KInst) (state : StateId) :
    List (KInst × List StateId) → List (KInst × List StateId)
  | [] => [(mp, [state])]
  | (key, waiting) :: rest =>
    if mp < key then (mp, [state]) :: (key, waiting) :: rest
    else if mp = key then (key, waiting ++ [state]) :: rest
    else (key, waiting) :: reachClose mp state rest

end MergeHandler

def toSet (states : List StateId) : List StateId :=
  states.dedup.insertionSort (· ≤ ·)

namespace Config

variable (env : Env σ τ) (delete : Config σ τ → StateId → Except Fault (Config σ τ))

def addOpenState (c : Config σ τ) (id : HandlerId) (state : StateId) :
    Except Fault (Config σ τ) := do
  let handler ← c.handler id
  pure (c.setHandler id (some { handler with openStates := handler.openStates ++ [state] }))

def removeOpenState (c : Config σ τ) (id : HandlerId) (state : StateId) :
    Except Fault (Config σ τ) := do
  let handler ← c.handler id
  require (state ∈ handler.openStates) .openStateMissing
  pure (c.setHandler id (some { handler with openStates := swapRemove handler.openStates state }))

def addClosedState (c : Config σ τ) (id : HandlerId) (state : StateId) (mp : KInst) :
    Except Fault (Config σ τ) := do
  let es ← c.deref state
  let handler ← c.handler id
  let c ← (c.setHandler id (some (handler.countClosed env es))).removeOpenState id state
  let handler ← c.handler id
  pauseState (c.setHandler id (some { handler with
    reachedCloseMerge := MergeHandler.reachClose mp state handler.reachedCloseMerge }))
    state

def terminateState (c : Config σ τ) (state : StateId) : Except Fault (Config σ τ) :=
  if state ∈ c.addedStates then
    delete { c with addedStates := c.addedStates.erase state } state
  else do
    let es ← c.deref state
    let c := c.setState state (some { es with pc := es.prevPC })
    pure { c with removedStates := c.removedStates ++ [state] }

def canMerge (c : Config σ τ) (mState state : StateId) : Except Fault Bool := do
  let target ← c.deref mState
  let source ← c.deref state
  pure (target.pc = source.pc && env.canMerge c.memory target.contents source.contents)

/-- The loop that fills `temp_merge_group`. -/
def mergePartners (c : Config σ τ) (mState : StateId) (group : List StateId) :
    Except Fault (List StateId) :=
  group.foldlM (fun partners state => do
    if ← c.canMerge env mState state then pure (partners ++ [state]) else pure partners) []

def merge (c : Config σ τ) (mState state : StateId) :
    Except Fault (Option (Config σ τ)) := do
  let target ← c.deref mState
  let source ← c.deref state
  if target.pc = source.pc then
    match env.merge c.memory target.contents source.contents with
    | .refused => pure none
    | .merged memory contents =>
      pure (some ({ c with memory }.setState mState (some { target with contents })))
    | .aborted => .error .mergeAborted
  else pure none

/-- Whether states at `inst` are merged: the cached decision, or the answer that
will be cached. -/
def decision (c : Config σ τ) (inst : KInst) : Bool :=
  (c.mergeDecisionCache inst).getD (env.mergeOrNot inst)

/-- The decision about `inst` has been cached. -/
def cacheDecision (c : Config σ τ) (inst : KInst) : Config σ τ :=
  { c with mergeDecisionCache :=
      Function.update c.mergeDecisionCache inst (some (c.decision env inst)) }

/-- Merge the first possible state of `partners` into `mState`. -/
def mergeFirst (mState : StateId) (c : Config σ τ) :
    List StateId → Except Fault (Config σ τ)
  | [] => pure c
  | state :: partners => do
    match ← c.merge env mState state with
    | some c => terminateState delete (c.record (.absorbed mState state)) state
    | none => mergeFirst mState c partners

def mergeDecided (c : Config σ τ) (mState : StateId) (partners : List StateId) :
    Except Fault (Config σ τ) := do
  let target ← c.deref mState
  if c.decision env target.pc then
    mergeFirst env delete mState (c.cacheDecision env target.pc) partners
  else pure (c.cacheDecision env target.pc)

/-- The loop over `merge_grounp` in `releaseStates`. The set is emptied from its
beginning; `erased` are the states that were removed from it as partners of an
earlier state. -/
def mergeGroup (c : Config σ τ) (erased : List StateId) :
    List StateId → Except Fault (Config σ τ)
  | [] => pure c
  | mState :: rest =>
    if mState ∈ erased then mergeGroup c erased rest
    else do
      let partners ← c.mergePartners env mState (rest.filter (· ∉ erased))
      if partners = [] then mergeGroup c erased rest
      else do
        let c ← c.mergeDecided env delete mState partners
        mergeGroup c (erased ++ partners) rest

def continueWaiting (c : Config σ τ) (state : StateId) : Except Fault (Config σ τ) := do
  let c ← c.continueState state
  pure { c with inCloseMerge := c.inCloseMerge.erase state }

def releaseStates (c : Config σ τ) (id : HandlerId) : Except Fault (Config σ τ) := do
  let handler ← c.handler id
  let c ← handler.waiting.foldlM continueWaiting c
  let c ← handler.reachedCloseMerge.foldlM
    (fun c group => mergeGroup env delete c [] (toSet group.2)) c
  let handler ← c.handler id
  pure (c.setHandler id (some { handler with reachedCloseMerge := [] }))

def destroyHandler (c : Config σ τ) (id : HandlerId) : Except Fault (Config σ τ) := do
  require (id ∈ c.mergeGroups) .handlerNotRegistered
  let c ← releaseStates env delete { c with mergeGroups := swapRemove c.mergeGroups id } id
  pure (c.setHandler id none)

def decRef (c : Config σ τ) (id : HandlerId) : Except Fault (Config σ τ) := do
  let handler ← c.handler id
  let c := c.setHandler id (some { handler with refCount := handler.refCount - 1 })
  if handler.refCount - 1 = 0 then destroyHandler env delete c id else pure c

/-- `ExecutionState::~ExecutionState`. A nested deletion is that of a state
still in `addedStates`, so their number bounds the depth. -/
def deleteState : Nat → Config σ τ → StateId → Except Fault (Config σ τ)
  | 0, _, _ => .error .outOfFuel
  | depth + 1, c, state => do
    let es ← c.deref state
    let c ← es.openMergeStack.foldlM (fun c id => c.removeOpenState id state) c
    let c := (c.setState state none).record (.deleted state)
    es.openMergeStack.foldlM (decRef env (deleteState depth)) c

def destroy (c : Config σ τ) (state : StateId) : Except Fault (Config σ τ) :=
  deleteState env (c.addedStates.length + 1) c state

end Config

end NeuroMerge.Merging
