import Mathlib.Data.Finset.Range
import Mathlib.Algebra.Order.Field.Basic
import Mathlib.Algebra.Order.Ring.Rat
import NeuroMerge.Foundations.Outcome
import NeuroMerge.Foundations.SwapRemove

/-!
# The executor's scheduling state

The data that `Executor`, `MergingSearcher`, `MergeHandler` and
`ExecutionState` share while states are forked, merged and deleted. Pointers
are identifiers that are never used twice; what a pointer refers to is kept in
`heap` and `handlers`, and a freed object is `none` there.
-/

namespace NeuroMerge.Merging

/-- `ExecutionState *` -/
abbrev StateId := Nat

/-- `MergeHandler *` -/
abbrev HandlerId := Nat

/-- `KInstIterator`: a position in the instruction array of a function. -/
abbrev KInst := Nat

/-- `llvm::BasicBlock *` -/
abbrev Block := Nat

/-- The parts of `ExecutionState` that scheduling reads. `contents` is what
`ExecutionState::merge` compares and combines: the stack, the address space,
the symbolics and the path condition. -/
structure ExecutionState (σ : Type) where
  pc : KInst
  prevPC : KInst
  steppedInstructions : Nat
  openMergeStack : List HandlerId
  contents : σ

/-- `closedMean` is a `double`; the rounding of its operations is `Env.round`. -/
structure MergeHandler where
  openInstruction : Nat
  closedMean : ℚ
  closedStateCount : Nat
  openStates : List StateId
  reachedCloseMerge : List (KInst × List StateId)
  refCount : Nat

def MergeHandler.waiting (handler : MergeHandler) : List StateId :=
  handler.reachedCloseMerge.flatMap (·.2)

/-- The assertions of the source that guard the scheduling state. -/
inductive Assertion where
  | baseSearcherEmpty
  | stateAlreadyPaused
  | stateNotPaused
  | invalidStateRemoved
  | openStateMissing
  | handlerNotRegistered
  | stateInCloseMerge
  | removedStateUnknown
  deriving DecidableEq, Repr

/-- Why a run of the executor ends other than by returning. -/
inductive Fault where
  | assertion (failed : Assertion)
  | useAfterFree
  | mergeAborted
  | outOfFuel
  deriving DecidableEq, Repr

/-- How a call of `ExecutionState::merge` ends: it returns false, it returns
true and leaves the merged memory and contents behind, or an assertion in it
fails. -/
inductive MergeOutcome (σ τ : Type) where
  | refused
  | merged (memory : τ) (contents : σ)
  | aborted

/-- What happened to states and handlers so far, oldest event first. -/
inductive Event where
  | executed (state : StateId)
  | forked (parent child : StateId)
  | opened (state : StateId) (handler : HandlerId) (closeBB : Block)
  | closed (state : StateId) (handler : HandlerId) (mp : KInst)
  | continued (state : StateId)
  | absorbed (target source : StateId)
  | deleted (state : StateId)
  | updated
  deriving DecidableEq, Repr

/-- `states`, `addedStates` and `removedStates` are the executor's;
`baseSearcher` is what the base searcher holds. `log` is not part of the
program. -/
structure Config (σ τ : Type) where
  states : Finset StateId
  addedStates : List StateId
  removedStates : List StateId
  baseSearcher : List StateId
  pausedStates : List StateId
  inCloseMerge : Finset StateId
  mergeGroups : List HandlerId
  mergeDecisionCache : KInst → Option Bool
  openMergeMap : Block → Option Block
  closeMergeSet : Finset Block
  heap : StateId → Option (ExecutionState σ)
  handlers : HandlerId → Option MergeHandler
  memory : τ
  nextState : StateId
  nextHandler : HandlerId
  log : List Event

/-- What the scheduling code takes from the rest of the program and from its
command line. `mergeOrNot` is the answer of `merge_or_not` (random, fixed, or
the classifier's): it is asked at most once for each instruction, because the
answer is cached. `terminator`, `successors`, `firstNonPHI` and `parent`
describe the module; `findNearestCommonDominator` is LLVM's post-dominator
tree. -/
structure Env (σ τ : Type) where
  canMerge : τ → σ → σ → Bool
  merge : τ → σ → σ → MergeOutcome σ τ
  mergeOrNot : KInst → Bool
  round : ℚ → ℚ
  useIncompleteMerge : Bool
  parent : KInst → Block
  terminator : Block → KInst
  firstNonPHI : Block → KInst
  successors : Block → List Block
  findNearestCommonDominator : Block → Block → Option Block
  isPotentiallyReachable : Block → Block → Bool

variable {σ τ : Type}

def require (condition : Prop) [Decidable condition] (failed : Assertion) :
    Except Fault Unit :=
  if condition then .ok () else .error (.assertion failed)

namespace Config

def deref (c : Config σ τ) (state : StateId) : Except Fault (ExecutionState σ) :=
  match c.heap state with
  | some es => .ok es
  | none => .error .useAfterFree

def handler (c : Config σ τ) (id : HandlerId) : Except Fault MergeHandler :=
  match c.handlers id with
  | some found => .ok found
  | none => .error .useAfterFree

def setState (c : Config σ τ) (state : StateId) (es : Option (ExecutionState σ)) :
    Config σ τ :=
  { c with heap := Function.update c.heap state es }

def setHandler (c : Config σ τ) (id : HandlerId) (found : Option MergeHandler) :
    Config σ τ :=
  { c with handlers := Function.update c.handlers id found }

def record (c : Config σ τ) (event : Event) : Config σ τ :=
  { c with log := c.log ++ [event] }

/-- The configuration in which `Executor::run` enters its main loop, holding
the states that seeding left or the initial state. No state can have an open
merge region before there is a merging searcher. -/
def start (initial : List (ExecutionState σ)) (memory : τ) : Config σ τ where
  states := Finset.range initial.length
  addedStates := []
  removedStates := []
  baseSearcher := List.range initial.length
  pausedStates := []
  inCloseMerge := ∅
  mergeGroups := []
  mergeDecisionCache := fun _ => none
  openMergeMap := fun _ => none
  closeMergeSet := ∅
  heap := fun state => initial[state]?.map fun es => { es with openMergeStack := [] }
  handlers := fun _ => none
  memory := memory
  nextState := initial.length
  nextHandler := 0
  log := []

end Config

end NeuroMerge.Merging
