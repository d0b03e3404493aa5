import Mathlib.Data.List.Nodup
import NeuroMerge.Foundations.Outcome

/-!
# The iterative deepening searcher

A state that has run for longer than the time budget waits until all others have, too. Then
all of them go back to the base searcher, with twice the budget. The base searcher is what
the command line asks for; one that follows a random path keeps no states itself.
-/

namespace NeuroMerge.Searching

open List

variable {State : Type} [DecidableEq State] {states states' addedStates removedStates : List State} {es : State}
  {current : Option State}

inductive Fault where
  | invalidState
  | noState
  deriving DecidableEq

/-!
## The searchers of single states
-/

/-- The loop that takes out a state; the assertion behind it is that there was one. -/
def eraseState (states : List State) (es : State) : Except Fault (List State) :=
  if es ∈ states then pure (states.erase es) else throw .invalidState

def DFSSearcher.remove (states : List State) (es : State) : Except Fault (List State) :=
  if states.getLast? = some es then pure states.dropLast else eraseState states es

def DFSSearcher.update (states addedStates removedStates : List State) : Except Fault (List State) :=
  removedStates.foldlM DFSSearcher.remove (states ++ addedStates)

def BFSSearcher.remove (states : List State) (es : State) : Except Fault (List State) :=
  if states.head? = some es then pure states.tail else eraseState states es

/-- The current state goes to the back if it forked. -/
def BFSSearcher.moveBack (states : List State) (current : Option State) (addedStates removedStates : List State) : Except Fault (List State) :=
  match current with
  | none => pure states
  | some current =>
    if addedStates ≠ [] ∧ current ∉ removedStates then do
      let states ← eraseState states current
      pure (states ++ [current])
    else pure states

def BFSSearcher.update (states : List State) (current : Option State) (addedStates removedStates : List State) : Except Fault (List State) := do
  let states ← moveBack states current addedStates removedStates
  removedStates.foldlM BFSSearcher.remove (states ++ addedStates)

def RandomSearcher.update (states addedStates removedStates : List State) : Except Fault (List State) :=
  removedStates.foldlM eraseState (states ++ addedStates)

/-- The states of the `DiscretePDF`, which must not have the item yet. -/
def WeightedRandomSearcher.insert (states : List State) (es : State) : Except Fault (List State) :=
  if es ∈ states then throw .invalidState else pure (states ++ [es])

/-- A new weight for the current state, which must be there. -/
def WeightedRandomSearcher.reweigh (updateWeights : Bool) (states : List State) (current : Option State) (removedStates : List State) :
    Except Fault (List State) :=
  match current with
  | none => pure states
  | some current =>
    if updateWeights ∧ current ∉ removedStates then
      if current ∈ states then pure states else throw .invalidState
    else pure states

def WeightedRandomSearcher.update (updateWeights : Bool) (states : List State) (current : Option State)
    (addedStates removedStates : List State) : Except Fault (List State) := do
  let states ← reweigh updateWeights states current removedStates
  let states ← addedStates.foldlM insert states
  removedStates.foldlM eraseState states

inductive CoreSearchType where
  | dfs
  | bfs
  | randomState
  | randomPath
  | nursCovNew
  | nursMD2U
  | nursDepth
  | nursRP
  | nursICnt
  | nursCPICnt
  | nursQC
  deriving DecidableEq

/-- The states of its own are none for a random path. -/
structure CoreSearcher (State : Type) where
  type : CoreSearchType
  states : List State

namespace CoreSearcher

variable (searcher : CoreSearcher State) (executorStates : List State)

/-- The states that can be selected: a random path goes down the process tree, the leaves of
which are the states of the executor. -/
def selectable : List State :=
  match searcher.type with
  | .randomPath => executorStates
  | _ => searcher.states

def empty : Bool := (searcher.selectable executorStates).isEmpty

/-- The weights and the random numbers decide about a place. -/
def selectState (random : Nat) : Option State :=
  match searcher.type with
  | .dfs => searcher.states.getLast?
  | .bfs => searcher.states.head?
  | _ => (searcher.selectable executorStates)[random % (searcher.selectable executorStates).length]?

def updateStates (current : Option State) (addedStates removedStates : List State) : Except Fault (List State) :=
  match searcher.type with
  | .dfs => DFSSearcher.update searcher.states addedStates removedStates
  | .bfs => BFSSearcher.update searcher.states current addedStates removedStates
  | .randomState => RandomSearcher.update searcher.states addedStates removedStates
  | .randomPath => pure searcher.states
  | .nursDepth | .nursRP => WeightedRandomSearcher.update false searcher.states current addedStates removedStates
  | _ => WeightedRandomSearcher.update true searcher.states current addedStates removedStates

def update (current : Option State) (addedStates removedStates : List State) : Except Fault (CoreSearcher State) := do
  let states ← searcher.updateStates current addedStates removedStates
  pure { searcher with states := states }

end CoreSearcher

/-!
## The base searcher
-/

/-- `InterleavedSearcher`, if there are several, in a `BatchingSearcher`, if there is to be
one. -/
structure BaseSearcher (State : Type) where
  searchers : List (CoreSearcher State)
  index : Nat
  batching : Bool
  lastState : Option State

/-- `initializeSearchOptions` -/
def initializeSearchOptions (useMerge : Bool) (coreSearch : List CoreSearchType) : List CoreSearchType :=
  if coreSearch = [] then if useMerge then [.nursCovNew] else [.randomPath, .nursCovNew] else coreSearch

namespace BaseSearcher

variable (base : BaseSearcher State) (executorStates : List State)

/-- `constructUserSearcher`, as far as it makes the base searcher. -/
def construct (coreSearch : List CoreSearchType) (useBatchingSearch : Bool) : BaseSearcher State :=
  ⟨coreSearch.map fun type => ⟨type, []⟩, 1, useBatchingSearch, none⟩

def empty : Bool := base.searchers.head?.all fun searcher => searcher.empty executorStates

/-- `expired` is whether the batch has run for long enough. -/
def selectState (expired : Bool) (random : Nat) : Except Fault (State × BaseSearcher State) :=
  match base.batching && !expired, base.lastState with
  | true, some lastState => pure (lastState, base)
  | _, _ => do
    let index := base.index - 1
    let some es := base.searchers[index]? >>= (·.selectState executorStates random) | throw .noState
    pure (es, { base with
      index := if index = 0 then base.searchers.length else index
      lastState := if base.batching then some es else none })

def update (current : Option State) (addedStates removedStates : List State) : Except Fault (BaseSearcher State) := do
  let searchers ← base.searchers.mapM fun searcher => searcher.update current addedStates removedStates
  pure { base with
    searchers := searchers
    lastState := base.lastState.filter (· ∉ removedStates) }

def removeState (es : State) : Except Fault (BaseSearcher State) := base.update none [] [es]

end BaseSearcher

/-!
## Iterative deepening
-/

structure IterativeDeepening (State : Type) where
  baseSearcher : BaseSearcher State
  startTime : Nat
  time : Nat
  pausedStates : List State

/-- An update, with the time and the states of the executor when it is made. -/
structure Update (State : Type) where
  now : Nat
  executorStates : List State
  current : Option State
  addedStates : List State
  removedStates : List State

namespace IterativeDeepening

def create (baseSearcher : BaseSearcher State) (startTime : Nat) : IterativeDeepening State :=
  ⟨baseSearcher, startTime, 1000000000, []⟩

def selectState (s : IterativeDeepening State) (executorStates : List State) (expired : Bool) (random now : Nat) :
    Except Fault (State × IterativeDeepening State) := do
  let (res, base) ← s.baseSearcher.selectState executorStates expired random
  pure (res, { s with baseSearcher := base, startTime := now })

/-- The states that are removed leave the paused states, and `alt` is what the base searcher
hears of. -/
def removePaused (pausedStates alt : List State) : List State → List State × List State
  | [] => (pausedStates, alt)
  | es :: removedStates =>
    if es ∈ pausedStates then
      removePaused (pausedStates.erase es) (alt.filter (· ≠ es)) removedStates
    else removePaused pausedStates alt removedStates

def forward (s : IterativeDeepening State) (u : Update State) : Except Fault (IterativeDeepening State) := do
  if u.removedStates.isEmpty = false then
    let (pausedStates, alt) := removePaused s.pausedStates u.removedStates u.removedStates
    let base ← s.baseSearcher.update u.current u.addedStates alt
    pure { s with baseSearcher := base, pausedStates := pausedStates }
  else
    let base ← s.baseSearcher.update u.current u.addedStates u.removedStates
    pure { s with baseSearcher := base }

/-- Whether the current state goes on and has run for longer than the budget. -/
def Pauses (s : IterativeDeepening State) (u : Update State) : Prop :=
  ∃ current ∈ u.current, current ∉ u.removedStates ∧ s.time < u.now - s.startTime

def pause (s : IterativeDeepening State) (u : Update State) (elapsed : Nat) : Except Fault (IterativeDeepening State) :=
  match u.current with
  | none => pure s
  | some current =>
    if current ∉ u.removedStates ∧ s.time < elapsed then do
      let base ← s.baseSearcher.removeState current
      pure { s with baseSearcher := base, pausedStates := s.pausedStates.insert current }
    else pure s

def resume (s : IterativeDeepening State) (u : Update State) : Except Fault (IterativeDeepening State) := do
  if s.baseSearcher.empty u.executorStates then
    let base ← s.baseSearcher.update none s.pausedStates []
    pure { s with baseSearcher := base, time := s.time * 2, pausedStates := [] }
  else pure s

def update (s : IterativeDeepening State) (u : Update State) : Except Fault (IterativeDeepening State) := do
  let elapsed := u.now - s.startTime
  let s ← s.forward u
  let s ← s.pause u elapsed
  s.resume u

end IterativeDeepening

/-!
## What a searcher makes of an update
-/

section Updates

variable {stale : Prop} {remove : List State → State → Except Fault (List State)}

/-- A state is taken out; there is a fault only if it is not there. -/
abbrev Removes (remove : List State → State → Except Fault (List State)) : Prop :=
  ∀ states es, Satisfies (fun _ => es ∉ states) (fun states' => (es :: states').Perm states) (remove states es)

theorem eraseState_removes : Removes (@eraseState State _) := by
  intro states es
  unfold eraseState
  split
  next member => exact (perm_cons_erase member).symm
  next absent => exact absent

theorem DFSSearcher.remove_removes : Removes (@DFSSearcher.remove State _) := by
  intro states es
  unfold DFSSearcher.remove
  split
  next last =>
    obtain ⟨front, rfl⟩ := getLast?_eq_some_iff.mp last
    rw [dropLast_concat]
    exact (perm_append_singleton es front).symm
  · exact eraseState_removes states es

theorem BFSSearcher.remove_removes : Removes (@BFSSearcher.remove State _) := by
  intro states es
  unfold BFSSearcher.remove
  split
  next first =>
    obtain ⟨back, rfl⟩ := head?_eq_some_iff.mp first
    exact .refl _
  · exact eraseState_removes states es

omit [DecidableEq State] in
theorem foldlM_removes (removes : Removes remove) (once : removedStates.Nodup) (known : ∀ es ∈ removedStates, es ∈ states ∨ stale) :
    Satisfies (fun _ => stale) (fun states' => (removedStates ++ states').Perm states) (removedStates.foldlM remove states) := by
  induction removedStates generalizing states with
  | nil => exact .refl _
  | cons es rest ih =>
    obtain ⟨fresh, rest_once⟩ := nodup_cons.mp once
    rw [foldlM_cons]
    refine Satisfies.bind ((removes states es).weaken fun _ absent => (known es mem_cons_self).resolve_left absent) ?_
    intro states' removed
    refine (ih rest_once fun other later => (known other (mem_cons_of_mem _ later)).imp_left fun member => ?_).mono
      fun _ rest => (rest.cons es).trans removed
    rcases mem_cons.mp (removed.mem_iff.mpr member) with rfl | kept
    · exact absurd later fresh
    · exact kept

theorem BFSSearcher.moveBack_perm (known : ∀ es, current = some es → es ∉ removedStates → es ∈ states ∨ stale) :
    Satisfies (fun _ => stale) (fun states' => states'.Perm states) (BFSSearcher.moveBack states current addedStates removedStates) := by
  unfold BFSSearcher.moveBack
  split
  · exact .refl _
  next es =>
    split
    next forked =>
      refine Satisfies.bind ((eraseState_removes states es).weaken fun _ absent => (known es rfl forked.2).resolve_left absent) ?_
      exact fun others erased => (perm_append_singleton es others).trans erased
    · exact .refl _

theorem WeightedRandomSearcher.reweigh_perm {updateWeights : Bool}
    (known : ∀ es, current = some es → es ∉ removedStates → es ∈ states ∨ stale) :
    Satisfies (fun _ => stale) (fun states' => states'.Perm states)
      (WeightedRandomSearcher.reweigh updateWeights states current removedStates) := by
  unfold WeightedRandomSearcher.reweigh
  split
  · exact .refl _
  next es =>
    split
    next goesOn =>
      split
      · exact .refl _
      next absent => exact (known es rfl goesOn.2).resolve_left absent
    · exact .refl _

theorem WeightedRandomSearcher.foldlM_insert (once : (states ++ addedStates).Nodup) :
    addedStates.foldlM WeightedRandomSearcher.insert states = .ok (states ++ addedStates) := by
  induction addedStates generalizing states with
  | nil => rw [append_nil]; rfl
  | cons es rest ih =>
    have absent : es ∉ states := fun member => disjoint_of_nodup_append once member mem_cons_self
    rw [append_cons] at once ⊢
    rw [foldlM_cons, WeightedRandomSearcher.insert, if_neg absent]
    exact ih once

/-- Whatever is kept besides, a searcher takes up the states that are added and gives up those
that are removed, if it has them and the current state. -/
theorem CoreSearcher.update_perm {searcher : CoreSearcher State} (keepsStates : searcher.type ≠ .randomPath)
    (once : (searcher.states ++ addedStates).Nodup) (removed_once : removedStates.Nodup)
    (known : ∀ es ∈ removedStates, es ∈ searcher.states ++ addedStates ∨ stale)
    (current_known : ∀ es, current = some es → es ∉ removedStates → es ∈ searcher.states ∨ stale) :
    Satisfies (fun _ => stale) (fun searcher' => searcher'.type = searcher.type ∧ (removedStates ++ searcher'.states).Perm (searcher.states ++ addedStates))
      (searcher.update current addedStates removedStates) := by
  have weighted (updateWeights : Bool) : Satisfies (fun _ => stale) (fun states => (removedStates ++ states).Perm (searcher.states ++ addedStates))
      (WeightedRandomSearcher.update updateWeights searcher.states current addedStates removedStates) := by
    refine Satisfies.bind (WeightedRandomSearcher.reweigh_perm current_known) fun states reweighed => ?_
    have same := reweighed.append_right addedStates
    rw [WeightedRandomSearcher.foldlM_insert (same.nodup_iff.mpr once)]
    exact (foldlM_removes eraseState_removes removed_once fun es removed => (known es removed).imp_left same.mem_iff.mpr).mono
      fun _ removed => removed.trans same
  refine Satisfies.bind (?_ : Satisfies _ (fun states => (removedStates ++ states).Perm (searcher.states ++ addedStates)) _) fun _ moved => ⟨rfl, moved⟩
  unfold CoreSearcher.updateStates
  split
  · exact foldlM_removes DFSSearcher.remove_removes removed_once known
  · refine Satisfies.bind (BFSSearcher.moveBack_perm current_known) fun states moved => ?_
    have same := moved.append_right addedStates
    exact (foldlM_removes BFSSearcher.remove_removes removed_once fun es removed => (known es removed).imp_left same.mem_iff.mpr).mono
      fun _ removed => removed.trans same
  · exact foldlM_removes eraseState_removes removed_once known
  next path => exact absurd path keepsStates
  all_goals exact weighted _

end Updates

/-!
## No state is lost or doubled
-/

section Conservation

structure Update.Consistent (u : Update State) (live : List State) : Prop where
  added_once : u.addedStates.Nodup
  added_new : ∀ es ∈ u.addedStates, es ∉ live
  removed_once : u.removedStates.Nodup
  removed_known : ∀ es ∈ u.removedStates, es ∈ live
  current : ∀ es, u.current = some es → es ∈ live

def Update.after (u : Update State) (live : List State) : List State :=
  (live ++ u.addedStates).filter (· ∉ u.removedStates)

theorem Update.mem_after (u : Update State) (live : List State) (es : State) :
    es ∈ u.after live ↔ (es ∈ live ∨ es ∈ u.addedStates) ∧ es ∉ u.removedStates := by
  rw [Update.after, mem_filter, mem_append, decide_eq_true_eq]

/-- The states that there are can be selected or are paused, and none is both. -/
structure Keeps (live pausedStates : List State) (searcher : CoreSearcher State) : Prop where
  once : (searcher.selectable live ++ pausedStates).Nodup
  mem_iff : ∀ es, es ∈ live ↔ es ∈ searcher.selectable live ∨ es ∈ pausedStates

namespace IterativeDeepening

structure Holds (live : List State) (s : IterativeDeepening State) : Prop where
  some : s.baseSearcher.searchers ≠ []
  keeps : ∀ searcher ∈ s.baseSearcher.searchers, Keeps live s.pausedStates searcher

/-- In addition, the base searcher has a state to select if there is one. -/
structure Conserves (live : List State) (s : IterativeDeepening State) : Prop extends Holds live s where
  ready : live ≠ [] → s.baseSearcher.empty live = false

/-- No state is paused next to a random path, which would still select it. -/
def Spares (s : IterativeDeepening State) (u : Update State) : Prop :=
  (∀ searcher ∈ s.baseSearcher.searchers, searcher.type ≠ .randomPath) ∨ ¬ s.Pauses u

/-- The states reached from a new searcher by updates that are allowed, with the states that
there are. -/
inductive Run (allowed : IterativeDeepening State → Update State → Prop) (base : BaseSearcher State) :
    List State → IterativeDeepening State → Prop where
  | create {startTime : Nat} : Run allowed base [] (create base startTime)
  | selectState {live : List State} {s s' : IterativeDeepening State} {es : State} {expired : Bool} {random now : Nat}
      (run : Run allowed base live s) (selected : s.selectState live expired random now = .ok (es, s')) : Run allowed base live s'
  | update {live : List State} {s s' : IterativeDeepening State} {u : Update State} (run : Run allowed base live s)
      (consistent : u.Consistent live) (isAllowed : allowed s u) (updated : s.update u = .ok s') : Run allowed base (u.after live) s'

variable {live : List State} {s s' : IterativeDeepening State} {u : Update State} {searcher : CoreSearcher State} {pausedStates : List State}

theorem mem_removePaused {pausedStates removedStates : List State} (alt : List State)
    (once : pausedStates.Nodup) (removed_once : removedStates.Nodup) (es : State) :
    (es ∈ (removePaused pausedStates alt removedStates).1 ↔
        es ∈ pausedStates ∧ es ∉ removedStates) ∧
      (es ∈ (removePaused pausedStates alt removedStates).2 ↔ es ∈ alt ∧ ¬ (es ∈ pausedStates ∧ es ∈ removedStates)) := by
  induction removedStates generalizing pausedStates alt with
  | nil => simp [removePaused]
  | cons first rest ih =>
    obtain ⟨fresh, rest_once⟩ := nodup_cons.mp removed_once
    rw [removePaused]
    by_cases paused : first ∈ pausedStates
    · rw [if_pos paused]
      obtain ⟨kept, told⟩ := ih (alt.filter (· ≠ first)) (once.erase first) rest_once
      rw [kept, told, once.mem_erase_iff]
      by_cases same : es = first
      · subst same
        simp [paused]
      · simp [same]
    · rw [if_neg paused]
      obtain ⟨kept, told⟩ := ih alt once rest_once
      rw [kept, told]
      by_cases same : es = first
      · subst same
        simp [paused]
      · simp [same]

theorem removePaused_once {pausedStates alt removedStates : List State} (once : pausedStates.Nodup) (alt_once : alt.Nodup) :
    (removePaused pausedStates alt removedStates).1.Nodup ∧ (removePaused pausedStates alt removedStates).2.Nodup := by
  induction removedStates generalizing pausedStates alt with
  | nil => exact ⟨once, alt_once⟩
  | cons first rest ih =>
    rw [removePaused]
    split
    · exact ih (once.erase first) (alt_once.filter _)
    · exact ih once alt_once

theorem forward_eq (s : IterativeDeepening State) (u : Update State) :
    s.forward u = (s.baseSearcher.update u.current u.addedStates (removePaused s.pausedStates u.removedStates u.removedStates).2 >>= fun base =>
      pure { s with
        baseSearcher := base
        pausedStates := (removePaused s.pausedStates u.removedStates u.removedStates).1 }) := by
  unfold forward
  cases removed : u.removedStates with
  | nil => rfl
  | cons first rest => simp only [isEmpty_cons, if_true]

end IterativeDeepening

/-! ### One searcher -/

section

open IterativeDeepening (removePaused mem_removePaused removePaused_once)

variable {live pausedStates : List State} {u : Update State} {searcher : CoreSearcher State}

omit [DecidableEq State] in
theorem selectable_states (keepsStates : searcher.type ≠ .randomPath) (executorStates : List State) :
    searcher.selectable executorStates = searcher.states := by
  unfold CoreSearcher.selectable
  split
  next path => exact absurd path keepsStates
  · rfl

omit [DecidableEq State] in
theorem selectable_path (path : searcher.type = .randomPath) (executorStates : List State) :
    searcher.selectable executorStates = executorStates := by
  rw [CoreSearcher.selectable, path]

omit [DecidableEq State] in
theorem Keeps.of_path (path : searcher.type = .randomPath) (once : live.Nodup) : Keeps live [] searcher := by
  refine ⟨?_, fun es => ?_⟩ <;> rw [selectable_path path]
  · rwa [append_nil]
  · simp

omit [DecidableEq State] in
/-- A random path leaves no state to be paused. -/
theorem Keeps.path_paused (keeps : Keeps live pausedStates searcher) (path : searcher.type = .randomPath) : pausedStates = [] := by
  refine eq_nil_iff_forall_not_mem.mpr fun es paused => ?_
  have once := keeps.once
  rw [selectable_path path] at once
  exact disjoint_of_nodup_append once ((keeps.mem_iff es).mpr (.inr paused)) paused

theorem path_update (path : searcher.type = .randomPath) : searcher.update current addedStates removedStates = .ok searcher := by
  rw [CoreSearcher.update, CoreSearcher.updateStates, path]
  exact congrArg (fun type => Except.ok (CoreSearcher.mk type searcher.states)) path.symm

theorem Keeps.forward (keeps : Keeps live pausedStates searcher) (consistent : u.Consistent live) :
    Satisfies (fun _ => ∃ es ∈ u.current, es ∈ pausedStates)
      (Keeps (u.after live) (removePaused pausedStates u.removedStates u.removedStates).1)
      (searcher.update u.current u.addedStates (removePaused pausedStates u.removedStates u.removedStates).2) := by
  have paused_once := Nodup.of_append_right keeps.once
  have removed (es : State) := mem_removePaused u.removedStates paused_once consistent.removed_once es
  by_cases path : searcher.type = .randomPath
  · have once : (live ++ u.addedStates).Nodup := by
      have live_once := Nodup.of_append_left keeps.once
      rw [selectable_path path] at live_once
      exact live_once.append consistent.added_once fun es member added => consistent.added_new es added member
    have none : (removePaused pausedStates u.removedStates u.removedStates).1 = [] :=
      eq_nil_iff_forall_not_mem.mpr fun es kept => by
        have paused := ((removed es).1.mp kept).1
        rw [keeps.path_paused path] at paused
        cases paused
    rw [none, path_update path]
    exact Keeps.of_path path (once.filter _)
  · have same := selectable_states path
    obtain ⟨once, mem_iff⟩ := keeps
    simp only [same] at once mem_iff
    have apart := disjoint_of_nodup_append once
    have base_once : (searcher.states ++ u.addedStates).Nodup :=
      .append (.of_append_left once) consistent.added_once fun es held added => consistent.added_new es added ((mem_iff es).mpr (.inl held))
    have told_once := (@removePaused_once _ _ _ _ u.removedStates paused_once consistent.removed_once).2
    refine (CoreSearcher.update_perm path base_once told_once ?_ ?_).mono ?_
    · intro es told
      obtain ⟨removed, unpaused⟩ := (removed es).2.mp told
      rcases (mem_iff es).mp (consistent.removed_known es removed) with held | paused
      · exact .inl (mem_append_left _ held)
      · exact absurd ⟨paused, removed⟩ unpaused
    · intro es isCurrent _
      exact ((mem_iff es).mp (consistent.current es isCurrent)).imp_right fun paused => ⟨es, isCurrent, paused⟩
    · rintro searcher' ⟨type, moved⟩
      have both := moved.nodup_iff.mpr base_once
      have gone := disjoint_of_nodup_append both
      have members (es : State) : es ∈ searcher'.states ↔ (es ∈ searcher.states ∨ es ∈ u.addedStates) ∧
          es ∉ (removePaused pausedStates u.removedStates u.removedStates).2 := by
        rw [← mem_append, ← moved.mem_iff, mem_append]
        constructor
        · exact fun member => ⟨.inr member, fun told => gone told member⟩
        · exact fun ⟨either, kept⟩ => either.resolve_left kept
      constructor
      · rw [selectable_states (type ▸ path)]
        refine .append (.of_append_right both) (removePaused_once paused_once consistent.removed_once).1 ?_
        intro es held paused
        have was_paused := ((removed es).1.mp paused).1
        rcases ((members es).mp held).1 with held | added
        · exact apart held was_paused
        · exact consistent.added_new es added ((mem_iff es).mpr (.inr was_paused))
      · intro es
        rw [selectable_states (type ▸ path), u.mem_after, members, (removed es).1, (removed es).2, mem_iff]
        have new := consistent.added_new es
        rw [mem_iff] at new
        by_cases paused : es ∈ pausedStates
        · have unheld : es ∉ searcher.states := fun held => apart held paused
          have old : es ∉ u.addedStates := fun added => new added (.inr paused)
          simp [paused, unheld, old]
        · simp [paused]

theorem Keeps.pause (keeps : Keeps live pausedStates searcher) (keepsStates : searcher.type ≠ .randomPath) (member : es ∈ live) :
    Satisfies (fun _ => es ∈ pausedStates) (Keeps live (pausedStates.insert es)) (searcher.update none [] [es]) := by
  obtain ⟨once, mem_iff⟩ := keeps
  simp only [selectable_states keepsStates] at once mem_iff
  have held := (mem_iff es).mp member
  refine (CoreSearcher.update_perm keepsStates (by simpa using Nodup.of_append_left once) (nodup_singleton es) ?_ (fun _ none => by cases none)).mono ?_
  · rintro other isEs
    rw [mem_singleton.mp isEs, append_nil]
    exact held
  · rintro searcher' ⟨type, moved⟩
    rw [append_nil] at moved
    have apart := disjoint_of_nodup_append once
    have both := moved.nodup_iff.mpr (.of_append_left once)
    obtain ⟨left, states_once⟩ := nodup_cons.mp both
    have inBase : es ∈ searcher.states := moved.mem_iff.mp mem_cons_self
    constructor
    · rw [selectable_states (type ▸ keepsStates)]
      refine .append states_once (.insert (.of_append_right once)) fun other kept paused => ?_
      rcases List.mem_insert_iff.mp paused with rfl | paused
      · exact left kept
      · exact apart (moved.mem_iff.mp (mem_cons_of_mem _ kept)) paused
    · intro other
      rw [selectable_states (type ▸ keepsStates), mem_iff, ← moved.mem_iff, List.mem_insert_iff]
      show other ∈ es :: searcher'.states ∨ _ ↔ _
      rw [mem_cons]
      tauto

theorem Keeps.resume (keeps : Keeps live pausedStates searcher) :
    Satisfies (fun _ => False) (Keeps live []) (searcher.update none pausedStates []) := by
  by_cases path : searcher.type = .randomPath
  · have once := Nodup.of_append_left keeps.once
    rw [selectable_path path] at once
    rw [path_update path]
    exact Keeps.of_path path once
  · obtain ⟨once, mem_iff⟩ := keeps
    simp only [selectable_states path] at once mem_iff
    refine (CoreSearcher.update_perm path once .nil nofun (fun _ none => by cases none)).mono ?_
    rintro searcher' ⟨type, moved⟩
    refine ⟨?_, fun es => ?_⟩ <;> rw [selectable_states (type ▸ path)]
    · rw [append_nil]
      exact moved.nodup_iff.mpr once
    · rw [mem_iff, ← mem_append, ← moved.mem_iff]
      simp

end

namespace IterativeDeepening

variable {live : List State} {s s' : IterativeDeepening State} {u : Update State}

theorem update_type (searcher : CoreSearcher State) :
    Satisfies (fun _ => True) (fun searcher' => searcher'.type = searcher.type) (searcher.update current addedStates removedStates) :=
  Satisfies.bind (.of_forall (fun _ _ => trivial) fun _ _ => trivial) fun _ (_ : True) => rfl

theorem update_searchers {base : BaseSearcher State} {tolerated : Fault → Prop} {post : CoreSearcher State → Prop}
    (some : base.searchers ≠ []) (each : ∀ searcher ∈ base.searchers, Satisfies tolerated post (searcher.update current addedStates removedStates)) :
    Satisfies tolerated (fun base' => base'.searchers ≠ [] ∧ ∀ searcher' ∈ base'.searchers, post searcher' ∧
      ∃ searcher ∈ base.searchers, searcher'.type = searcher.type) (base.update current addedStates removedStates) := by
  have all := Satisfies.mapM_all fun searcher member => ((each searcher member).and (update_type searcher)).mono
    fun searcher' both => (⟨both.1, searcher, member, both.2⟩ : post searcher' ∧ ∃ searcher ∈ base.searchers, searcher'.type = searcher.type)
  refine Satisfies.bind ((Satisfies.mapM _ each).and all) fun searchers both => ⟨?_, both.2⟩
  exact ne_nil_of_length_pos (both.1.length_eq ▸ length_pos_of_ne_nil some)

theorem removePaused_sublist {pausedStates alt removedStates : List State} :
    (removePaused pausedStates alt removedStates).1.Sublist pausedStates := by
  induction removedStates generalizing pausedStates alt with
  | nil => exact .refl _
  | cons first rest ih =>
    rw [removePaused]
    split
    · exact ih.trans erase_sublist
    · exact ih

/-- What the base searcher has heard of changes neither the budget nor what it consists of. -/
structure Forwarded (live : List State) (s : IterativeDeepening State) (u : Update State) (told : IterativeDeepening State) : Prop
    extends Holds (u.after live) told where
  time : told.time = s.time
  paused : told.pausedStates.Sublist s.pausedStates
  types : ∀ searcher' ∈ told.baseSearcher.searchers, ∃ searcher ∈ s.baseSearcher.searchers, searcher'.type = searcher.type

section

variable (holds : Holds live s)
include holds

theorem Holds.forward (consistent : u.Consistent live) :
    Satisfies (fun _ => ∃ es ∈ u.current, es ∈ s.pausedStates) (Forwarded live s u) (s.forward u) := by
  rw [forward_eq]
  refine Satisfies.bind (update_searchers holds.some fun searcher member => (holds.keeps searcher member).forward consistent) ?_
  intro base told
  exact ⟨⟨told.1, fun searcher member => (told.2 searcher member).1⟩, rfl, removePaused_sublist, fun searcher member => (told.2 searcher member).2⟩

theorem Holds.pause {elapsed : Nat} (spares : ∀ current ∈ u.current, current ∉ u.removedStates → s.time < elapsed →
      current ∈ live ∧ ∀ searcher ∈ s.baseSearcher.searchers, searcher.type ≠ .randomPath) :
    Satisfies (fun _ => ∃ es ∈ u.current, es ∈ s.pausedStates) (Holds live) (s.pause u elapsed) := by
  unfold IterativeDeepening.pause
  split
  · exact holds
  next es isCurrent =>
    split
    next expired =>
      obtain ⟨member, keepsStates⟩ := spares es isCurrent expired.1 expired.2
      refine Satisfies.bind (update_searchers holds.some fun searcher isOne =>
        ((holds.keeps searcher isOne).pause (keepsStates searcher isOne) member).weaken fun _ paused => ⟨es, isCurrent, paused⟩) ?_
      exact fun base left => ⟨left.1, fun searcher isOne => (left.2 searcher isOne).1⟩
    · exact holds

omit [DecidableEq State] in
theorem Holds.empty_false {executorStates : List State} (empty : s.baseSearcher.empty executorStates = false)
    (some : live ≠ []) : s.baseSearcher.empty live = false := by
  unfold BaseSearcher.empty at empty ⊢
  obtain ⟨searcher, rest, isFirst⟩ := exists_cons_of_ne_nil holds.some
  rw [isFirst] at empty ⊢
  by_cases path : searcher.type = .randomPath
  · simpa [CoreSearcher.empty, selectable_path path] using some
  · simpa [CoreSearcher.empty, selectable_states path] using empty

omit [DecidableEq State] in
theorem Holds.ready (none : s.pausedStates = []) (some : live ≠ []) : s.baseSearcher.empty live = false := by
  obtain ⟨searcher, rest, isFirst⟩ := exists_cons_of_ne_nil holds.some
  obtain ⟨es, member⟩ := exists_mem_of_ne_nil live some
  have held := ((holds.keeps searcher (by simp [isFirst])).mem_iff es).mp member
  rw [none] at held
  have nonempty := ne_nil_of_mem (held.resolve_right not_mem_nil)
  simpa [BaseSearcher.empty, isFirst, CoreSearcher.empty] using nonempty

theorem Holds.resume : Satisfies (fun _ => False) (Conserves live) (s.resume u) := by
  unfold IterativeDeepening.resume
  split
  · refine Satisfies.bind (update_searchers holds.some fun searcher member => (holds.keeps searcher member).resume) ?_
    intro base resumed
    have all : Holds live { s with baseSearcher := base, time := s.time * 2, pausedStates := [] } := ⟨resumed.1, fun searcher isOne => (resumed.2 searcher isOne).1⟩
    exact ⟨all, all.ready rfl⟩
  next ready => exact ⟨holds, holds.empty_false (Bool.eq_false_iff.mpr ready)⟩

theorem Holds.update (consistent : u.Consistent live) (spares : s.Spares u) :
    Satisfies (fun _ => ∃ es ∈ u.current, es ∈ s.pausedStates) (Conserves (u.after live)) (s.update u) := by
  refine Satisfies.bind (holds.forward consistent) fun told forwarded => ?_
  refine Satisfies.bind ((@Holds.pause _ _ _ _ _ forwarded.toHolds (u.now - s.startTime) ?_).weaken ?_) fun stopped held => ?_
  · intro es isCurrent kept expired
    refine ⟨(u.mem_after live es).mpr ⟨.inl (consistent.current es isCurrent), kept⟩, fun searcher member => ?_⟩
    obtain ⟨searcher', member', type⟩ := forwarded.types searcher member
    rw [type]
    exact spares.resolve_right (not_not.mpr ⟨es, isCurrent, kept, forwarded.time ▸ expired⟩) searcher' member'
  · rintro - ⟨es, isCurrent, paused⟩
    exact ⟨es, isCurrent, forwarded.paused.subset paused⟩
  · exact (held.resume (u := u)).weaken fun _ => False.elim

end

omit [DecidableEq State] in
theorem selectState_searchers {base base' : BaseSearcher State} {es : State} {expired : Bool} {random : Nat} {executorStates : List State}
    (selected : base.selectState executorStates expired random = .ok (es, base')) : base'.searchers = base.searchers := by
  unfold BaseSearcher.selectState at selected
  split at selected
  · cases selected
    rfl
  · dsimp only at selected
    split at selected
    · cases selected
      rfl
    · cases selected

omit [DecidableEq State] in
theorem Conserves.selectState {es : State} {expired : Bool} {random now : Nat} {executorStates : List State} (conserves : Conserves live s)
    (selected : s.selectState executorStates expired random now = .ok (es, s')) : Conserves live s' := by
  unfold IterativeDeepening.selectState at selected
  cases chosen : s.baseSearcher.selectState executorStates expired random with
  | error fault =>
    rw [chosen] at selected
    cases selected
  | ok result =>
    rw [chosen] at selected
    cases selected
    have same := selectState_searchers chosen
    refine ⟨⟨same ▸ conserves.some, same ▸ conserves.keeps⟩, fun some => ?_⟩
    have ready := conserves.ready some
    unfold BaseSearcher.empty at ready ⊢
    rwa [same]

theorem initializeSearchOptions_ne_nil (useMerge : Bool) (coreSearch : List CoreSearchType) :
    initializeSearchOptions useMerge coreSearch ≠ [] := by
  unfold initializeSearchOptions
  split
  · split <;> simp
  · assumption

variable {useMerge useBatchingSearch : Bool} {coreSearch : List CoreSearchType}

theorem Run.conserves (run : Run Spares (.construct (initializeSearchOptions useMerge coreSearch) useBatchingSearch) live s) :
    Conserves live s := by
  induction run with
  | create =>
    refine ⟨⟨by simpa [IterativeDeepening.create, BaseSearcher.construct] using initializeSearchOptions_ne_nil useMerge coreSearch, ?_⟩,
      fun some => absurd rfl some⟩
    intro searcher member
    obtain ⟨type, -, rfl⟩ := mem_map.mp member
    have none : (CoreSearcher.mk type []).selectable [] = ([] : List State) := by cases type <;> rfl
    exact ⟨by simp [none, IterativeDeepening.create], by simp [none, IterativeDeepening.create]⟩
  | selectState run selected ih => exact ih.selectState selected
  | update run consistent spares updated ih => exact (ih.toHolds.update consistent spares).elim updated

end IterativeDeepening

end Conservation

/-! ## Two runs -/

open IterativeDeepening (Run Spares Conserves)

/-- The first state runs for two seconds. -/
def started : Update Nat := ⟨0, [1], none, [1], []⟩

def elapsed : Update Nat := ⟨2000000000, [1], some 1, [], []⟩

end NeuroMerge.Searching
