import NeuroMerge.Merging.Tracking

/-!
# Which region a close point closes

Regions that the main loop opens by itself are closed at the first instruction of
any block that was recorded as the end of some region, and the region closed is
the innermost one of the state. It is the right one in a run in which regions
neither nest nor overlap.
-/

namespace NeuroMerge.Merging

open Function
open Config

variable {σ τ : Type} {env : Env σ τ}

/-- Every close point at which a handler was popped is the one computed for the
branch at which the handler was opened. -/
def ClosesAgree (env : Env σ τ) (c : Config σ τ) : Prop :=
  ∀ state id mp, .closed state id mp ∈ c.log → ∃ opener closeBB,
    .opened opener id closeBB ∈ c.log ∧ mp = env.firstNonPHI closeBB ∧ env.parent mp = closeBB

/-- Effects of a program without `klee_open_merge` and `klee_close_merge`. -/
def Effect.Automatic : Effect σ τ → Prop
  | openMerge _ | closeMerge _ _ => False
  | _ => True

def Effect.Forks : Effect σ τ → Prop
  | branch _ => True
  | _ => False

/-- The instructions on the way from the branch of `bb` to the first instruction of
`closeBB`, where `next` are the edges between the instructions of the program. -/
inductive Walk (env : Env σ τ) (next : KInst → KInst → Prop) (bb closeBB : Block) :
    KInst → Prop
  | branch : Walk env next bb closeBB (env.terminator bb)
  | step {before ki} (walk : Walk env next bb closeBB before)
      (inside : before ≠ env.firstNonPHI closeBB) (edge : next before ki) :
      Walk env next bb closeBB ki

def ClosePoint (env : Env σ τ) (c : Config σ τ) (ki : KInst) : Prop :=
  ki = env.firstNonPHI (env.parent ki) ∧ env.parent ki ∈ c.closeMergeSet

def OpenPoint (env : Env σ τ) (c : Config σ τ) (ki : KInst) (forked : Bool) : Prop :=
  (ki = env.terminator (env.parent ki) ∧ 1 < (env.successors (env.parent ki)).length ∧ forked) ∧
    ((c.openMergeMap (env.parent ki)).isSome ∨
      (closeBlock env (env.parent ki)).any (env.isPotentiallyReachable (env.parent ki)))

/-- The recorded regions do not overlap: the first close point on every way from a
recorded branch is its own. -/
def Separate (env : Env σ τ) (next : KInst → KInst → Prop) (c : Config σ τ) : Prop :=
  ∀ bb closeBB ki, c.openMergeMap bb = some closeBB → closeBB ∈ c.closeMergeSet →
    Walk env next bb closeBB ki → ClosePoint env c ki → env.parent ki = closeBB

/-- What the instruction `es.pc` does, if its state is inside a region: it follows an
edge of the program, opens no other region, and does not fork at a close point. -/
def Unnested (env : Env σ τ) (next : KInst → KInst → Prop) (c : Config σ τ)
    (choice : Choice σ τ) (es : ExecutionState σ) : Prop :=
  es.openMergeStack ≠ [] → next es.prevPC es.pc ∧ ¬ OpenPoint env c es.pc choice.forked ∧
    (ClosePoint env c es.pc → ∀ effect ∈ choice.effects, ¬ effect.Forks)

/-- A run with automatic merging only, in which regions neither nest nor overlap. -/
def Disjoint (env : Env σ τ) (next : KInst → KInst → Prop) : Condition σ τ where
  starting c choice := (∀ effect ∈ choice.effects, effect.Automatic) ∧
    ∀ selected current es, c.selectState env choice.pick = .ok (selected, current) →
      selected.heap current = some es → Unnested env next c choice es
  selected _ _ := True
  updating c _ := Separate env next c

variable {state : StateId} {es : ExecutionState σ}

namespace Config

/-- The states of `c'` are states of `c`, or, where `forks` allows it, new copies of
them; no region was opened or closed. -/
structure Copies (forks : Prop) (c c' : Config σ τ) : Prop where
  heap : ∀ state after, c'.heap state = some after → ∃ origin es, c.heap origin = some es ∧
    (origin = state ∨ forks ∧ c.nextState ≤ state) ∧
    after.openMergeStack = es.openMergeStack ∧ after.prevPC = es.prevPC
  nextState : c.nextState ≤ c'.nextState
  openMergeMap : c'.openMergeMap = c.openMergeMap
  closeMergeSet : c'.closeMergeSet = c.closeMergeSet
  events : ∃ events, c'.log = c.log ++ events ∧ ∀ state id mp, .closed state id mp ∉ events

namespace Copies

variable {forks : Prop} {c c' : Config σ τ}

theorem refl (c : Config σ τ) : Copies forks c c where
  heap state after present := ⟨state, after, present, .inl rfl, rfl, rfl⟩
  nextState := le_rfl
  openMergeMap := rfl
  closeMergeSet := rfl
  events := ⟨[], by simp, by simp⟩

theorem trans {first second third : Config σ τ} (before : Copies forks first second)
    (after : Copies forks second third) : Copies forks first third := by
  refine ⟨?_, before.nextState.trans after.nextState,
    after.openMergeMap.trans before.openMergeMap, after.closeMergeSet.trans before.closeMergeSet,
    ?_⟩
  · intro state last present
    obtain ⟨middle, es, middlePresent, fromMiddle, sameStack, samePrev⟩ := after.heap state last present
    obtain ⟨origin, first, originPresent, fromOrigin, firstStack, firstPrev⟩ := before.heap middle es middlePresent
    refine ⟨origin, first, originPresent, ?_, sameStack.trans firstStack, samePrev.trans firstPrev⟩
    rcases fromMiddle with rfl | ⟨allowed, fresh⟩
    · exact fromOrigin
    · exact .inr ⟨allowed, before.nextState.trans fresh⟩
  · obtain ⟨events, log, unclosed⟩ := before.events
    obtain ⟨more, moreLog, moreUnclosed⟩ := after.events
    refine ⟨events ++ more, by rw [moreLog, log, List.append_assoc], ?_⟩
    intro state id mp member
    exact (List.mem_append.mp member).elim (unclosed state id mp) (moreUnclosed state id mp)

theorem mono {more : Prop} (copies : Copies forks c c') (implies : forks → more) : Copies more c c' := by
  refine ⟨?_, copies.nextState, copies.openMergeMap, copies.closeMergeSet, copies.events⟩
  intro state after present
  obtain ⟨origin, es, originPresent, source, same⟩ := copies.heap state after present
  exact ⟨origin, es, originPresent, source.imp_right (And.imp_left implies), same⟩

theorem overwrite {replacement : ExecutionState σ} (present : c.heap state = some es)
    (sameStack : replacement.openMergeStack = es.openMergeStack) (samePrev : replacement.prevPC = es.prevPC)
    (heap : c'.heap = update c.heap state (some replacement))
    (next : c'.nextState = c.nextState) (openMergeMap : c'.openMergeMap = c.openMergeMap)
    (closeMergeSet : c'.closeMergeSet = c.closeMergeSet) (log : c'.log = c.log) : Copies forks c c' := by
  refine ⟨?_, next.ge, openMergeMap, closeMergeSet, [], by simp [log], by simp⟩
  intro other after found
  rw [heap] at found
  by_cases same : other = state
  · subst same
    rw [update_self, Option.some.injEq] at found
    subst found
    exact ⟨other, es, present, .inl rfl, sameStack, samePrev⟩
  · rw [update_of_ne same] at found
    exact ⟨other, after, found, .inl rfl, rfl, rfl⟩

theorem discard (heap : c'.heap = update c.heap state none)
    (next : c'.nextState = c.nextState) (openMergeMap : c'.openMergeMap = c.openMergeMap)
    (closeMergeSet : c'.closeMergeSet = c.closeMergeSet) (log : c'.log = c.log ++ [.deleted state]) : Copies forks c c' := by
  refine ⟨?_, next.ge, openMergeMap, closeMergeSet, _, log, by simp⟩
  intro other after found
  rw [heap] at found
  by_cases same : other = state
  · simp [same] at found
  · rw [update_of_ne same] at found
    exact ⟨other, after, found, .inl rfl, rfl, rfl⟩

theorem of_same {events : List Event} (heap : c'.heap = c.heap)
    (next : c'.nextState = c.nextState) (openMergeMap : c'.openMergeMap = c.openMergeMap)
    (closeMergeSet : c'.closeMergeSet = c.closeMergeSet) (log : c'.log = c.log ++ events)
    (unclosed : ∀ state id mp, .closed state id mp ∉ events) : Copies forks c c' := by
  refine ⟨?_, next.ge, openMergeMap, closeMergeSet, events, log, unclosed⟩
  intro state after present
  rw [heap] at present
  exact ⟨state, after, present, .inl rfl, rfl, rfl⟩

end Copies

theorem Moves.copies {forks : Prop} {c c' : Config σ τ} (moves : Moves c c') : Copies forks c c' := by
  refine ⟨?_, moves.nextState.ge, moves.openMergeMap, moves.closeMergeSet, ?_⟩
  · intro state after present
    have existed := moves.allocated state
    rw [present, Option.isSome_some, eq_comm, Option.isSome_iff_exists] at existed
    obtain ⟨es, found⟩ := existed
    have sameStack := moves.stack state
    have samePrev := moves.prevPC state
    rw [stack_eq present, stack_eq found] at sameStack
    rw [present, found, Option.map_some, Option.map_some, Option.some.injEq] at samePrev
    exact ⟨state, es, found, .inl rfl, sameStack, samePrev⟩
  · obtain ⟨events, log, releasing, _⟩ := moves.events
    exact ⟨events, log, fun state id mp member => releasing _ member⟩

theorem Plain.copies {forks : Prop} {c c' : Config σ τ} (plain : Plain c c') : Copies forks c c' := by
  cases plain with
  | moves moves => exact moves.copies
  | assign present sameStack samePrev =>
    exact .overwrite present sameStack samePrev rfl rfl rfl rfl rfl
  | terminate present listed =>
    refine .overwrite present ?_ ?_ rfl rfl rfl rfl rfl
    · rfl
    · rfl
  | discard added unlisted moves =>
    refine Copies.trans ?_ moves.copies
    exact .discard rfl rfl rfl rfl rfl

theorem spawn_copies {c : Config σ τ} {handlers : HandlerId → Option MergeHandler}
    (present : c.heap state = some es) : Copies True c (c.spawn state es handlers) := by
  refine ⟨?_, Nat.le_succ _, rfl, rfl, [.forked state c.nextState], rfl, by simp⟩
  intro other after found
  by_cases same : other = c.nextState
  · subst same
    have copied : after = es := by simpa [spawn, eq_comm] using found
    exact ⟨state, es, present, .inr ⟨trivial, le_rfl⟩, by rw [copied], by rw [copied]⟩
  · have kept : c.heap other = some after := by
      simpa [spawn, update_of_ne same] using found
    exact ⟨other, after, kept, .inl rfl, rfl, rfl⟩

theorem applyEffect_copies {forks : Prop} {c : Config σ τ} {effect : Effect σ τ}
    (valid : Valid [] c) (automatic : effect.Automatic) (allowed : effect.Forks → forks) :
    Satisfies Tolerated (fun c' => Valid [] c' ∧ Copies forks c c') (c.applyEffect env effect) := by
  cases effect with
  | openMerge | closeMerge => exact automatic.elim
  | branch state =>
    refine .mono (branch_spec valid) ?_
    rintro _ ⟨validAfter, es, handlers, present, rfl⟩
    exact ⟨validAfter, (spawn_copies present).mono fun _ => allowed trivial⟩
  | terminate state =>
    exact .mono (terminateState_plain valid) fun _ facts => ⟨facts.1, facts.2.copies⟩
  | assign state pc contents memory =>
    exact (assign_plain valid).mono fun _ facts => ⟨facts.1, facts.2.copies⟩

theorem executeInstruction_copies {forks : Prop} {c : Config σ τ} {current : StateId}
    {effects : List (Effect σ τ)} (valid : Valid [] c) (automatic : ∀ effect ∈ effects, effect.Automatic)
    (allowed : ∀ effect ∈ effects, effect.Forks → forks) :
    Satisfies Tolerated (fun c' => Valid [] c' ∧ Copies forks c c') (c.executeInstruction env current effects) := by
  refine .foldlM_const ⟨valid, .refl c⟩ ?_
  rintro effect member c' ⟨validBefore, copies⟩
  split
  · refine (applyEffect_copies validBefore (automatic effect member) (allowed effect member)).mono ?_
    exact fun _ facts => ⟨facts.1, copies.trans facts.2⟩
  · exact ⟨validBefore, copies⟩

theorem checkMemoryUsage_copies {forks : Prop} {c : Config σ τ} {killed : List StateId} (valid : Valid [] c) :
    Satisfies Tolerated (fun c' => Valid [] c' ∧ Copies forks c c') (c.checkMemoryUsage env killed) := by
  refine .foldlM_const ⟨valid, .refl c⟩ ?_
  rintro state _ c' ⟨validBefore, copies⟩
  exact (terminateState_plain validBefore).mono fun _ facts => ⟨facts.1, copies.trans facts.2.copies⟩

theorem Removals.copies {forks : Prop} {c c' : Config σ τ} {removed : List StateId}
    (removals : Removals env c removed c') : Copies forks c c' := by
  induction removals with
  | done c => exact .refl c
  | remove listed moves calm valid later ih =>
    refine Copies.trans (Copies.trans ?_ moves.copies) ih
    exact .discard rfl rfl rfl rfl rfl

theorem Updated.copies {forks : Prop} {c c' removed : Config σ τ} {current : StateId}
    {held : List StateId} (updated : c.Updated env current held removed c') : Copies forks c c' := by
  have applied : Copies forks c (c.applyAdded held) := .of_same rfl rfl rfl rfl (List.append_nil _).symm (by simp)
  refine (applied.trans updated.removals.copies).trans ?_
  rw [updated.result]
  exact .of_same rfl rfl rfl rfl rfl (by simp)

end Config

/-- A stack with the one handler of the region that ends at `closeBB`, of a state on
its way there that has just executed `ki`. -/
def Inside (env : Env σ τ) (next : KInst → KInst → Prop) (c : Config σ τ)
    (stack : List HandlerId) (ki : KInst) (closeBB : Block) : Prop :=
  ∃ id bb opener, stack = [id] ∧ c.openMergeMap bb = some closeBB ∧
    Walk env next bb closeBB ki ∧ .opened opener id closeBB ∈ c.log

/-- A state that is outside of all regions or inside one and has not arrived at its
close point. -/
def Placed (env : Env σ τ) (next : KInst → KInst → Prop) (c : Config σ τ)
    (stack : List HandlerId) (ki : KInst) : Prop :=
  stack = [] ∨ ∃ closeBB, Inside env next c stack ki closeBB ∧ ki ≠ env.firstNonPHI closeBB

structure AtRest (env : Env σ τ) (next : KInst → KInst → Prop) (c : Config σ τ) : Prop where
  placed : ∀ state es, c.heap state = some es → Placed env next c es.openMergeStack es.prevPC
  closable : ∀ bb closeBB, c.openMergeMap bb = some closeBB → closeBB ∈ c.closeMergeSet
  agree : ClosesAgree env c

/-- The invariant while the current state, whose stack is `stack`, executes `ki`,
which may be the close point of its region. -/
structure Executing (env : Env σ τ) (next : KInst → KInst → Prop) (c : Config σ τ)
    (current : StateId) (stack : List HandlerId) (ki : KInst) : Prop where
  others : ∀ state es, state ≠ current → c.heap state = some es →
    Placed env next c es.openMergeStack es.prevPC
  current : ∀ es, c.heap current = some es → es.openMergeStack = stack ∧ es.prevPC = ki
  arrived : stack = [] ∨ ∃ closeBB, Inside env next c stack ki closeBB
  closable : ∀ bb closeBB, c.openMergeMap bb = some closeBB → closeBB ∈ c.closeMergeSet
  agree : ClosesAgree env c

section Invariant

variable {next : KInst → KInst → Prop} {c c' : Config σ τ} {current : StateId}
  {stack : List HandlerId} {ki : KInst} {closeBB : Block} {forks : Prop}

theorem Inside.mono (inside : Inside env next c stack ki closeBB)
    (maps : ∀ bb closeBB, c.openMergeMap bb = some closeBB → c'.openMergeMap bb = some closeBB)
    (log : ∀ event ∈ c.log, event ∈ c'.log) : Inside env next c' stack ki closeBB := by
  obtain ⟨id, bb, opener, single, recorded, walk, opened⟩ := inside
  exact ⟨id, bb, opener, single, maps bb closeBB recorded, walk, log _ opened⟩

theorem Placed.mono (placed : Placed env next c stack ki)
    (maps : ∀ bb closeBB, c.openMergeMap bb = some closeBB → c'.openMergeMap bb = some closeBB)
    (log : ∀ event ∈ c.log, event ∈ c'.log) : Placed env next c' stack ki :=
  placed.imp_right fun ⟨closeBB, inside, before⟩ => ⟨closeBB, inside.mono maps log, before⟩

theorem Config.Copies.maps (copies : Copies forks c c') (bb closeBB : Block)
    (recorded : c.openMergeMap bb = some closeBB) : c'.openMergeMap bb = some closeBB := by
  rwa [copies.openMergeMap]

theorem Config.Copies.log (copies : Copies forks c c') (event : Event) (member : event ∈ c.log) : event ∈ c'.log := by
  obtain ⟨events, log, _⟩ := copies.events
  rw [log]
  exact List.mem_append_left _ member

theorem ClosesAgree.copies (agree : ClosesAgree env c) (copies : Copies forks c c') : ClosesAgree env c' := by
  intro state id mp closed
  obtain ⟨events, log, unclosed⟩ := copies.events
  rw [log, List.mem_append] at closed
  obtain ⟨opener, closeBB, opened, own⟩ := agree state id mp (closed.resolve_right (unclosed state id mp))
  exact ⟨opener, closeBB, copies.log _ opened, own⟩

theorem AtRest.copies (resting : AtRest env next c) (copies : Copies forks c c') : AtRest env next c' := by
  refine ⟨?_, ?_, resting.agree.copies copies⟩
  · intro state after present
    obtain ⟨origin, es, originPresent, _, sameStack, samePrev⟩ := copies.heap state after present
    rw [sameStack, samePrev]
    exact (resting.placed origin es originPresent).mono copies.maps copies.log
  · rw [copies.openMergeMap, copies.closeMergeSet]
    exact resting.closable

section

variable (executing : Executing env next c current stack ki)
include executing

/-- The instruction itself. It may fork if the current state has not arrived at the
close point of its region. -/
theorem Executing.copies (known : current < c.nextState) (copies : Copies forks c c')
    (passing : forks → Placed env next c stack ki) : Executing env next c' current stack ki := by
  refine ⟨?_, ?_, ?_, ?_, executing.agree.copies copies⟩
  · intro state after different present
    obtain ⟨origin, es, originPresent, source, sameStack, samePrev⟩ := copies.heap state after present
    rw [sameStack, samePrev]
    refine Placed.mono (c := c) ?_ copies.maps copies.log
    by_cases here : origin = current
    · subst here
      obtain ⟨stackHere, prevHere⟩ := executing.current es originPresent
      rw [stackHere, prevHere]
      exact passing (source.resolve_left (Ne.symm different)).1
    · exact executing.others origin es here originPresent
  · intro after present
    obtain ⟨origin, es, originPresent, source, sameStack, samePrev⟩ := copies.heap current after present
    obtain rfl : origin = current := source.resolve_right fun fresh => absurd known (Nat.not_lt.mpr fresh.2)
    rw [sameStack, samePrev]
    exact executing.current es originPresent
  · exact executing.arrived.imp_right fun ⟨closeBB, inside⟩ => ⟨closeBB, inside.mono copies.maps copies.log⟩
  · rw [copies.openMergeMap, copies.closeMergeSet]
    exact executing.closable

theorem Executing.opened {forked : Bool} (unnested : OpenPoint env c ki forked → stack = [])
    (opened : AutoOpened env c current ki forked c') : ∃ stack, Executing env next c' current stack ki := by
  cases opened with
  | skipped => exact ⟨stack, executing⟩
  | @opened es handler closeBB openMergeMap closeMergeSet present branches alone recorded closes =>
    have opens : OpenPoint env c ki forked := by
      refine ⟨branches, ?_⟩
      rcases closes with ⟨known, _⟩ | ⟨_, found, reachable, _⟩
      · exact .inl (by simp [known])
      · exact .inr (by simp [found, reachable])
    obtain ⟨sameStack, samePrev⟩ := executing.current es present
    have maps : ∀ bb closing, c.openMergeMap bb = some closing → openMergeMap bb = some closing := by
      intro bb closing known
      rw [recorded]
      by_cases same : bb = env.parent ki
      · subst same
        rcases closes with ⟨before, _⟩ | ⟨unknown, _⟩
        · rw [update_self, ← before, known]
        · rw [unknown] at known
          cases known
      · rw [update_of_ne same, known]
    have log : ∀ event ∈ c.log, event ∈ c.log ++ [.opened current c.nextHandler closeBB] :=
      fun event member => List.mem_append_left _ member
    refine ⟨[c.nextHandler], ?_, ?_, .inr ⟨closeBB, c.nextHandler, env.parent ki, current, rfl, ?_, ?_, ?_⟩, ?_, ?_⟩
    · intro state found different foundPresent
      have before : c.heap state = some found := by
        simpa [inRegion, update_of_ne different] using foundPresent
      exact (executing.others state found different before).mono maps log
    · intro found foundPresent
      have pushed : { es with openMergeStack := es.openMergeStack ++ [c.nextHandler] } = found := by
        simpa [inRegion] using foundPresent
      rw [← pushed]
      exact ⟨by simp [sameStack, unnested opens], samePrev⟩
    · simp [inRegion, recorded]
    · have walk : Walk env next (env.parent ki) closeBB (env.terminator (env.parent ki)) := .branch
      rwa [← branches.1] at walk
    · simp [inRegion]
    · intro bb closing known
      change openMergeMap bb = some closing at known
      rw [recorded] at known
      by_cases same : bb = env.parent ki
      · subst same
        rw [update_self, Option.some.injEq] at known
        subst known
        rcases closes with ⟨before, rfl⟩ | ⟨_, _, _, rfl⟩
        · exact executing.closable _ _ before
        · exact Finset.mem_insert_self _ _
      · rw [update_of_ne same] at known
        have old := executing.closable bb closing known
        rcases closes with ⟨_, rfl⟩ | ⟨_, _, _, rfl⟩
        · exact old
        · exact Finset.mem_insert_of_mem old
    · intro state id mp closed
      change .closed state id mp ∈ c.log ++ [.opened current c.nextHandler closeBB] at closed
      obtain ⟨opener, closing, wasOpened, own⟩ := executing.agree state id mp (by simpa using closed)
      exact ⟨opener, closing, log _ wasOpened, own⟩

theorem Executing.passing (parents : ∀ block, env.parent (env.firstNonPHI block) = block)
    (elsewhere : ¬ ClosePoint env c ki) : Placed env next c stack ki := by
  refine executing.arrived.imp_right ?_
  rintro ⟨closeBB, inside⟩
  refine ⟨closeBB, inside, ?_⟩
  rintro rfl
  obtain ⟨_, bb, _, _, recorded, _⟩ := inside
  refine elsewhere ⟨by rw [parents], ?_⟩
  rw [parents]
  exact executing.closable bb closeBB recorded

theorem Executing.placed (passing : Placed env next c stack ki) : AtRest env next c := by
  refine ⟨?_, executing.closable, executing.agree⟩
  intro state es present
  by_cases here : state = current
  · subst here
    obtain ⟨sameStack, samePrev⟩ := executing.current es present
    rwa [sameStack, samePrev]
  · exact executing.others state es here present

theorem Executing.closed (separate : Separate env next c) (closePoint : ClosePoint env c ki)
    (closed : Closed c current ki c') : AtRest env next c' := by
  cases closed with
  | @outside es present empty =>
    refine executing.placed (.inl ?_)
    rw [← (executing.current es present).1, empty]
  | @left es id held handlers c' present top step moves =>
    obtain ⟨sameStack, samePrev⟩ := executing.current es present
    rw [sameStack] at top
    have nonempty : stack ≠ [] := by
      rintro rfl
      simp at top
    obtain ⟨closeBB, inside⟩ := executing.arrived.resolve_left nonempty
    obtain ⟨found, bb, opener, single, recorded, walk, opened⟩ := inside
    obtain rfl : found = id := by simpa [single] using top
    have own : env.parent ki = closeBB := separate bb closeBB ki recorded (executing.closable bb closeBB recorded) walk closePoint
    have log : ∀ event ∈ c.log, event ∈ c.log ++ [.closed current found ki] := fun event member => List.mem_append_left _ member
    have copies : Copies False (c.leave current es found ki held handlers) c' := moves.copies
    refine AtRest.copies ⟨?_, ?_, ?_⟩ copies
    · intro state after foundPresent
      by_cases here : state = current
      · subst here
        have popped : { es with openMergeStack := es.openMergeStack.dropLast } = after := by
          simpa [leave] using foundPresent
        refine .inl ?_
        rw [← popped]
        simp [sameStack, single]
      · have before : c.heap state = some after := by
          simpa [leave, update_of_ne here] using foundPresent
        exact (executing.others state after here before).mono (fun _ _ known => known) log
    · exact executing.closable
    · intro state id mp member
      change .closed state id mp ∈ c.log ++ [.closed current found ki] at member
      rw [List.mem_append, List.mem_singleton] at member
      rcases member with old | new
      · obtain ⟨first, closing, wasOpened, matching⟩ := executing.agree state id mp old
        exact ⟨first, closing, log _ wasOpened, matching⟩
      · cases new
        exact ⟨opener, closeBB, log _ opened, own ▸ closePoint.1, own⟩

end

theorem heap_of_deref (found : c.deref state = .ok es) : c.heap state = some es := by
  unfold deref at found
  cases present : c.heap state with
  | none => simp [present] at found
  | some there =>
    rw [present] at found
    exact congrArg some (Except.ok.inj found)

theorem AtRest.select {pick : Nat} {selected stepped : Config σ τ} (resting : AtRest env next c)
    (valid : Valid [] c) (select : c.selectState env pick = .ok (selected, current)) (present : selected.heap current = some es)
    (edge : es.openMergeStack ≠ [] → next es.prevPC es.pc) (step : selected.stepInstruction current = .ok stepped) :
    Valid [] stepped ∧ Executing env next stepped current es.openMergeStack es.pc ∧
      current < stepped.nextState ∧ stepped.openMergeMap = c.openMergeMap ∧ stepped.closeMergeSet = c.closeMergeSet := by
  obtain ⟨validSelected, moves, _⟩ := (selectState_spec valid).elim select
  obtain ⟨validStepped, found, foundPresent, rfl⟩ := (stepInstruction_spec validSelected).elim step
  obtain rfl : es = found := Option.some.inj (present.symm.trans foundPresent)
  have copies : Copies False c selected := moves.copies
  have rested := resting.copies copies
  have log : ∀ event ∈ selected.log, event ∈ selected.log ++ [.executed current] := fun event member => List.mem_append_left _ member
  refine ⟨validStepped, ⟨?_, ?_, ?_, rested.closable, ?_⟩, ?_, copies.openMergeMap, copies.closeMergeSet⟩
  · intro state after different afterPresent
    have before : selected.heap state = some after := by
      simpa [record, update_of_ne different] using afterPresent
    exact (rested.placed state after before).mono (fun _ _ known => known) log
  · intro after afterPresent
    have advanced : { es with
        steppedInstructions := (es.steppedInstructions + 1) % 2 ^ 64
        prevPC := es.pc
        pc := es.pc + 1 } = after := by
      simpa [record] using afterPresent
    rw [← advanced]
    exact ⟨rfl, rfl⟩
  · rcases rested.placed current es present with empty | ⟨closeBB, inside, before⟩
    · exact .inl empty
    · obtain ⟨id, bb, opener, single, recorded, walk, opened⟩ := inside
      refine .inr ⟨closeBB, id, bb, opener, single, recorded, ?_, log _ opened⟩
      exact .step walk before (edge (by simp [single]))
  · intro state id mp closed
    change .closed state id mp ∈ selected.log ++ [.executed current] at closed
    obtain ⟨opener, closing, opened, own⟩ := rested.agree state id mp (by simpa using closed)
    exact ⟨opener, closing, log _ opened, own⟩
  · exact validSelected.scheduled.known current (.inl (by simp [present]))

theorem Config.Closed.maps {mp : KInst} (closed : Closed c state mp c') :
    c'.openMergeMap = c.openMergeMap ∧ c'.closeMergeSet = c.closeMergeSet := by
  cases closed with
  | outside => exact ⟨rfl, rfl⟩
  | left _ _ _ moves => exact ⟨moves.openMergeMap, moves.closeMergeSet⟩

theorem Separate.of_same (separate : Separate env next c') (openMergeMap : c'.openMergeMap = c.openMergeMap)
    (closeMergeSet : c'.closeMergeSet = c.closeMergeSet) : Separate env next c := by
  intro bb closeBB ki
  unfold ClosePoint
  rw [← openMergeMap, ← closeMergeSet]
  exact separate bb closeBB ki

theorem Executing.finish {killed : List StateId} {c₁ c₂ : Config σ τ} (executing : Executing env next c current stack ki)
    (parents : ∀ block, env.parent (env.firstNonPHI block) = block) (valid : Valid [] c)
    (closing : c.autoCloseMerge env current ki = .ok c₁)
    (killing : c₁.checkMemoryUsage env killed = .ok c₂) (separate : Separate env next c₂) : AtRest env next c₂ := by
  have validClosed := ((autoCloseMerge_progress valid).elim closing).1
  have copies : Copies False c₁ c₂ := ((checkMemoryUsage_copies validClosed).elim killing).2
  refine AtRest.copies (c := c₁) ?_ copies
  have separateClosed := separate.of_same copies.openMergeMap copies.closeMergeSet
  unfold autoCloseMerge at closing
  simp only at closing
  split at closing
  case isTrue closePoint =>
    obtain ⟨_, closed⟩ := (handleCloseMerge_spec valid).elim closing
    exact executing.closed (separateClosed.of_same closed.maps.1 closed.maps.2) closePoint closed
  case isFalse elsewhere =>
    cases closing
    exact executing.placed (executing.passing parents elsewhere)

theorem AtRest.execute {choice : Choice σ τ} {c₁ : Config σ τ}
    (parents : ∀ block, env.parent (env.firstNonPHI block) = block) (valid : Valid [] c)
    (resting : AtRest env next c) (starting : (Disjoint env next).starting c choice)
    (executed : c.execute env choice = .ok (c₁, current)) (separate : Separate env next c₁) : AtRest env next c₁ := by
  obtain ⟨automatic, unnested⟩ := starting
  rw [execute_eq_openingPart] at executed
  obtain ⟨opening, iteration, rest⟩ := bind_eq_ok_iff.mp executed
  obtain ⟨c₂, closing, rest⟩ := bind_eq_ok_iff.mp rest
  obtain ⟨c₃, killing, rest⟩ := bind_eq_ok_iff.mp rest
  cases rest
  obtain ⟨⟨selected, current⟩, select, iteration⟩ := bind_eq_ok_iff.mp iteration
  obtain ⟨es, present, iteration⟩ := bind_eq_ok_iff.mp iteration
  obtain ⟨stepped, step, iteration⟩ := bind_eq_ok_iff.mp iteration
  obtain ⟨acted, instruction, iteration⟩ := bind_eq_ok_iff.mp iteration
  obtain ⟨opened, opens, iteration⟩ := bind_eq_ok_iff.mp iteration
  cases iteration
  have found := heap_of_deref present
  have unnestedHere := unnested selected current es select found
  obtain ⟨validStepped, executing, known, sameMap, sameSet⟩ :=
    resting.select valid select found (fun inside => (unnestedHere inside).1) step
  have allowed : ∀ effect ∈ choice.effects, effect.Forks → Placed env next stepped es.openMergeStack es.pc := by
    intro effect member forks
    by_cases closePoint : ClosePoint env stepped es.pc
    · by_cases empty : es.openMergeStack = []
      · exact .inl empty
      · unfold ClosePoint at closePoint
        rw [sameSet] at closePoint
        exact absurd forks ((unnestedHere empty).2.2 closePoint effect member)
    · exact executing.passing parents closePoint
  obtain ⟨validExecuted, copies⟩ := (executeInstruction_copies validStepped automatic allowed).elim instruction
  have unopened : OpenPoint env acted es.pc choice.forked → es.openMergeStack = [] := by
    intro openPoint
    by_contra inside
    unfold OpenPoint at openPoint
    rw [copies.openMergeMap, sameMap] at openPoint
    exact (unnestedHere inside).2.1 openPoint
  obtain ⟨stack, executingOpened⟩ := (executing.copies known copies fun placed => placed).opened unopened (autoOpenMerge_spec.elim opens)
  exact executingOpened.finish parents ((autoOpenMerge_progress validExecuted).elim opens).1 closing killing separate

end Invariant

/-- In every run with automatic merging in which regions neither nest nor overlap,
every handler is popped at the close point computed for its own branch. -/
theorem reachable_closesAgree {next : KInst → KInst → Prop} {initial : List (ExecutionState σ)}
    {memory : τ} {c : Config σ τ} (parents : ∀ block, env.parent (env.firstNonPHI block) = block)
    (reachable : Reachable env (Disjoint env next) (start initial memory) c) :
    ClosesAgree env c := by
  suffices resting : AtRest env next c from resting.agree
  induction reachable with
  | start =>
    refine ⟨?_, by simp [start], by simp [ClosesAgree, start]⟩
    intro state es present
    cases found : initial[state]? with
    | none => simp [start, found] at present
    | some es =>
      simp only [start, found, Option.map_some, Option.some.injEq] at present
      rw [← present]
      exact .inl rfl
  | iterate before running starting selected executed updating updated ih =>
    have valid := before.valid (start_valid initial memory)
    obtain ⟨_, _, held, removed, update⟩ :=
      (updateStates_spec ((execute_spec valid).elim executed).valid).elim updated
    have copies : Copies False _ _ := update.copies
    exact (ih.execute parents valid starting executed updating).copies copies

/-- `nestedBranches`, but the region of block 0 ends at block 6 and only that of block
1 ends at block 5. -/
def nestedRegions : Env Unit Unit :=
  { nestedBranches with
    successors := fun block => match block with
      | 0 => [1, 2]
      | 1 => [3, 4]
      | 3 | 4 => [5]
      | 2 | 5 => [6]
      | _ => []
    findNearestCommonDominator := fun left right =>
      if left = right then some left else if left = 3 then some 5 else some 6 }

/-- The condition that there are no calls of `klee_open_merge` and
`klee_close_merge`. -/
def Config.Condition.automatic : Condition σ τ :=
  { Condition.always with starting := fun _ choice => ∀ effect ∈ choice.effects, effect.Automatic }

instance : DecidablePred (Effect.Automatic (σ := σ) (τ := τ)) := fun effect => by
  cases effect <;> unfold Effect.Automatic <;> infer_instance

instance : DecidablePred (Effect.Forks (σ := σ) (τ := τ)) := fun effect => by
  cases effect <;> unfold Effect.Forks <;> infer_instance

instance (c : Config σ τ) (choice : Choice σ τ) :
    Decidable (Condition.automatic.starting c choice) :=
  inferInstanceAs (Decidable (∀ effect ∈ choice.effects, effect.Automatic))

instance : DecidableRel (Condition.automatic (σ := σ) (τ := τ)).selected :=
  fun _ _ => inferInstanceAs (Decidable True)

instance : DecidableRel (Condition.automatic (σ := σ) (τ := τ)).updating :=
  fun _ _ => inferInstanceAs (Decidable True)

/-- State 2 is forked at block 1 inside the region of block 0, outside that of block
1, and arrives at block 5. -/
def throughInnerClose : List (Choice Unit Unit) :=
  [⟨0, [.branch 0, .assign 0 3 () (), .assign 1 5 () ()], true, []⟩,
    ⟨0, [.branch 0, .assign 0 7 () (), .assign 2 9 () ()], true, []⟩,
    ⟨2, [.assign 2 10 () ()], false, []⟩, ⟨2, [.assign 2 11 () ()], false, []⟩]

/-- `event` opens the region of handler 0 with an end at block 5. -/
def Event.opensInner : Event → Bool
  | opened _ 0 5 => true
  | _ => false

/-- State 2 closes the outer region at the close point of the inner one. -/
theorem outer_region_closed_at_inner_close :
    ¬ ∀ c, Reachable nestedRegions .automatic (start atBlockZero ()) c →
      ClosesAgree nestedRegions c := by
  intro agree
  obtain ⟨c, ran, wrong⟩ := exists_of_checkRun nestedRegions (start atBlockZero ())
    throughInnerClose
    (fun c => decide (.closed 2 0 10 ∈ c.log ∧ ∀ event ∈ c.log, event.opensInner = false))
    (by decide)
  simp only [decide_eq_true_eq] at wrong
  obtain ⟨opener, closeBB, opened, _, own⟩ :=
    agree c (reachable_of_complies .start (by decide) ran) 2 0 10 wrong.1
  obtain rfl : 5 = closeBB := own
  simpa [Event.opensInner] using wrong.2 _ opened

def edges (env : Env σ τ) (before ki : KInst) : Prop :=
  if before = env.terminator (env.parent before) then
    ki ∈ (env.successors (env.parent before)).map env.firstNonPHI
  else ki = before + 1

instance : DecidableRel (edges env) := fun _ _ => by
  unfold edges
  infer_instance

instance {c : Config σ τ} {choice : Choice σ τ} {es : ExecutionState σ} :
    Decidable (Unnested env (edges env) c choice es) := by
  unfold Unnested ClosePoint OpenPoint
  infer_instance

/-- A decidable condition under which the only region of a run is one that ends at
block 6. -/
def EndsAtSix : Condition Unit Unit where
  starting c choice := (∀ effect ∈ choice.effects, effect.Automatic) ∧
    match c.selectState nestedRegions choice.pick with
    | .ok (selected, current) =>
      ∀ es ∈ selected.heap current, Unnested nestedRegions (edges nestedRegions) c choice es
    | .error _ => True
  selected _ _ := True
  updating c _ := c.closeMergeSet ⊆ {6}

instance (c : Config Unit Unit) (choice : Choice Unit Unit) :
    Decidable (EndsAtSix.starting c choice) := by
  unfold EndsAtSix
  simp only
  cases c.selectState nestedRegions choice.pick <;> infer_instance

instance : DecidableRel EndsAtSix.selected := fun _ _ => inferInstanceAs (Decidable True)

instance : DecidableRel EndsAtSix.updating := fun c _ =>
  inferInstanceAs (Decidable (c.closeMergeSet ⊆ {6}))

def throughOwnClose : List (Choice Unit Unit) :=
  [⟨0, [.branch 0, .assign 0 5 () (), .assign 1 3 () ()], true, []⟩,
    ⟨0, [.assign 0 13 () ()], false, []⟩, ⟨0, [], false, []⟩]

theorem own_region_closed : ∃ c,
    (start atBlockZero ()).run nestedRegions throughOwnClose = .ok c ∧
      .closed 0 0 13 ∈ c.log ∧ ClosesAgree nestedRegions c := by
  obtain ⟨c, ran, closed⟩ := exists_of_checkRun nestedRegions (start atBlockZero ())
    throughOwnClose (fun c => decide (.closed 0 0 13 ∈ c.log)) (by decide)
  have single : Reachable nestedRegions EndsAtSix (start atBlockZero ()) c :=
    reachable_of_complies .start (by decide) ran
  have reachable : Reachable nestedRegions (Disjoint nestedRegions (edges nestedRegions))
      (start atBlockZero ()) c := by
    refine single.mono (start_valid _ _) ?_ (fun _ _ _ => trivial) ?_
    · rintro c choice ⟨automatic, unnested⟩
      refine ⟨automatic, fun selected current es select present => ?_⟩
      rw [select] at unnested
      exact unnested es present
    · intro c current _ ends bb closeBB ki _ recorded _ closePoint
      rw [Finset.mem_singleton.mp (ends recorded), Finset.mem_singleton.mp (ends closePoint.2)]
  have parents : ∀ block : Nat, (if block = 5 then 10 else 2 * block + 1) / 2 = block := by
    intro block
    split <;> omega
  exact ⟨c, ran, of_decide_eq_true closed, reachable_closesAgree parents reachable⟩

end NeuroMerge.Merging
