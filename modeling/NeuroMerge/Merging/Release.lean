import NeuroMerge.Merging.Handler

/-!
# Releasing the states that wait at a handler

A release continues every waiting state and then, close point by close point,
merges some of them. `Absorbs` is the second part as a sequence of single
merges: every fact about a release is an induction over that sequence, and the
loops of `releaseStates` are related to it once.
-/

namespace NeuroMerge.Merging

open List Function

variable {σ τ : Type} {env : Env σ τ} {delete : Config σ τ → StateId → Except Fault (Config σ τ)}

@[simp] theorem mem_toSet {states : List StateId} {state : StateId} : state ∈ toSet states ↔ state ∈ states := by
  simp [toSet]

theorem nodup_toSet (states : List StateId) : (toSet states).Nodup :=
  (perm_insertionSort (· ≤ ·) states.dedup).nodup_iff.mpr (nodup_dedup states)

def participants (pairs : List (StateId × StateId)) : List StateId :=
  pairs.flatMap fun pair => [pair.1, pair.2]

@[simp] theorem participants_nil : participants [] = [] := rfl

@[simp] theorem participants_append (pairs more : List (StateId × StateId)) :
    participants (pairs ++ more) = participants pairs ++ participants more :=
  flatMap_append

@[simp] theorem participants_singleton (pair : StateId × StateId) : participants [pair] = [pair.1, pair.2] := by
  simp [participants]

theorem mem_participants {pairs : List (StateId × StateId)} {state : StateId} :
    state ∈ participants pairs ↔ ∃ pair ∈ pairs, state = pair.1 ∨ state = pair.2 := by
  simp [participants]

theorem sources_sublist (pairs : List (StateId × StateId)) : (pairs.map (·.2)).Sublist (participants pairs) := by
  induction pairs with
  | nil => exact .slnil
  | cons pair rest ih => exact .cons _ (.cons_cons _ ih)

def Grouped (groups : List (KInst × List StateId)) (pairs : List (StateId × StateId)) : Prop :=
  ∀ pair ∈ pairs, ∃ group ∈ groups, pair.1 ∈ group.2 ∧ pair.2 ∈ group.2

variable {c : Config σ τ}

namespace Config

@[simp] theorem setState_heap (c : Config σ τ) (state : StateId) (es : Option (ExecutionState σ)) :
    (c.setState state es).heap = update c.heap state es := rfl

@[simp] theorem setHandler_handlers (c : Config σ τ) (id : HandlerId) (handler : Option MergeHandler) :
    (c.setHandler id handler).handlers = update c.handlers id handler := rfl

/-- The configuration after `mState` took over the behaviours of `state` and
`state` was requested to be removed. -/
def absorb (c : Config σ τ) (mState state : StateId) (target source : ExecutionState σ)
    (memory : τ) (contents : σ) : Config σ τ :=
  { c with
    memory
    heap := Function.update (Function.update c.heap mState (some { target with contents })) state
      (some { source with pc := source.prevPC })
    removedStates := c.removedStates ++ [state]
    log := c.log ++ [.absorbed mState state] }

theorem decision_cacheDecision (c : Config σ τ) (cached inst : KInst) :
    (c.cacheDecision env cached).decision env inst = c.decision env inst := by
  by_cases same : inst = cached
  · subst same
    simp [decision, cacheDecision]
  · simp [decision, cacheDecision, update_of_ne same]

/-- `state` can be merged into `mState`, the decision at their instruction is to
merge, and `ExecutionState::merge` succeeds with this result. -/
structure CanAbsorb (env : Env σ τ) (c : Config σ τ) (mState state : StateId)
    (target source : ExecutionState σ) (memory : τ) (contents : σ) : Prop where
  targetState : c.heap mState = some target
  sourceState : c.heap state = some source
  samePC : target.pc = source.pc
  mergeable : env.canMerge c.memory target.contents source.contents = true
  decided : c.decision env target.pc = true
  merged : env.merge c.memory target.contents source.contents = .merged memory contents

/-- `c'` is reached from `c` by merging the pairs in `pairs` in their order,
second into first, and caching decisions. -/
inductive Absorbs (env : Env σ τ) (c : Config σ τ) :
    List (StateId × StateId) → Config σ τ → Prop
  | refl : Absorbs env c [] c
  | cache {pairs c'} (inst : KInst) (before : Absorbs env c pairs c') :
      Absorbs env c pairs (c'.cacheDecision env inst)
  | merge {pairs c' mState state target source memory contents}
      (before : Absorbs env c pairs c') (different : mState ≠ state)
      (able : CanAbsorb env c' mState state target source memory contents) :
      Absorbs env c (pairs ++ [(mState, state)])
        (c'.absorb mState state target source memory contents)

theorem Absorbs.trans {first second third : Config σ τ} {pairs more : List (StateId × StateId)} (before : Absorbs env first pairs second)
    (after : Absorbs env second more third) : Absorbs env first (pairs ++ more) third := by
  induction after with
  | refl => simpa using before
  | cache inst _ ih => exact .cache inst ih
  | merge _ different able ih =>
    rw [← append_assoc]
    exact .merge ih different able

/-- What merging leaves alone and what it adds to `removedStates` and the log. -/
structure Absorbed (env : Env σ τ) (c : Config σ τ) (pairs : List (StateId × StateId))
    (c' : Config σ τ) : Prop where
  frame : c' = { c with
    memory := c'.memory
    heap := c'.heap
    mergeDecisionCache := c'.mergeDecisionCache
    removedStates := c.removedStates ++ pairs.map (·.2)
    log := c.log ++ pairs.map fun pair => .absorbed pair.1 pair.2 }
  decision : ∀ inst, c'.decision env inst = c.decision env inst
  stack : ∀ state, (c'.heap state).map (·.openMergeStack) = (c.heap state).map (·.openMergeStack)
  prevPC : ∀ state, (c'.heap state).map (·.prevPC) = (c.heap state).map (·.prevPC)
  untouched : ∀ state, state ∉ participants pairs → c'.heap state = c.heap state

theorem map_update_heap {α : Type} {f : ExecutionState σ → α} {heap : StateId → Option (ExecutionState σ)} {state : StateId}
    {es replacement : ExecutionState σ} (found : heap state = some es) (same : f replacement = f es) (other : StateId) :
    (update heap state (some replacement) other).map f = (heap other).map f := by
  by_cases here : other = state
  · subst here
    simp [found, same]
  · rw [update_of_ne here]

theorem absorb_map_heap {α : Type} {f : ExecutionState σ → α} {mState state : StateId}
    {target source : ExecutionState σ} {memory : τ} {contents : σ}
    (able : CanAbsorb env c mState state target source memory contents) (different : mState ≠ state)
    (sameTarget : f { target with contents } = f target)
    (sameSource : f { source with pc := source.prevPC } = f source) (other : StateId) :
    ((c.absorb mState state target source memory contents).heap other).map f = (c.heap other).map f := by
  have present : update c.heap mState (some { target with contents }) state = some source := by
    rw [update_of_ne different.symm, able.sourceState]
  exact (map_update_heap present sameSource other).trans (map_update_heap able.targetState sameTarget other)

theorem Absorbs.absorbed {c' : Config σ τ} {pairs : List (StateId × StateId)}
    (absorbs : Absorbs env c pairs c') : Absorbed env c pairs c' := by
  induction absorbs with
  | refl => exact ⟨by simp, by simp, by simp, by simp, by simp⟩
  | @cache pairs c' inst before ih =>
    refine ⟨?_, ?_, ih.stack, ih.prevPC, ih.untouched⟩
    · unfold cacheDecision
      rw [ih.frame]
    · intro other
      exact (decision_cacheDecision _ inst other).trans (ih.decision other)
  | @merge pairs c' mState state target source memory contents before different able ih =>
    refine ⟨?_, ih.decision, ?_, ?_, ?_⟩
    · unfold absorb
      rw [ih.frame]
      simp
    · intro other
      rw [absorb_map_heap able different rfl rfl other, ih.stack other]
    · intro other
      rw [absorb_map_heap able different rfl rfl other, ih.prevPC other]
    · intro other outside
      simp only [participants_append, participants_singleton, mem_append, mem_cons, not_mem_nil, or_false, not_or] at outside
      rw [← ih.untouched other outside.1]
      simp only [absorb]
      rw [update_of_ne outside.2.2, update_of_ne outside.2.1]

theorem Absorbs.source_allocated {c' : Config σ τ} {pairs : List (StateId × StateId)}
    (absorbs : Absorbs env c pairs c') : ∀ pair ∈ pairs, (c.heap pair.2).isSome := by
  induction absorbs with
  | refl => exact nofun
  | cache _ _ ih => exact ih
  | merge before _ able ih =>
    intro pair member
    cases List.mem_append.mp member with
    | inl earlier => exact ih pair earlier
    | inr last =>
      have same := congrArg Option.isSome (before.absorbed.stack pair.2)
      simp only [Option.isSome_map] at same
      rw [← same, List.mem_singleton.mp last, able.sourceState]
      rfl

def Mergeable (env : Env σ τ) (c : Config σ τ) (mState state : StateId) : Prop :=
  ∃ target source, c.heap mState = some target ∧ c.heap state = some source ∧
    target.pc = source.pc ∧ env.canMerge c.memory target.contents source.contents = true

theorem canMerge_spec {mState state : StateId} :
    Satisfies Tolerated (fun answer => answer = true → c.Mergeable env mState state) (c.canMerge env mState state) := by
  refine satisfies_deref fun target targetState => ?_
  refine satisfies_deref fun source sourceState => ?_
  intro accepted
  simp only [decide_eq_true_eq, Bool.and_eq_true] at accepted
  exact ⟨target, source, targetState, sourceState, accepted⟩

theorem mergePartners_spec {mState : StateId} {group : List StateId} :
    Satisfies Tolerated
      (fun partners : List StateId => partners.Sublist group ∧
        ∀ state ∈ partners, c.Mergeable env mState state) (c.mergePartners env mState group) := by
  refine .foldlM (fun seen (partners : List StateId) => partners.Sublist seen ∧
    ∀ state ∈ partners, c.Mergeable env mState state) ⟨.slnil, by simp⟩ ?_
  intro seen state remaining partners split ⟨sublist, able⟩
  refine canMerge_spec.bind ?_
  intro answer accepted
  cases answer with
  | false => exact ⟨sublist.trans (sublist_append_left seen [state]), able⟩
  | true =>
    refine ⟨sublist.append (.refl [state]), ?_⟩
    intro other member
    rcases List.mem_append.mp member with earlier | last
    · exact able other earlier
    · rw [List.mem_singleton.mp last]
      exact accepted rfl

theorem merge_spec {mState state : StateId} {target source : ExecutionState σ}
    (targetState : c.heap mState = some target) (sourceState : c.heap state = some source) :
    Satisfies Tolerated
      (fun outcome => ∀ c', outcome = some c' → ∃ memory contents,
        env.merge c.memory target.contents source.contents = .merged memory contents ∧
        c' = { c with memory }.setState mState (some { target with contents }))
      (c.merge env mState state) := by
  simp only [merge, deref, targetState, sourceState]
  refine Satisfies.bind (Satisfies.ok_iff.mpr (rfl : _ = target)) ?_
  rintro _ rfl
  refine Satisfies.bind (Satisfies.ok_iff.mpr (rfl : _ = source)) ?_
  rintro _ rfl
  split
  case isFalse => simp
  case isTrue =>
    cases outcome : env.merge c.memory target.contents source.contents with
    | refused => simp
    | aborted => exact tolerated_mergeAborted
    | merged memory contents =>
      rintro c' ⟨⟩
      exact ⟨memory, contents, rfl, rfl⟩

theorem terminateState_spec {state : StateId} (started : state ∉ c.addedStates) :
    Satisfies Tolerated (fun c' => ∃ es, c.heap state = some es ∧ c' = { c.setState state (some { es with pc := es.prevPC }) with
          removedStates := c.removedStates ++ [state] })
      (c.terminateState delete state) := by
  rw [terminateState, if_neg started]
  exact satisfies_deref fun es present => ⟨es, present, rfl⟩

theorem mergeFirst_spec {mState : StateId} {target : ExecutionState σ}
    (targetState : c.heap mState = some target) (decided : c.decision env target.pc = true)
    {partners : List StateId} (able : ∀ state ∈ partners, c.Mergeable env mState state)
    (others : mState ∉ partners) (started : ∀ state ∈ partners, state ∉ c.addedStates) :
    Satisfies Tolerated
      (fun c' => ∃ pairs, Absorbs env c pairs c' ∧
        (pairs = [] ∨ ∃ state ∈ partners, pairs = [(mState, state)])) (mergeFirst env delete mState c partners) := by
  induction partners with
  | nil => exact ⟨[], .refl, .inl rfl⟩
  | cons state partners ih =>
    have different : mState ≠ state := fun same => others (by simp [same])
    obtain ⟨found, source, foundState, sourceState, samePC, mergeable⟩ := able state (by simp)
    obtain rfl : target = found := Option.some.inj (targetState.symm.trans foundState)
    refine (merge_spec targetState sourceState).bind ?_
    intro outcome merges
    cases outcome with
    | none =>
      refine (ih (fun other member => able other (by simp [member])) (fun member => others (by simp [member]))
        (fun other member => started other (by simp [member]))).mono ?_
      rintro c' ⟨pairs, absorbs, rfl | ⟨other, member, rfl⟩⟩
      · exact ⟨[], absorbs, .inl rfl⟩
      · exact ⟨_, absorbs, .inr ⟨other, by simp [member], rfl⟩⟩
    | some merged =>
      obtain ⟨memory, contents, merged, rfl⟩ := merges _ rfl
      refine .mono (terminateState_spec (c := record _ _) (started state (by simp))) ?_
      rintro c' ⟨es, present, rfl⟩
      simp only [record, setState_heap, update_of_ne different.symm, sourceState, Option.some.injEq] at present
      subst present
      refine ⟨[(mState, state)], ?_, .inr ⟨state, by simp, rfl⟩⟩
      exact .merge .refl different ⟨targetState, sourceState, samePC, mergeable, decided, merged⟩

theorem Absorbs.addedStates {c' : Config σ τ} {pairs : List (StateId × StateId)}
    (absorbs : Absorbs env c pairs c') : c'.addedStates = c.addedStates := by
  rw [absorbs.absorbed.frame]

theorem mergeDecided_spec {mState : StateId} {partners : List StateId}
    (able : ∀ state ∈ partners, c.Mergeable env mState state) (others : mState ∉ partners)
    (started : ∀ state ∈ partners, state ∉ c.addedStates) :
    Satisfies Tolerated
      (fun c' => ∃ pairs, Absorbs env c pairs c' ∧
        (pairs = [] ∨ ∃ state ∈ partners, pairs = [(mState, state)])) (c.mergeDecided env delete mState partners) := by
  refine satisfies_deref fun target targetState => ?_
  have cached : Absorbs env c [] (c.cacheDecision env target.pc) := .cache _ .refl
  split
  case isFalse => exact ⟨[], cached, .inl rfl⟩
  case isTrue decided =>
    refine (mergeFirst_spec (c := c.cacheDecision env target.pc) targetState
      ((decision_cacheDecision c _ _).trans decided) able others started).mono ?_
    rintro c' ⟨pairs, absorbs, shape⟩
    exact ⟨pairs, cached.trans absorbs, shape⟩

theorem mergeGroup_spec {group : List StateId} :
    ∀ {c : Config σ τ} {erased : List StateId}, group.Nodup →
      (∀ state ∈ group, state ∉ c.addedStates) →
      Satisfies Tolerated
        (fun c' => ∃ pairs, Absorbs env c pairs c' ∧ (participants pairs).Nodup ∧
          ∀ state ∈ participants pairs, state ∈ group ∧ state ∉ erased) (mergeGroup env delete c erased group) := by
  induction group with
  | nil => exact fun _ _ => ⟨[], .refl, by simp, by simp⟩
  | cons mState rest ih =>
    intro c erased once started
    obtain ⟨fresh, restOnce⟩ := nodup_cons.mp once
    have restStarted : ∀ state ∈ rest, state ∉ c.addedStates := fun state member => started state (by simp [member])
    have skip : Satisfies Tolerated (fun c' => ∃ pairs, Absorbs env c pairs c' ∧ (participants pairs).Nodup ∧
          ∀ state ∈ participants pairs, state ∈ mState :: rest ∧ state ∉ erased)
        (mergeGroup env delete c erased rest) := by
      refine (ih restOnce restStarted).mono ?_
      rintro c' ⟨pairs, absorbs, distinct, members⟩
      exact ⟨pairs, absorbs, distinct, fun state member =>
        ⟨by simp [(members state member).1], (members state member).2⟩⟩
    unfold mergeGroup
    split
    case isTrue => exact skip
    case isFalse kept =>
      refine mergePartners_spec.bind ?_
      intro partners ⟨sublist, able⟩
      split
      case isTrue => exact skip
      case isFalse =>
        have partnerMem : ∀ state ∈ partners, state ∈ rest ∧ state ∉ erased := by
          intro state member
          simpa using sublist.subset member
        refine .bind (mergeDecided_spec able (fun member => fresh (partnerMem mState member).1)
          (fun state member => restStarted state (partnerMem state member).1)) ?_
        rintro merged ⟨first, absorbs, shape⟩
        refine (ih restOnce (by simpa [absorbs.addedStates] using restStarted)).mono ?_
        rintro c' ⟨more, continues, distinct, members⟩
        refine ⟨first ++ more, absorbs.trans continues, ?_, ?_⟩
        · rcases shape with rfl | ⟨state, member, rfl⟩
          · simpa using distinct
          · have notLater : mState ∉ participants more := fun later => fresh (members mState later).1
            have taken : state ∉ participants more := fun later => (members state later).2 (by simp [member])
            have different : mState ≠ state := by
              rintro rfl
              exact fresh (partnerMem mState member).1
            rw [participants_append, participants_singleton]
            simp [distinct, notLater, taken, different]
        · intro state member
          rw [participants_append, mem_append] at member
          rcases member with early | late
          · rcases shape with rfl | ⟨partner, chosen, rfl⟩
            · simp at early
            · rw [participants_singleton] at early
              rcases mem_pair.mp early with rfl | rfl
              · exact ⟨by simp, kept⟩
              · exact ⟨by simp [(partnerMem _ chosen).1], (partnerMem _ chosen).2⟩
          · obtain ⟨inRest, unerased⟩ := members state late
            exact ⟨by simp [inRest], fun old => unerased (by simp [old])⟩

def resumed (c : Config σ τ) (waiting held : List StateId) : Config σ τ :=
  { c with
    baseSearcher := held
    pausedStates := c.pausedStates.diff waiting
    inCloseMerge := c.inCloseMerge \ waiting.toFinset
    log := c.log ++ waiting.map .continued }

theorem continueWaiting_spec {waiting : List StateId} (heldOnce : c.baseSearcher.Nodup)
    (pausedOnce : c.pausedStates.Nodup) (apart : ∀ state ∈ c.pausedStates, state ∉ c.baseSearcher) :
    Satisfies Tolerated
      (fun c' => ∃ held, c' = c.resumed waiting held ∧ held.Nodup ∧ waiting.Nodup ∧
        (∀ state, state ∈ held ↔ state ∈ c.baseSearcher ∨ state ∈ waiting) ∧
        ∀ state ∈ waiting, state ∈ c.pausedStates) (waiting.foldlM continueWaiting c) := by
  refine .foldlM (fun seen c' => ∃ held, c' = c.resumed seen held ∧ held.Nodup ∧
    seen.Nodup ∧ (∀ state, state ∈ held ↔ state ∈ c.baseSearcher ∨ state ∈ seen) ∧
    ∀ state ∈ seen, state ∈ c.pausedStates)
    ⟨c.baseSearcher, by simp [resumed], heldOnce, by simp, by simp, by simp⟩ ?_
  rintro seen state remaining _ split ⟨held, rfl, heldOnce, seenOnce, members, paused⟩
  have memPaused : ∀ other, other ∈ c.pausedStates.diff seen ↔
      other ∈ c.pausedStates ∧ other ∉ seen := fun other => pausedOnce.mem_sdiff_iff
  refine .bind (continueState_spec (c := c.resumed seen held) heldOnce ?_) ?_
  · intro waits
    obtain ⟨wasPaused, unseen⟩ := (memPaused state).mp waits
    simp [resumed, members, unseen, apart state wasPaused]
  · rintro _ ⟨heldAfter, rfl, heldAfterOnce, membersAfter, waits⟩
    obtain ⟨wasPaused, unseen⟩ := (memPaused state).mp waits
    refine ⟨heldAfter, ?_, heldAfterOnce, ?_, ?_, ?_⟩
    · have closing : (c.inCloseMerge \ seen.toFinset).erase state = c.inCloseMerge \ (seen ++ [state]).toFinset := by
        ext other
        simp only [Finset.mem_erase, Finset.mem_sdiff, mem_toFinset, mem_append, mem_singleton]
        tauto
      simp [resumed, record, closing]
    · exact seenOnce.append (nodup_singleton state) (by simpa [disjoint_singleton] using unseen)
    · intro other
      rw [membersAfter other]
      simp only [resumed, members other, mem_append, mem_singleton]
      tauto
    · intro other member
      rcases List.mem_append.mp member with earlier | last
      · exact paused other earlier
      · rwa [List.mem_singleton.mp last]

/-- `releaseStates` of the handler `id`, which was `handler`, has turned `c` into
`c'`, merging `pairs`. -/
structure Released (env : Env σ τ) (c : Config σ τ) (id : HandlerId) (handler : MergeHandler)
    (pairs : List (StateId × StateId)) (c' : Config σ τ) : Prop where
  handlerState : c.handlers id = some handler
  waitingOnce : handler.waiting.Nodup
  waitingPaused : ∀ state ∈ handler.waiting, state ∈ c.pausedStates
  heldOnce : c'.baseSearcher.Nodup
  held : ∀ state, state ∈ c'.baseSearcher ↔ state ∈ c.baseSearcher ∨ state ∈ handler.waiting
  frame : c' = { c with
    memory := c'.memory
    heap := c'.heap
    mergeDecisionCache := c'.mergeDecisionCache
    baseSearcher := c'.baseSearcher
    pausedStates := c.pausedStates.diff handler.waiting
    inCloseMerge := c.inCloseMerge \ handler.waiting.toFinset
    handlers := Function.update c.handlers id (some { handler with reachedCloseMerge := [] })
    removedStates := c.removedStates ++ pairs.map (·.2)
    log := c.log ++ handler.waiting.map .continued ++
      pairs.map fun pair => .absorbed pair.1 pair.2 }
  absorbs : Absorbs env (c.resumed handler.waiting c'.baseSearcher) pairs
    { c' with handlers := c.handlers }
  distinct : (participants pairs).Nodup
  grouped : Grouped handler.reachedCloseMerge pairs

theorem Released.within {c' : Config σ τ} {id : HandlerId} {handler : MergeHandler} {pairs : List (StateId × StateId)}
    (released : c.Released env id handler pairs c') : ∀ state ∈ participants pairs, state ∈ handler.waiting := by
  intro state member
  obtain ⟨pair, merged, side⟩ := mem_participants.mp member
  obtain ⟨group, reached, first, second⟩ := released.grouped pair merged
  refine mem_flatMap.mpr ⟨group, reached, ?_⟩
  rcases side with rfl | rfl <;> assumption

theorem mergeGroups_spec {groups : List (KInst × List StateId)} (once : (groups.flatMap (·.2)).Nodup)
    (started : ∀ state ∈ groups.flatMap (·.2), state ∉ c.addedStates) :
    Satisfies Tolerated
      (fun c' => ∃ pairs, Absorbs env c pairs c' ∧ (participants pairs).Nodup ∧
        Grouped groups pairs) (groups.foldlM (fun c group => mergeGroup env delete c [] (toSet group.2)) c) := by
  refine .foldlM (fun seen c' => ∃ pairs, Absorbs env c pairs c' ∧
    (participants pairs).Nodup ∧ Grouped seen pairs) ⟨[], .refl, by simp, by simp [Grouped]⟩ ?_
  rintro seen group remaining merged split ⟨pairs, absorbs, distinct, grouped⟩
  refine (mergeGroup_spec (nodup_toSet group.2) ?_).mono ?_
  · intro state member
    rw [absorbs.addedStates]
    exact started state (mem_flatMap.mpr ⟨group, by simp [split], by simpa using member⟩)
  · rintro c' ⟨more, continues, moreDistinct, members⟩
    refine ⟨pairs ++ more, absorbs.trans continues, ?_, ?_⟩
    · rw [participants_append]
      refine distinct.append moreDistinct ?_
      intro state early late
      obtain ⟨pair, member, side⟩ := mem_participants.mp early
      obtain ⟨earlier, earlierMem, first, second⟩ := grouped pair member
      have inEarlier : state ∈ seen.flatMap (·.2) := by
        refine mem_flatMap.mpr ⟨earlier, earlierMem, ?_⟩
        rcases side with rfl | rfl <;> assumption
      rw [split, flatMap_append, flatMap_cons] at once
      exact (disjoint_of_nodup_append once) inEarlier (mem_append_left _ (mem_toSet.mp (members state late).1))
    · intro pair member
      rcases List.mem_append.mp member with early | late
      · obtain ⟨earlier, earlierMem, both⟩ := grouped pair early
        exact ⟨earlier, by simp [earlierMem], both⟩
      · have inGroup : ∀ state, state = pair.1 ∨ state = pair.2 → state ∈ group.2 :=
          fun state side => mem_toSet.mp (members state (mem_participants.mpr ⟨pair, late, side⟩)).1
        exact ⟨group, by simp, inGroup _ (.inl rfl), inGroup _ (.inr rfl)⟩

theorem releaseStates_spec {id : HandlerId} (heldOnce : c.baseSearcher.Nodup)
    (pausedOnce : c.pausedStates.Nodup) (apart : ∀ state ∈ c.pausedStates, state ∉ c.baseSearcher)
    (started : ∀ state ∈ c.pausedStates, state ∉ c.addedStates) :
    Satisfies Tolerated (fun c' => ∃ handler pairs, c.Released env id handler pairs c') (c.releaseStates env delete id) := by
  refine satisfies_handler fun handler handlerState => ?_
  refine .bind (continueWaiting_spec heldOnce pausedOnce apart) ?_
  rintro _ ⟨held, rfl, heldOnce, waitingOnce, members, waitingPaused⟩
  refine .bind (mergeGroups_spec (c := c.resumed handler.waiting held) waitingOnce
    fun state waits => started state (waitingPaused state waits)) ?_
  rintro merged ⟨pairs, absorbs, distinct, grouped⟩
  have frame := absorbs.absorbed.frame
  have sameHandlers : merged.handlers = c.handlers := by rw [frame]; rfl
  have sameBase : merged.baseSearcher = held := by rw [frame]; rfl
  refine satisfies_handler fun found foundState => ?_
  obtain rfl : handler = found := by
    rw [sameHandlers, handlerState] at foundState
    exact Option.some.inj foundState
  refine ⟨handler, pairs, handlerState, waitingOnce, waitingPaused, ?_, ?_, ?_, ?_, distinct, grouped⟩
  · simpa [setHandler, sameBase] using heldOnce
  · simpa [setHandler, sameBase] using members
  · rw [frame]
    rfl
  · rw [show (merged.setHandler id _).baseSearcher = held from sameBase]
    convert absorbs using 1
    rw [frame]
    rfl

end Config

end NeuroMerge.Merging
