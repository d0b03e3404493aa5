import NeuroMerge.Merging.Removal

/-!
# A release conserves behaviours

If `ExecutionState::merge` is sound, the states that are left after a release
represent what the waiting states represented. The release returns unless an
assertion inside `merge` fails.
-/

namespace NeuroMerge.Merging

open List Config

variable {σ τ ι π : Type} {env : Env σ τ} {delete : Config σ τ → StateId → Except Fault (Config σ τ)}

/-- What it means that `ExecutionState::merge` is sound. `represents` are the pairs
of an input assignment and a concrete program state that a state at some
instruction stands for. States are `separate` when their path conditions exclude
each other and neither can write to an object of the other. -/
structure SoundMerge (env : Env σ τ) (ι π : Type) where
  represents : τ → KInst → σ → Set (ι × π)
  separate : τ → σ → σ → Prop
  symm : ∀ {memory first second}, separate memory first second → separate memory second first
  merged : ∀ {memory target source memory' contents}, separate memory target source →
    env.merge memory target source = .merged memory' contents →
    ∀ pc, represents memory' pc contents = represents memory pc target ∪ represents memory pc source
  kept : ∀ {memory target source other memory' contents}, separate memory target source →
    separate memory target other → separate memory source other →
    env.merge memory target source = .merged memory' contents →
    ∀ pc, represents memory' pc other = represents memory pc other
  mergedSeparate : ∀ {memory target source other memory' contents},
    separate memory target source → separate memory target other →
    separate memory source other → env.merge memory target source = .merged memory' contents →
    separate memory' contents other
  keptSeparate : ∀ {memory target source first second memory' contents},
    separate memory target source → separate memory target first →
    separate memory source first → separate memory target second →
    separate memory source second → separate memory first second →
    env.merge memory target source = .merged memory' contents → separate memory' first second

variable {c c' : Config σ τ} {state mState : StateId} {waiting : List StateId} {pairs : List (StateId × StateId)}

namespace SoundMerge

def represented (sound : SoundMerge env ι π) (c : Config σ τ) (state : StateId) : Set (ι × π) :=
  {behaviour | ∃ es, c.heap state = some es ∧
    behaviour ∈ sound.represents c.memory es.pc es.contents}

def representedBy (sound : SoundMerge env ι π) (c : Config σ τ) (states : List StateId) :
    Set (ι × π) :=
  {behaviour | ∃ state ∈ states, behaviour ∈ sound.represented c state}

def Separated (sound : SoundMerge env ι π) (c : Config σ τ) (states : List StateId) : Prop :=
  ∀ first ∈ states, ∀ second ∈ states, first ≠ second → ∀ one other,
    c.heap first = some one → c.heap second = some other →
    sound.separate c.memory one.contents other.contents

variable {sound : SoundMerge env ι π}

theorem mem_represented {es : ExecutionState σ} (present : c.heap state = some es) {behaviour : ι × π} :
    behaviour ∈ sound.represented c state ↔ behaviour ∈ sound.represents c.memory es.pc es.contents := by
  constructor
  · rintro ⟨found, foundPresent, represents⟩
    obtain rfl : es = found := Option.some.inj (present.symm.trans foundPresent)
    exact represents
  · exact fun represents => ⟨es, present, represents⟩

def survivors (waiting : List StateId) (pairs : List (StateId × StateId)) : List StateId :=
  waiting.filter (· ∉ pairs.map (·.2))

theorem mem_survivors : state ∈ survivors waiting pairs ↔ state ∈ waiting ∧ state ∉ pairs.map (·.2) := by
  simp only [survivors, mem_filter, decide_eq_true_eq]

theorem mem_survivors_append {other : StateId} :
    other ∈ survivors waiting (pairs ++ [(mState, state)]) ↔ other ∈ survivors waiting pairs ∧ other ≠ state := by
  simp only [mem_survivors, map_append, map_cons, map_nil, mem_append, mem_singleton, not_or, and_assoc]

/-- One merge: the union stays the same and the remaining states stay separate. -/
theorem absorb_represents {states : List StateId} {target source : ExecutionState σ} {memory : τ}
    {contents : σ} (separated : sound.Separated c states) (first : mState ∈ states) (second : state ∈ states) (different : mState ≠ state)
    (able : CanAbsorb env c mState state target source memory contents) {left : List StateId}
    (members : ∀ other, other ∈ left ↔ other ∈ states ∧ other ≠ state) :
    sound.representedBy (c.absorb mState state target source memory contents) left =
        sound.representedBy c states ∧ sound.Separated (c.absorb mState state target source memory contents) left := by
  have apart := separated mState first state second different target source able.targetState able.sourceState
  have targetAfter : (c.absorb mState state target source memory contents).heap mState = some { target with contents } := by
    simp [absorb, Function.update_of_ne different]
  have elsewhere : ∀ other, other ≠ mState → other ≠ state →
      (c.absorb mState state target source memory contents).heap other = c.heap other := by
    intro other notTarget notSource
    simp [absorb, Function.update_of_ne notTarget, Function.update_of_ne notSource]
  have fromBoth : ∀ other ∈ states, other ≠ mState → other ≠ state → ∀ es,
      c.heap other = some es → sound.separate c.memory target.contents es.contents ∧
        sound.separate c.memory source.contents es.contents := by
    intro other member notTarget notSource es present
    exact ⟨separated mState first other member (Ne.symm notTarget) target es able.targetState
      present, separated state second other member (Ne.symm notSource) source es able.sourceState present⟩
  constructor
  · ext behaviour
    have merged : behaviour ∈ sound.represented (c.absorb mState state target source memory contents) mState ↔
        behaviour ∈ sound.represented c mState ∨ behaviour ∈ sound.represented c state := by
      rw [mem_represented targetAfter, mem_represented able.targetState, mem_represented able.sourceState, ← able.samePC, ← Set.mem_union,
        ← sound.merged apart able.merged]
      rfl
    have kept : ∀ other ∈ states, other ≠ mState → other ≠ state →
        (behaviour ∈ sound.represented (c.absorb mState state target source memory contents) other ↔
          behaviour ∈ sound.represented c other) := by
      intro other member notTarget notSource
      refine exists_congr fun es => ?_
      rw [elsewhere other notTarget notSource]
      refine and_congr_right fun present => ?_
      obtain ⟨fromTarget, fromSource⟩ := fromBoth other member notTarget notSource es present
      change behaviour ∈ sound.represents memory es.pc es.contents ↔ _
      rw [sound.kept apart fromTarget fromSource able.merged]
    constructor
    · rintro ⟨other, member, represents⟩
      obtain ⟨inStates, notSource⟩ := (members other).mp member
      by_cases same : other = mState
      · subst same
        rcases merged.mp represents with old | absorbed
        · exact ⟨other, inStates, old⟩
        · exact ⟨state, second, absorbed⟩
      · exact ⟨other, inStates, (kept other inStates same notSource).mp represents⟩
    · rintro ⟨other, member, represents⟩
      by_cases isTarget : other = mState
      · subst isTarget
        exact ⟨other, (members other).mpr ⟨first, different⟩, merged.mpr (.inl represents)⟩
      · by_cases isSource : other = state
        · subst isSource
          exact ⟨mState, (members mState).mpr ⟨first, different⟩, merged.mpr (.inr represents)⟩
        · exact ⟨other, (members other).mpr ⟨member, isSource⟩, (kept other member isTarget isSource).mpr represents⟩
  · -- the merged state is separate from the others, which nothing was written to
    have mergedApart : ∀ other ∈ left, other ≠ mState → ∀ es, c.heap other = some es → sound.separate memory contents es.contents := by
      intro other member notTarget es present
      obtain ⟨inStates, notSource⟩ := (members other).mp member
      obtain ⟨fromTarget, fromSource⟩ := fromBoth other inStates notTarget notSource es present
      exact sound.mergedSeparate apart fromTarget fromSource able.merged
    intro one oneIn two twoIn distinct es other onePresent twoPresent
    obtain ⟨oneStates, oneNotSource⟩ := (members one).mp oneIn
    obtain ⟨twoStates, twoNotSource⟩ := (members two).mp twoIn
    by_cases oneTarget : one = mState
    · subst oneTarget
      rw [targetAfter, Option.some.injEq] at onePresent
      subst onePresent
      rw [elsewhere two distinct.symm twoNotSource] at twoPresent
      exact mergedApart two twoIn distinct.symm other twoPresent
    · rw [elsewhere one oneTarget oneNotSource] at onePresent
      by_cases twoTarget : two = mState
      · subst twoTarget
        rw [targetAfter, Option.some.injEq] at twoPresent
        subst twoPresent
        exact sound.symm (mergedApart one oneIn oneTarget es onePresent)
      · rw [elsewhere two twoTarget twoNotSource] at twoPresent
        obtain ⟨oneFromTarget, oneFromSource⟩ := fromBoth one oneStates oneTarget oneNotSource es onePresent
        obtain ⟨twoFromTarget, twoFromSource⟩ := fromBoth two twoStates twoTarget twoNotSource other twoPresent
        exact sound.keptSeparate apart oneFromTarget oneFromSource twoFromTarget twoFromSource
          (separated one oneStates two twoStates distinct es other onePresent twoPresent)
          able.merged

/-- All merges of a release: what the survivors represent is what the waiting states
represented. -/
theorem absorbs_represents (absorbs : Absorbs env c pairs c')
    (separated : sound.Separated c waiting) (distinct : (participants pairs).Nodup)
    (within : ∀ state ∈ participants pairs, state ∈ waiting) :
    sound.representedBy c' (survivors waiting pairs) = sound.representedBy c waiting ∧ sound.Separated c' (survivors waiting pairs) := by
  induction absorbs with
  | refl => simpa [survivors] using separated
  | cache inst before ih => exact ih distinct within
  | @merge pairs c' mState state target source memory contents before different able ih =>
    rw [participants_append, participants_singleton] at distinct within
    obtain ⟨earlierDistinct, _, apart⟩ := nodup_append.mp distinct
    obtain ⟨same, stillSeparated⟩ := ih earlierDistinct fun other member => within other (by simp [member])
    have unmerged : ∀ other, other = mState ∨ other = state → other ∈ survivors waiting pairs := by
      intro other side
      refine mem_survivors.mpr ⟨within other (by simp [side]), fun absorbed => ?_⟩
      obtain ⟨pair, merged, equal⟩ := mem_map.mp absorbed
      exact apart other (mem_participants.mpr ⟨pair, merged, .inr equal.symm⟩) other (by simpa using side) rfl
    obtain ⟨union, separatedAfter⟩ := absorb_represents stillSeparated
      (unmerged mState (.inl rfl)) (unmerged state (.inr rfl)) different able
      fun _ => mem_survivors_append
    exact ⟨union.trans same, separatedAfter⟩

end SoundMerge

/-- The only way in which a release of live states does not return. -/
def OnlyAborts (fault : Fault) : Prop := fault = .mergeAborted

theorem total_deref {α : Type} {post : α → Prop} {next : ExecutionState σ → Except Fault α} (alive : (c.heap state).isSome)
    (found : ∀ es, c.heap state = some es → Satisfies OnlyAborts post (next es)) :
    Satisfies OnlyAborts post (c.deref state >>= next) := by
  obtain ⟨es, present⟩ := Option.isSome_iff_exists.mp alive
  simp only [deref, present]
  exact found es present

def Alive (c : Config σ τ) (states : List StateId) : Prop :=
  ∀ state ∈ states, (c.heap state).isSome ∧ state ∉ c.addedStates

theorem Alive.absorbs {states : List StateId} (alive : Alive c states) (absorbs : Absorbs env c pairs c') : Alive c' states := by
  intro state member
  obtain ⟨exist, known⟩ := alive state member
  have same := congrArg Option.isSome (absorbs.absorbed.stack state)
  rw [Option.isSome_map, Option.isSome_map] at same
  rw [same, absorbs.addedStates]
  exact ⟨exist, known⟩

theorem mergePartners_total {group : List StateId} (target : (c.heap mState).isSome) (alive : Alive c group) :
    Satisfies OnlyAborts (fun _ => True) (c.mergePartners env mState group) := by
  refine .foldlM_const trivial ?_
  intro state member partners _
  have answers : Satisfies OnlyAborts (fun _ => True) (c.canMerge env mState state) :=
    total_deref target fun _ _ => total_deref (alive state member).1 fun _ _ => trivial
  exact answers.bind fun answer _ => by cases answer <;> trivial

theorem mergeFirst_total (target : (c.heap mState).isSome) :
    ∀ {partners : List StateId}, Alive c partners →
      Satisfies OnlyAborts (fun _ => True) (mergeFirst env delete mState c partners)
  | [], _ => trivial
  | state :: partners, alive => by
    obtain ⟨exist, known⟩ := alive state (by simp)
    have merges : Satisfies OnlyAborts (fun outcome => ∀ merged, outcome = some merged →
        (merged.heap state).isSome ∧ merged.addedStates = c.addedStates)
        (c.merge env mState state) := by
      refine total_deref target fun found _ => total_deref exist fun source _ => ?_
      split
      case isFalse => simp
      case isTrue =>
        cases env.merge c.memory found.contents source.contents with
        | refused => simp
        | aborted => rfl
        | merged memory contents =>
          rintro merged ⟨⟩
          refine ⟨?_, rfl⟩
          by_cases same : state = mState
          · simp [same]
          · simp [Function.update_of_ne same, exist]
    refine merges.bind ?_
    intro outcome facts
    cases outcome with
    | none => exact mergeFirst_total target fun other member => alive other (by simp [member])
    | some merged =>
      obtain ⟨still, sameAdded⟩ := facts merged rfl
      have started : state ∉ (merged.record (.absorbed mState state)).addedStates := by
        rw [← sameAdded] at known
        exact known
      change Satisfies _ _ (terminateState delete (merged.record _) state)
      rw [terminateState, if_neg started]
      exact total_deref still fun _ _ => trivial

theorem mergeGroup_total {group : List StateId} :
    ∀ {c : Config σ τ} {erased : List StateId}, group.Nodup → Alive c group →
      Satisfies OnlyAborts (fun _ => True) (mergeGroup env delete c erased group) := by
  induction group with
  | nil => exact fun _ _ => trivial
  | cons mState rest ih =>
    intro c erased once alive
    obtain ⟨fresh, restOnce⟩ := List.nodup_cons.mp once
    have restAlive : Alive c rest := fun state member => alive state (by simp [member])
    have target := (alive mState (by simp)).1
    unfold mergeGroup
    split
    case isTrue => exact ih restOnce restAlive
    case isFalse =>
      have filtered : Alive c (rest.filter (· ∉ erased)) := fun state member => restAlive state (mem_of_mem_filter member)
      refine .bind ((mergePartners_total target filtered).and mergePartners_spec) ?_
      rintro partners ⟨_, sublist, able⟩
      split
      case isTrue => exact ih restOnce restAlive
      case isFalse =>
        have inRest : ∀ state ∈ partners, state ∈ rest := fun state member => mem_of_mem_filter (sublist.subset member)
        have partnersAlive : Alive c partners := fun state member => restAlive state (inRest state member)
        have decided : Satisfies OnlyAborts (fun _ => True) (c.mergeDecided env delete mState partners) := by
          refine total_deref target fun es _ => ?_
          split
          case isTrue => exact mergeFirst_total (c := c.cacheDecision env es.pc) target partnersAlive
          case isFalse => trivial
        refine .bind (decided.and (mergeDecided_spec able (fun member => fresh (inRest mState member))
          fun state member => (partnersAlive state member).2)) ?_
        rintro merged ⟨_, pairs, absorbs, _⟩
        exact ih restOnce (restAlive.absorbs absorbs)

theorem continueWaiting_total (pausedOnce : c.pausedStates.Nodup) (waitingOnce : waiting.Nodup)
    (paused : ∀ state ∈ waiting, state ∈ c.pausedStates) : Satisfies OnlyAborts (fun _ => True) (waiting.foldlM continueWaiting c) := by
  refine (Satisfies.foldlM (fun seen c' => c'.pausedStates = c.pausedStates.diff seen) rfl ?_).mono fun _ _ => trivial
  intro seen state remaining c' split samePaused
  have unseen : state ∉ seen := by
    rw [split] at waitingOnce
    exact fun old => (disjoint_of_nodup_append waitingOnce) old (by simp)
  have waits : state ∈ c.pausedStates.diff seen := pausedOnce.mem_sdiff_iff.mpr ⟨paused state (by simp [split]), unseen⟩
  simp [continueWaiting, continueState, require, waits, baseUpdate, record, samePaused, diff_append, bind, Except.bind, pure, Except.pure]

theorem releaseStates_total {id : HandlerId} {handler : MergeHandler} (scheduled : Scheduled c)
    (waits : Waits c) (present : c.handlers id = some handler) (live : ∀ state ∈ handler.waiting, (c.heap state).isSome) :
    Satisfies OnlyAborts (fun _ => True) (c.releaseStates env delete id) := by
  have waitingOnce : handler.waiting.Nodup := by
    rw [← waiting_eq present]
    exact waits.once id
  have paused : ∀ state ∈ handler.waiting, state ∈ c.pausedStates := by
    intro state member
    rw [waits.paused]
    exact ⟨id, by rwa [waiting_eq present]⟩
  simp only [releaseStates, Config.handler, present]
  change Satisfies _ _ (handler.waiting.foldlM continueWaiting c >>= _)
  refine .bind ((continueWaiting_total scheduled.pausedOnce waitingOnce
    paused).and (continueWaiting_spec scheduled.heldOnce scheduled.pausedOnce scheduled.apart)) ?_
  rintro _ ⟨_, held, rfl, _⟩
  have alive : Alive (c.resumed handler.waiting held) handler.waiting := by
    intro state member
    refine ⟨live state member, fun added => ?_⟩
    exact (scheduled.addedApart state added).2.2 (paused state member)
  have merges : Satisfies OnlyAborts (fun merged => merged.handlers = c.handlers)
      (handler.reachedCloseMerge.foldlM (fun c group => mergeGroup env delete c [] (toSet group.2))
        (c.resumed handler.waiting held)) := by
    refine (Satisfies.foldlM (fun _ merged => ∃ pairs, Absorbs env (c.resumed handler.waiting held) pairs merged) ⟨[], .refl⟩ ?_).mono ?_
    · rintro seen group remaining merged split ⟨pairs, absorbs⟩
      have groupAlive : Alive merged (toSet group.2) := by
        intro state member
        refine alive.absorbs absorbs state (mem_flatMap.mpr ⟨group, by simp [split], ?_⟩)
        exact mem_toSet.mp member
      refine ((mergeGroup_total (nodup_toSet _) groupAlive).and
        (mergeGroup_spec (nodup_toSet _) fun state member => (groupAlive state member).2)).mono ?_
      rintro c' ⟨_, more, continues, _⟩
      exact ⟨pairs ++ more, absorbs.trans continues⟩
    · rintro merged ⟨pairs, absorbs⟩
      rw [absorbs.absorbed.frame]
      rfl
  refine merges.bind ?_
  intro merged sameHandlers
  simp only [sameHandlers, present]
  trivial

theorem participants_roles (distinct : (participants pairs).Nodup) :
    ∀ one ∈ pairs, ∀ other ∈ pairs, one.1 ≠ other.2 ∧ (one.2 = other.2 → one = other) := by
  induction pairs with
  | nil => simp
  | cons pair rest ih =>
    change (pair.1 :: pair.2 :: participants rest).Nodup at distinct
    simp only [nodup_cons, mem_cons, not_or] at distinct
    obtain ⟨⟨apart, firstFresh⟩, secondFresh, restDistinct⟩ := distinct
    have fresh : ∀ other ∈ rest, pair.1 ≠ other.2 ∧ pair.2 ≠ other.2 ∧ other.1 ≠ pair.2 := by
      intro other member
      refine ⟨fun same => firstFresh (mem_participants.mpr ⟨other, member, .inr same⟩),
        fun same => secondFresh (mem_participants.mpr ⟨other, member, .inr same⟩),
        fun same => secondFresh (mem_participants.mpr ⟨other, member, .inl same.symm⟩)⟩
    intro one oneIn other otherIn
    rcases List.mem_cons.mp oneIn with rfl | oneLater
    · rcases List.mem_cons.mp otherIn with rfl | otherLater
      · exact ⟨apart, fun _ => rfl⟩
      · exact ⟨(fresh other otherLater).1, fun same => absurd same (fresh other otherLater).2.1⟩
    · rcases List.mem_cons.mp otherIn with rfl | otherLater
      · exact ⟨(fresh one oneLater).2.2, fun same => absurd same.symm (fresh one oneLater).2.1⟩
      · exact ih restDistinct one oneLater other otherLater

/-- No behaviour of the waiting states is lost or duplicated by a release that
terminated `terminated` and added `events` to the log. -/
structure Conserved (sound : SoundMerge env ι π) (c : Config σ τ) (id : HandlerId)
    (waiting terminated : List StateId) (events : List Event) (c' : Config σ τ) : Prop where
  behaviours : sound.representedBy c' (waiting.filter (· ∉ terminated)) =
    sound.representedBy c waiting
  within : ∀ state ∈ terminated, state ∈ waiting
  once : terminated.Nodup
  continued : ∀ state ∈ waiting, state ∉ terminated → events.count (.continued state) = 1
  absorbed : ∀ state ∈ terminated, ∃ target ∈ waiting, target ∉ terminated ∧
    .absorbed target state ∈ events ∧ ∀ other, .absorbed other state ∈ events → other = target
  emptied : ∃ handler, c'.handlers id = some handler ∧ handler.reachedCloseMerge = []

theorem Config.Released.conserved {sound : SoundMerge env ι π} {id : HandlerId}
    {handler : MergeHandler} (released : c.Released env id handler pairs c') (separated : sound.Separated c handler.waiting) :
    Conserved sound c id handler.waiting (pairs.map (·.2))
      (handler.waiting.map .continued ++ pairs.map fun pair => .absorbed pair.1 pair.2) c' := by
  have within := released.within
  have roles := participants_roles released.distinct
  have absorbedIff : ∀ target state, .absorbed target state ∈
      handler.waiting.map .continued ++ pairs.map (fun pair => Event.absorbed pair.1 pair.2) ↔
      (target, state) ∈ pairs := by
    intro target state
    simp [Prod.exists]
  refine ⟨?_, ?_, ?_, ?_, ?_, ?_⟩
  · exact (SoundMerge.absorbs_represents released.absorbs separated released.distinct within).1
  · intro state member
    obtain ⟨pair, merged, rfl⟩ := mem_map.mp member
    exact within pair.2 (mem_participants.mpr ⟨pair, merged, .inr rfl⟩)
  · refine .map_on (fun one oneIn other otherIn same =>
      (roles one oneIn other otherIn).2 same) ?_
    have apart := released.distinct
    rw [participants, nodup_flatMap] at apart
    exact apart.2.imp_of_mem fun {one other} _ _ disjoint same => by
      subst same
      exact disjoint (mem_cons_self) (mem_cons_self)
  · intro state member _
    rw [count_append, count_map_of_injective _ _ fun _ _ same => Event.continued.inj same,
      count_eq_one_of_mem released.waitingOnce member, count_eq_zero.mpr (by simp)]
  · intro state member
    obtain ⟨pair, merged, rfl⟩ := mem_map.mp member
    refine ⟨pair.1, within pair.1 (mem_participants.mpr ⟨pair, merged, .inl rfl⟩), ?_, (absorbedIff pair.1 pair.2).mpr merged, ?_⟩
    · intro terminated
      obtain ⟨other, otherIn, same⟩ := mem_map.mp terminated
      exact (roles pair merged other otherIn).1 same.symm
    · intro other absorbed
      exact congrArg Prod.fst ((roles (other, pair.2) ((absorbedIff other pair.2).mp absorbed) pair merged).2 rfl)
  · exact ⟨_, by rw [released.handlers, Function.update_self], rfl⟩

/-- Whatever waits at a handler, and whatever is decided to be merged, a release
conserves what the waiting states represent, and it returns unless `merge` aborts. -/
theorem releaseStates_conserves (sound : SoundMerge env ι π) {c : Config σ τ}
    {id : HandlerId} {handler : MergeHandler} (scheduled : Scheduled c) (waits : Waits c)
    (present : c.handlers id = some handler)
    (live : ∀ state ∈ handler.waiting, (c.heap state).isSome)
    (separated : sound.Separated c handler.waiting) :
    (∀ c', c.releaseStates env delete id = .ok c' → ∃ terminated events,
      c'.removedStates = c.removedStates ++ terminated ∧ c'.log = c.log ++ events ∧
        Conserved sound c id handler.waiting terminated events c') ∧
      ∀ fault, c.releaseStates env delete id = .error fault → fault = .mergeAborted := by
  constructor
  · intro c' returned
    obtain ⟨found, pairs, released⟩ := (releaseStates_spec scheduled.heldOnce
      scheduled.pausedOnce scheduled.apart fun state paused added =>
        (scheduled.addedApart state added).2.2 paused).elim returned
    obtain rfl : handler = found := Option.some.inj (present.symm.trans released.handlerState)
    refine ⟨_, _, ?_, ?_, released.conserved separated⟩
    · rw [released.frame]
    · rw [released.frame, append_assoc]
  · exact fun fault failed => (releaseStates_total scheduled waits present live).fault failed

/-- States whose contents are the pairs they represent, and a merge that appends
them. -/
def collecting : Env (List (Nat × Nat)) Unit :=
  { canMerge := fun _ _ _ => true
    merge := fun _ target source => .merged () (target ++ source)
    mergeOrNot := nestedBranches.mergeOrNot
    round := nestedBranches.round
    useIncompleteMerge := false
    parent := nestedBranches.parent
    terminator := nestedBranches.terminator
    firstNonPHI := nestedBranches.firstNonPHI
    successors := nestedBranches.successors
    findNearestCommonDominator := nestedBranches.findNearestCommonDominator
    isPotentiallyReachable := nestedBranches.isPotentiallyReachable }

def collectingSound : SoundMerge collecting Nat Nat where
  represents _ _ contents := {behaviour | behaviour ∈ contents}
  separate _ first second := ∀ one ∈ first, ∀ other ∈ second, one.1 ≠ other.1
  symm apart one oneIn other otherIn := (apart other otherIn one oneIn).symm
  merged _ result _ := by
    cases result
    ext behaviour
    simp
  kept _ _ _ _ _ := rfl
  mergedSeparate _ fromTarget fromSource result := by
    cases result
    intro one oneIn
    exact (List.mem_append.mp oneIn).elim (fromTarget one) (fromSource one)
  keptSeparate _ _ _ _ _ apart _ := apart

def beforeRegion : List (ExecutionState (List (Nat × Nat))) :=
  [{ pc := 20, prevPC := 20, steppedInstructions := 0, openMergeStack := [], contents := [] }]

/-- State 0 forks states 1 and 2 inside its region, and both wait. -/
def collected : List (Choice (List (Nat × Nat)) Unit) :=
  [⟨0, [.openMerge 0], false, []⟩,
    ⟨0, [.branch 0, .assign 0 21 [(0, 7)] (), .assign 1 21 [(1, 8)] ()], false, []⟩,
    ⟨0, [.branch 0, .assign 0 22 [(0, 7)] (), .assign 2 22 [(2, 9)] ()], false, []⟩,
    ⟨1, [.assign 1 40 [(1, 8)] (), .closeMerge 1 39], false, []⟩,
    ⟨1, [.assign 2 40 [(2, 9)] (), .closeMerge 2 39], false, []⟩]

theorem collected_conserved : ∃ c c' terminated events,
    (start beforeRegion ()).run collecting collected = .ok c ∧
    c.releaseStates collecting (destroy collecting) 0 = .ok c' ∧ c'.removedStates = [2] ∧
    c'.removedStates = c.removedStates ++ terminated ∧ c'.log = c.log ++ events ∧
    Conserved collectingSound c 0 [1, 2] terminated events c' := by
  obtain ⟨c, ran, checked⟩ := exists_of_checkRun collecting (start beforeRegion ()) collected
    (fun c => decide ((c.handlers 0).map (·.waiting) = some [1, 2] ∧
        (c.heap 1).map (·.contents) = some [(1, 8)] ∧
        (c.heap 2).map (·.contents) = some [(2, 9)]) &&
      match c.releaseStates collecting (destroy collecting) 0 with
      | .ok c' => decide (c'.removedStates = [2])
      | .error _ => false) (by decide)
  simp only [Bool.and_eq_true, decide_eq_true_eq, Option.map_eq_some_iff] at checked
  obtain ⟨⟨⟨handler, present, waiting⟩, ⟨first, firstPresent, firstContents⟩, second,
    secondPresent, secondContents⟩, removed⟩ := checked
  have reachable : Reachable collecting .always (start beforeRegion ()) c :=
    reachable_of_complies .start (by decide) ran
  have valid := reachable.valid (start_valid _ _)
  have live : ∀ state ∈ handler.waiting, (c.heap state).isSome := by
    simp [waiting, firstPresent, secondPresent]
  have separated : collectingSound.Separated c handler.waiting := by
    intro one oneIn other otherIn different es found esPresent foundPresent
    rw [waiting] at oneIn otherIn
    simp only [mem_cons, not_mem_nil, or_false] at oneIn otherIn
    have apart : collectingSound.separate c.memory first.contents second.contents := by
      rw [firstContents, secondContents]
      change ∀ one ∈ [(1, 8)], ∀ other ∈ [(2, 9)], one.1 ≠ other.1
      decide
    rcases oneIn with rfl | rfl <;> rcases otherIn with rfl | rfl
    · exact absurd rfl different
    · cases firstPresent.symm.trans esPresent
      cases secondPresent.symm.trans foundPresent
      exact apart
    · cases secondPresent.symm.trans esPresent
      cases firstPresent.symm.trans foundPresent
      exact collectingSound.symm apart
    · exact absurd rfl different
  cases returned : c.releaseStates collecting (destroy collecting) 0 with
  | error fault => simp [returned] at removed
  | ok c' =>
    simp only [returned, decide_eq_true_eq] at removed
    obtain ⟨terminated, events, removedAfter, log, conserved⟩ := (releaseStates_conserves
      collectingSound valid.scheduled valid.waits present live separated).1 c' returned
    rw [waiting] at conserved
    exact ⟨c, c', terminated, events, ran, returned, removed, removedAfter, log, conserved⟩

end NeuroMerge.Merging
