import NeuroMerge.Foundations.Fuel
import NeuroMerge.Merging.Conservation

/-!
# How many states a release merges

Where every two of the states that wait at a close point can be merged and are
decided to be, the first one takes all others out of the set, but only one of them
is merged into it before the loop breaks. All others are continued unmerged.
-/

namespace NeuroMerge.Merging

open List Config SoundMerge

variable {σ τ : Type} {env : Env σ τ} {delete : Config σ τ → StateId → Except Fault (Config σ τ)}

variable {group : List StateId}

namespace Config

variable {c : Config σ τ} {mState state : StateId} {target source : ExecutionState σ} {memory : τ} {contents : σ}

theorem CanAbsorb.canMerge (able : CanAbsorb env c mState state target source memory contents) :
    c.canMerge env mState state = .ok true := by
  rw [Config.canMerge, deref, able.targetState, deref, able.sourceState]
  simp only [ok_bind, able.samePC, able.mergeable]
  rfl

theorem CanAbsorb.cacheDecision (inst : KInst) (able : CanAbsorb env c mState state target source memory contents) :
    CanAbsorb env (c.cacheDecision env inst) mState state target source memory contents :=
  ⟨able.targetState, able.sourceState, able.samePC, able.mergeable,
    (decision_cacheDecision c inst target.pc).trans able.decided, able.merged⟩

theorem mergePartners_eq (able : ∀ other ∈ group, c.canMerge env mState other = .ok true) :
    c.mergePartners env mState group = .ok group := by
  have loop : ∀ (rest partners : List StateId), (∀ other ∈ rest, c.canMerge env mState other = .ok true) →
        rest.foldlM (fun partners state => do
          if ← c.canMerge env mState state then pure (partners ++ [state]) else pure partners)
          partners = .ok (ε := Fault) (partners ++ rest) := by
    intro rest
    induction rest with
    | nil =>
      intro partners _
      rw [append_nil]
      rfl
    | cons other rest ih =>
      intro partners able
      rw [foldlM_cons, able other (mem_cons_self)]
      refine (ih (partners ++ [other]) fun later member =>
        able later (mem_cons_of_mem other member)).trans ?_
      rw [append_assoc]
      rfl
  exact loop group [] able

theorem mergeFirst_eq (able : CanAbsorb env c mState state target source memory contents)
    (different : mState ≠ state) (started : state ∉ c.addedStates) (rest : List StateId) :
    mergeFirst env delete mState c (state :: rest) = .ok (c.absorb mState state target source memory contents) := by
  have merges : c.merge env mState state = .ok (some ({ c with memory }.setState mState (some { target with contents }))) := by
    rw [merge, deref, able.targetState, deref, able.sourceState]
    simp only [ok_bind, if_pos able.samePC, able.merged]
    rfl
  rw [mergeFirst, merges, ok_bind]
  change terminateState delete (record _ _) state = _
  rw [terminateState, if_neg (by exact started), deref]
  simp only [record, setState_heap, Function.update_of_ne different.symm, able.sourceState]
  rfl

theorem mergeGroup_erased {erased : List StateId} (gone : ∀ other ∈ group, other ∈ erased) :
    mergeGroup env delete c erased group = .ok c := by
  induction group with
  | nil => rfl
  | cons other rest ih =>
    rw [mergeGroup, if_pos (gone other (mem_cons_self))]
    exact ih fun later member => gone later (mem_cons_of_mem other member)

theorem mergeGroup_eq {rest : List StateId} (partners : ∀ other ∈ state :: rest, c.canMerge env mState other = .ok true)
    (able : CanAbsorb env c mState state target source memory contents) (different : mState ≠ state) (started : state ∉ c.addedStates) :
    mergeGroup env delete c [] (mState :: state :: rest) =
      .ok ((c.cacheDecision env target.pc).absorb mState state target source memory contents) := by
  have decided : c.mergeDecided env delete mState (state :: rest) =
      .ok ((c.cacheDecision env target.pc).absorb mState state target source memory contents) := by
    rw [mergeDecided, deref, able.targetState, ok_bind, if_pos able.decided]
    exact mergeFirst_eq (able.cacheDecision target.pc) different started rest
  have others : (state :: rest).filter (· ∉ ([] : List StateId)) = state :: rest :=
    filter_eq_self.mpr fun other _ => decide_eq_true not_mem_nil
  rw [mergeGroup, if_neg not_mem_nil, others, mergePartners_eq partners, ok_bind, if_neg (cons_ne_nil state rest), decided, ok_bind]
  exact mergeGroup_erased fun other member => member

end Config

/-- At every moment of a release of `waiting`, any two states of the group that are
left can be merged and are decided to be. -/
def Agreeable (env : Env σ τ) (c : Config σ τ) (waiting group : List StateId) : Prop :=
  ∀ held pairs c', Absorbs env (c.resumed waiting held) pairs c' →
    ∀ mState ∈ SoundMerge.survivors group pairs, ∀ state ∈ SoundMerge.survivors group pairs,
      mState ≠ state → ∃ target source memory contents,
        CanAbsorb env c' mState state target source memory contents

theorem perm_toSet {states : List StateId} (once : states.Nodup) : (toSet states).Perm states := by
  rw [toSet, once.dedup]
  exact perm_insertionSort _ states

variable {c' : Config σ τ} {waiting : List StateId} {pairs : List (StateId × StateId)}

variable (delete) in
theorem mergeGroup_agreeable {c : Config σ τ} {held : List StateId} (once : group.Nodup)
    (waits : group ≠ []) (agrees : Agreeable env c waiting group) (absorbs : Absorbs env (c.resumed waiting held) pairs c')
    (untouched : ∀ state ∈ group, state ∉ pairs.map (·.2)) (started : ∀ state ∈ group, state ∉ c'.addedStates) :
    ∃ merged more, mergeGroup env delete c' [] (toSet group) = .ok merged ∧
      Absorbs env c' more merged ∧ (∀ state ∈ more.map (·.2), state ∈ group) ∧
      (survivors group more).length = max 1 (group.length - 1) := by
  have left {state : StateId} (member : state ∈ toSet group) :
      state ∈ survivors group pairs :=
    mem_survivors.mpr ⟨mem_toSet.mp member, untouched state (mem_toSet.mp member)⟩
  have onceSet := nodup_toSet group
  have members : (toSet group).length = group.length := (perm_toSet once).length_eq
  cases order : toSet group with
  | nil =>
    rw [order] at members
    exact absurd (length_eq_zero_iff.mp members.symm) waits
  | cons mState others =>
    rw [order] at members onceSet left
    cases others with
    | nil =>
      refine ⟨c', [], rfl, .refl, (by simp), ?_⟩
      rw [survivors, filter_eq_self.mpr fun _ _ => decide_eq_true (by simp), ← members]
      rfl
    | cons state rest =>
      have different : ∀ other ∈ state :: rest, mState ≠ other := by
        intro other member same
        exact (nodup_cons.mp onceSet).1 (same ▸ member)
      have able (other) (member : other ∈ state :: rest) :=
        agrees held pairs c' absorbs mState (left (mem_cons_self)) other (left (mem_cons_of_mem mState member)) (different other member)
      have inGroup : state ∈ group := mem_toSet.mp (order ▸ by simp)
      obtain ⟨target, source, memory, contents, first⟩ := able state (mem_cons_self)
      refine ⟨_, [(mState, state)], mergeGroup_eq ?_ first (different state (by simp)) (started state inGroup), ?_, ?_, ?_⟩
      · intro other member
        obtain ⟨target, source, memory, contents, able⟩ := able other member
        exact able.canMerge
      · exact .merge (.cache target.pc .refl) (different state (by simp)) (first.cacheDecision target.pc)
      · intro other member
        rwa [mem_singleton.mp member]
      · have merged : survivors group [(mState, state)] = group.erase state := by
          rw [survivors, once.erase_eq_filter]
          refine filter_congr fun other _ => ?_
          by_cases same : other = state <;> simp [same]
        rw [merged, length_erase_of_mem inGroup, ← members]
        simp

theorem survivors_congr {more : List (StateId × StateId)}
    (same : ∀ state ∈ group, state ∈ pairs.map (·.2) ↔ state ∈ more.map (·.2)) : survivors group pairs = survivors group more :=
  filter_congr fun state member => decide_eq_decide.mpr (not_congr (same state member))

variable (delete) in
/-- All groups of a handler are merged, and of one of them, in which all states can be
merged, all but one state is left. -/
theorem mergeGroups_agreeable {c : Config σ τ} {held : List StateId}
    {seen remaining : List (KInst × List StateId)} {group : KInst × List StateId}
    (once : ((seen ++ group :: remaining).flatMap (·.2)).Nodup)
    (started : ∀ state ∈ (seen ++ group :: remaining).flatMap (·.2), state ∉ c.addedStates)
    (waits : group.2 ≠ []) (agrees : Agreeable env c waiting group.2) :
    Satisfies Tolerated
      (fun c' => ∃ pairs, Absorbs env (c.resumed waiting held) pairs c' ∧
        (survivors group.2 pairs).length = max 1 (group.2.length - 1))
      ((seen ++ group :: remaining).foldlM (fun c group => mergeGroup env delete c [] (toSet group.2)) (c.resumed waiting held)) := by
  simp only [flatMap_append, flatMap_cons] at once started
  obtain ⟨onceSeen, onceRest, apart⟩ := nodup_append'.mp once
  obtain ⟨onceGroup, onceRemaining, apartRemaining⟩ := nodup_append'.mp onceRest
  have elsewhere {groups : List (KInst × List StateId)} {pairs : List (StateId × StateId)}
      (grouped : Grouped groups pairs) (outside : ∀ state ∈ group.2, state ∉ groups.flatMap (·.2)) :
      ∀ state ∈ group.2, state ∉ pairs.map (·.2) := by
    intro state member merged
    obtain ⟨pair, isPair, rfl⟩ := mem_map.mp merged
    obtain ⟨other, isGroup, -, inside⟩ := grouped pair isPair
    exact outside pair.2 member (mem_flatMap.mpr ⟨other, isGroup, inside⟩)
  rw [foldlM_append]
  refine .bind (mergeGroups_spec (c := c.resumed waiting held) onceSeen fun state member => started state (mem_append_left _ member)) ?_
  rintro middle ⟨before, absorbs, -, groupedSeen⟩
  have notBefore := elsewhere groupedSeen fun state member inSeen =>
    apart inSeen (mem_append_left _ member)
  have sameAdded : middle.addedStates = c.addedStates := absorbs.addedStates
  obtain ⟨merged, more, merges, continues, inGroup, count⟩ :=
    mergeGroup_agreeable delete onceGroup waits agrees absorbs notBefore
      fun state member => sameAdded ▸ started state (mem_append_right _ (mem_append_left _ member))
  rw [foldlM_cons, merges, ok_bind]
  refine (mergeGroups_spec (c := merged) onceRemaining fun state member => ?_).mono ?_
  · rw [continues.addedStates, sameAdded]
    exact started state (mem_append_right _ (mem_append_right _ member))
  · rintro c' ⟨after, finishes, -, groupedRemaining⟩
    have notAfter := elsewhere groupedRemaining fun state member inRemaining =>
      apartRemaining member inRemaining
    refine ⟨before ++ more ++ after, (absorbs.trans continues).trans finishes, ?_⟩
    rw [← count]
    refine congrArg List.length (survivors_congr fun state member => ?_)
    rw [map_append, map_append, mem_append, mem_append]
    tauto

theorem releaseStates_agreeable {c : Config σ τ} {id : HandlerId} {handler : MergeHandler}
    {group : KInst × List StateId} (scheduled : Scheduled c)
    (present : c.handlers id = some handler) (isGroup : group ∈ handler.reachedCloseMerge)
    (waits : group.2 ≠ []) (agrees : Agreeable env c handler.waiting group.2) (returned : c.releaseStates env delete id = .ok c') :
    ∃ pairs : List (StateId × StateId), c'.removedStates = c.removedStates ++ pairs.map (·.2) ∧
      (survivors group.2 pairs).length = max 1 (group.2.length - 1) := by
  obtain ⟨seen, remaining, split⟩ := append_of_mem isGroup
  suffices released : Satisfies Tolerated (fun c' : Config σ τ => ∃ pairs,
      c'.removedStates = c.removedStates ++ pairs.map (·.2) ∧ (survivors group.2 pairs).length = max 1 (group.2.length - 1))
      (c.releaseStates env delete id) from released.elim returned
  unfold releaseStates
  rw [Config.handler, present]
  change Satisfies _ _ (handler.waiting.foldlM continueWaiting c >>= _)
  refine .bind (continueWaiting_spec scheduled.heldOnce scheduled.pausedOnce scheduled.apart) ?_
  rintro _ ⟨held, rfl, -, waitingOnce, -, waitingPaused⟩
  rw [MergeHandler.waiting, split] at waitingOnce
  have started (state) (member : state ∈ handler.waiting) : state ∉ c.addedStates :=
    fun added => (scheduled.addedApart state added).2.2 (waitingPaused state member)
  rw [split]
  refine .bind (mergeGroups_agreeable delete waitingOnce ?_ waits agrees) ?_
  · intro state member
    exact started state (by rwa [MergeHandler.waiting, split])
  · rintro merged ⟨pairs, absorbs, count⟩
    refine satisfies_handler fun found _ => ⟨pairs, ?_, count⟩
    rw [absorbs.absorbed.frame]
    rfl

/-- After a release exactly one state of a group in which all can be merged is left, if
and only if at most two states waited. -/
theorem releaseStates_exhausts_iff {c : Config σ τ} {id : HandlerId} {handler : MergeHandler}
    (scheduled : Scheduled c) (waits : Waits c) (present : c.handlers id = some handler)
    (live : ∀ state ∈ handler.waiting, (c.heap state).isSome) :
    (∀ fault, c.releaseStates env delete id = .error fault → fault = .mergeAborted) ∧
      ∀ c', c.releaseStates env delete id = .ok c' → ∃ terminated,
        c'.removedStates = c.removedStates ++ terminated ∧
          ∀ group ∈ handler.reachedCloseMerge, group.2 ≠ [] →
            Agreeable env c handler.waiting group.2 →
              ((group.2.filter (· ∉ terminated)).length = 1 ↔ group.2.length ≤ 2) := by
  refine ⟨fun fault failed => (releaseStates_total scheduled waits present live).fault failed, ?_⟩
  intro c' returned
  obtain ⟨found, pairs, released⟩ := (releaseStates_spec scheduled.heldOnce
    scheduled.pausedOnce scheduled.apart fun state paused added =>
      (scheduled.addedApart state added).2.2 paused).elim returned
  refine ⟨pairs.map (·.2), by rw [released.frame], ?_⟩
  intro group isGroup several agrees
  obtain ⟨same, removed, count⟩ :=
    releaseStates_agreeable scheduled present isGroup several agrees returned
  rw [released.frame] at removed
  rw [append_cancel_left removed]
  change (survivors group.2 same).length = 1 ↔ _
  omega

theorem absorbs_pc {c : Config σ τ} (absorbs : Absorbs env c pairs c') {state : StateId}
    (left : state ∉ pairs.map (·.2)) : (c'.heap state).map (·.pc) = (c.heap state).map (·.pc) := by
  induction absorbs with
  | refl => rfl
  | cache inst _ ih => exact ih left
  | @merge pairs c' mState source target _ memory contents before different able ih =>
    rw [map_append, mem_append, not_or] at left
    rw [← ih left.1]
    have notSource : state ≠ source := fun same => left.2 (by simp [same])
    change Option.map _ (Function.update (Function.update c'.heap mState _) source _ state) = _
    rw [Function.update_of_ne notSource]
    have samePC : ({ target with contents } : ExecutionState σ).pc = target.pc := rfl
    exact map_update_heap able.targetState samePC state

theorem agreeable_of_always {c : Config σ τ} {inst : KInst} (canMerge : ∀ memory first second, env.canMerge memory first second = true)
    (merges : ∀ memory first second, ∃ memory' contents,
      env.merge memory first second = .merged memory' contents) (decided : c.decision env inst = true)
    (here : ∀ state ∈ group, (c.heap state).map (·.pc) = some inst) : Agreeable env c waiting group := by
  intro held pairs c' absorbs mState first state second _
  have found {state : StateId} (member : state ∈ survivors group pairs) : ∃ es, c'.heap state = some es ∧ es.pc = inst := by
    obtain ⟨inGroup, left⟩ := mem_survivors.mp member
    exact Option.map_eq_some_iff.mp ((absorbs_pc absorbs left).trans (here state inGroup))
  obtain ⟨target, targetState, targetPC⟩ := found first
  obtain ⟨source, sourceState, sourcePC⟩ := found second
  obtain ⟨memory, contents, merged⟩ := merges c'.memory target.contents source.contents
  refine ⟨target, source, memory, contents, targetState, sourceState, targetPC.trans sourcePC.symm, canMerge _ _ _, ?_, merged⟩
  rw [targetPC, absorbs.absorbed.decision inst]
  exact decided

def crowded : List (Choice (List (Nat × Nat)) Unit) :=
  [⟨0, [.openMerge 0], false, []⟩,
    ⟨0, [.branch 0, .assign 0 21 [(0, 7)] (), .assign 1 21 [(1, 8)] ()], false, []⟩,
    ⟨0, [.branch 0, .assign 0 22 [(0, 7)] (), .assign 2 22 [(2, 9)] ()], false, []⟩,
    ⟨0, [.branch 0, .assign 0 23 [(0, 7)] (), .assign 3 23 [(3, 6)] ()], false, []⟩,
    ⟨1, [.assign 1 40 [(1, 8)] (), .closeMerge 1 39], false, []⟩,
    ⟨1, [.assign 2 40 [(2, 9)] (), .closeMerge 2 39], false, []⟩,
    ⟨1, [.assign 3 40 [(3, 6)] (), .closeMerge 3 39], false, []⟩]

theorem crowded_checked : ∃ c handler c',
    (start beforeRegion ()).run collecting crowded = .ok c ∧ c.handlers 0 = some handler ∧
      handler.reachedCloseMerge = [(39, [1, 2, 3])] ∧
      Agreeable collecting c handler.waiting [1, 2, 3] ∧
      c.releaseStates collecting (destroy collecting) 0 = .ok c' ∧ c.removedStates = [] ∧ c'.removedStates = [2] := by
  obtain ⟨c, ran, checked⟩ := exists_of_checkRun collecting (start beforeRegion ()) crowded
    (fun c => decide ((c.handlers 0).map (·.reachedCloseMerge) = some [(39, [1, 2, 3])] ∧
        c.removedStates = [] ∧ c.decision collecting 40 = true) &&
      ([1, 2, 3].all fun state => decide ((c.heap state).map (·.pc) = some 40)) &&
      match c.releaseStates collecting (destroy collecting) 0 with
      | .ok c' => decide (c'.removedStates = [2])
      | .error _ => false) (by decide)
  simp only [Bool.and_eq_true, decide_eq_true_eq, all_eq_true] at checked
  obtain ⟨⟨⟨groups, removed, decided⟩, here⟩, removedAfter⟩ := checked
  obtain ⟨handler, present, groups⟩ := Option.map_eq_some_iff.mp groups
  cases returned : c.releaseStates collecting (destroy collecting) 0 with
  | error fault => simp [returned] at removedAfter
  | ok c' =>
    simp only [returned, decide_eq_true_eq] at removedAfter
    refine ⟨c, handler, c', ran, present, groups, ?_, returned, removed, removedAfter⟩
    exact agreeable_of_always (fun _ _ _ => rfl) (fun _ _ _ => ⟨_, _, rfl⟩) decided here

theorem crowded_exhausts_iff : ∃ c c' terminated,
    (start beforeRegion ()).run collecting crowded = .ok c ∧
      c.releaseStates collecting (destroy collecting) 0 = .ok c' ∧
      c'.removedStates = c.removedStates ++ terminated ∧
      (([1, 2, 3].filter (· ∉ terminated)).length = 1 ↔ [1, 2, 3].length ≤ 2) := by
  obtain ⟨c, handler, c', ran, present, groups, agrees, returned, -, -⟩ := crowded_checked
  have reachable : Reachable collecting .always (start beforeRegion ()) c :=
    reachable_of_complies .start (by decide) ran
  have valid := reachable.valid (start_valid _ _)
  have live : ∀ state ∈ handler.waiting, (c.heap state).isSome := by
    intro state member
    have left : state ∈ survivors [1, 2, 3] [] :=
      mem_survivors.mpr ⟨by simpa [MergeHandler.waiting, groups] using member, (by simp)⟩
    have other : ∃ other ∈ survivors [1, 2, 3] [], state ≠ other := by
      by_cases first : state = 1
      · exact ⟨2, by decide, by rw [first]; decide⟩
      · exact ⟨1, by decide, first⟩
    obtain ⟨other, otherLeft, different⟩ := other
    obtain ⟨target, source, memory, contents, able⟩ :=
      agrees c.baseSearcher [] _ .refl state left other otherLeft different
    exact Option.isSome_iff_exists.mpr ⟨target, able.targetState⟩
  obtain ⟨terminated, removed, exhausts⟩ :=
    (releaseStates_exhausts_iff valid.scheduled valid.waits present live).2 c' returned
  exact ⟨c, c', terminated, ran, returned, removed,
    exhausts (39, [1, 2, 3]) (by simp [groups]) (by simp) agrees⟩

theorem crowded_notExhausted : ∃ c handler c',
    (start beforeRegion ()).run collecting crowded = .ok c ∧ c.handlers 0 = some handler ∧
      handler.reachedCloseMerge = [(39, [1, 2, 3])] ∧
      Agreeable collecting c handler.waiting [1, 2, 3] ∧
      c.releaseStates collecting (destroy collecting) 0 = .ok c' ∧
      ([1, 2, 3].filter (· ∉ c'.removedStates)).length = 2 := by
  obtain ⟨c, handler, c', ran, present, groups, agrees, returned, -, removed⟩ := crowded_checked
  refine ⟨c, handler, c', ran, present, groups, agrees, returned, ?_⟩
  rw [removed]
  decide

end NeuroMerge.Merging
