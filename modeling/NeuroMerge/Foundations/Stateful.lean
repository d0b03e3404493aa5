import Mathlib.Algebra.BigOperators.Group.List.Basic

/-!
# Programs with a state that succeed

A judgment on programs with a state that may raise faults: the program returns, and its
value and the state it leaves meet the postcondition. The rules follow the shape of `do`
blocks.
-/

namespace NeuroMerge

variable {σ ε α β γ : Type}

/-- From the state the program returns with the postcondition. -/
def Ensures (program : StateT σ (Except ε) α) (s : σ) (post : α → σ → Prop) : Prop :=
  ∃ value s', program.run s = .ok (value, s') ∧ post value s'

variable {first : StateT σ (Except ε) β} {next : β → StateT σ (Except ε) α} {items : List γ} {initial : α}

namespace Ensures

variable {program : StateT σ (Except ε) α} {s : σ} {post stronger : α → σ → Prop} {middle : β → σ → Prop}

theorem pure {value : α} (holds : post value s) : Ensures (pure value : StateT σ (Except ε) α) s post :=
  ⟨value, s, rfl, holds⟩

theorem modify {change : σ → σ} {post : Unit → σ → Prop} (holds : post () (change s)) :
    Ensures (modify change : StateT σ (Except ε) Unit) s post :=
  ⟨(), change s, rfl, holds⟩

theorem bind (before : Ensures first s middle) (after : ∀ value s', middle value s' → Ensures (next value) s' post) :
    Ensures (first >>= next) s post := by
  obtain ⟨value, s', ran, holds⟩ := before
  obtain ⟨final, s'', ranNext, holdsNext⟩ := after value s' holds
  refine ⟨final, s'', ?_, holdsNext⟩
  rw [StateT.run_bind, ran]
  exact ranNext

theorem mono (ensures : Ensures program s stronger)
    (implies : ∀ value s', stronger value s' → post value s') : Ensures program s post := by
  obtain ⟨value, s', ran, holds⟩ := ensures
  exact ⟨value, s', ran, implies value s' holds⟩

theorem step {value : β} {s' : σ} (ran : first.run s = .ok (value, s'))
    (after : Ensures (next value) s' post) : Ensures (first >>= next) s post := by
  obtain ⟨final, s'', ranNext, holds⟩ := after
  refine ⟨final, s'', ?_, holds⟩
  rw [StateT.run_bind, ran]
  exact ranNext

theorem read {next : σ → StateT σ (Except ε) α} (after : Ensures (next s) s post) : Ensures (MonadState.get >>= next) s post := by
  obtain ⟨value, s', ran, holds⟩ := after
  exact ⟨value, s', ran, holds⟩

/-- The loop rule: the invariant relates the items already processed to the accumulated
value and the state. -/
theorem foldlM {body : α → γ → StateT σ (Except ε) α} (invariant : List γ → α → σ → Prop) (start : invariant [] initial s)
    (next : ∀ seen item remaining value s', items = seen ++ item :: remaining →
      invariant seen value s' → Ensures (body value item) s' (invariant (seen ++ [item]))) :
    Ensures (items.foldlM body initial) s (invariant items) := by
  have loop : ∀ remaining seen value s', items = seen ++ remaining → invariant seen value s' →
      Ensures (remaining.foldlM body value) s' (invariant items) := by
    intro remaining
    induction remaining with
    | nil =>
      intro seen value s' split holds
      refine .pure ?_
      rwa [split, List.append_nil]
    | cons item remaining ih =>
      intro seen value s' split holds
      refine bind (next seen item remaining value s' split holds) ?_
      intro updated s'' preserved
      exact ih (seen ++ [item]) updated s'' (by simpa using split) preserved
  exact loop items [] initial s rfl start

theorem forM {body : γ → StateT σ (Except ε) Unit} (invariant : List γ → σ → Prop)
    (start : invariant [] s) (next : ∀ seen item remaining s', items = seen ++ item :: remaining →
      invariant seen s' → Ensures (body item) s' fun _ => invariant (seen ++ [item])) :
    Ensures (items.forM body) s fun _ => invariant items := by
  have loop : ∀ remaining seen s', items = seen ++ remaining → invariant seen s' →
      Ensures (remaining.forM body) s' fun _ => invariant items := by
    intro remaining
    induction remaining with
    | nil =>
      intro seen s' split holds
      refine .pure ?_
      rwa [split, List.append_nil]
    | cons item remaining ih =>
      intro seen s' split holds
      refine bind (next seen item remaining s' split holds) ?_
      intro _ s'' preserved
      exact ih (seen ++ [item]) s'' (by simpa using split) preserved
  exact loop items [] s rfl start

section Accounts

variable {M : Type} [AddCommMonoid M]

section

variable (contribution : γ × Nat → M) (account : Nat → M → α → σ → Prop) (total : M) (start : account 0 total initial s)
include contribution account total start

theorem foldlM_zipIdx_sum {body : α → γ × Nat → StateT σ (Except ε) α}
    (next : ∀ item index value s' sum, items[index]? = some item → account index sum value s' →
      Ensures (body value (item, index)) s'
        (account (index + 1) (sum + contribution (item, index)))) :
    Ensures (items.zipIdx.foldlM body initial) s (account items.length (total + (items.zipIdx.map contribution).sum)) := by
  have loop : Ensures (items.zipIdx.foldlM body initial) s (account items.zipIdx.length
      (total + (items.zipIdx.map contribution).sum)) := by
    refine foldlM (fun seen => account seen.length (total + (seen.map contribution).sum)) ?_ ?_
    · simpa using start
    intro seen entry remaining value s' split holds
    have found : items.zipIdx[seen.length]? = some entry := by simp [split]
    rw [List.getElem?_zipIdx, Nat.zero_add] at found
    obtain ⟨item, isItem, rfl⟩ := Option.map_eq_some_iff.mp found
    have stepped := next item seen.length value s' _ isItem holds
    simpa [add_assoc] using stepped
  rwa [List.length_zipIdx] at loop

theorem foldlM_sum {body : α → γ → StateT σ (Except ε) α}
    (next : ∀ item index value s' sum, items[index]? = some item → account index sum value s' →
      Ensures (body value item) s' (account (index + 1) (sum + contribution (item, index)))) :
    Ensures (items.foldlM body initial) s (account items.length (total + (items.zipIdx.map contribution).sum)) := by
  have same : items.foldlM body initial = items.zipIdx.foldlM (fun value entry => body value entry.1) initial := by
    rw [← List.foldlM_map (g := body) (f := Prod.fst), List.zipIdx_map_fst]
  rw [same]
  exact foldlM_zipIdx_sum contribution account total start next

end

theorem forM_sum {body : γ → StateT σ (Except ε) Unit} (contribution : γ → M)
    (account : M → σ → Prop) (total : M) (start : account total s)
    (next : ∀ item ∈ items, ∀ s' sum, account sum s' →
      Ensures (body item) s' fun _ => account (sum + contribution item)) :
    Ensures (items.forM body) s fun _ => account (total + (items.map contribution).sum) := by
  refine forM (fun seen => account (total + (seen.map contribution).sum)) ?_ ?_
  · simpa using start
  · intro seen item remaining s' split holds
    have stepped := next item (by simp [split]) s' _ holds
    simpa [add_assoc] using stepped

end Accounts

end Ensures

/-- The program comes to run the rest, in a state with the postcondition. -/
def Continues (program : StateT σ (Except ε) α) (s : σ) (rest : StateT σ (Except ε) α)
    (post : σ → Prop) : Prop :=
  ∃ s', post s' ∧ program.run s = rest.run s'

namespace Continues

variable {rest : StateT σ (Except ε) α} {s : σ} {post : σ → Prop} {middle : β → σ → Prop}

theorem here (holds : post s) : Continues rest s rest post := ⟨s, holds, rfl⟩

theorem bind (before : Ensures first s middle) (after : ∀ value s', middle value s' → Continues (next value) s' rest post) :
    Continues (first >>= next) s rest post := by
  obtain ⟨value, s', ran, holds⟩ := before
  obtain ⟨s'', holdsRest, same⟩ := after value s' holds
  refine ⟨s'', holdsRest, ?_⟩
  rw [StateT.run_bind, ran, ← same]
  rfl

theorem step {value : β} {s' : σ} (ran : first.run s = .ok (value, s'))
    (after : Continues (next value) s' rest post) : Continues (first >>= next) s rest post := by
  have returns : Ensures first s fun value' s'' => value' = value ∧ s'' = s' := ⟨value, s', ran, rfl, rfl⟩
  refine bind returns ?_
  rintro _ _ ⟨rfl, rfl⟩
  exact after

theorem read {next : σ → StateT σ (Except ε) α} (after : Continues (next s) s rest post) :
    Continues (MonadState.get >>= next) s rest post :=
  step rfl after

theorem ensures {program : StateT σ (Except ε) α} {final : α → σ → Prop} (continues : Continues program s rest post)
    (after : ∀ s', post s' → Ensures rest s' final) : Ensures program s final := by
  obtain ⟨s', holds, same⟩ := continues
  obtain ⟨value, s'', ran, holdsFinal⟩ := after s' holds
  exact ⟨value, s'', same.trans ran, holdsFinal⟩

end Continues

end NeuroMerge
