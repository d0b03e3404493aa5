import NeuroMerge.Foundations.Outcome

/-!
# Termination of computations with fuel

A recursive function without an obvious measure takes fuel and raises
`exhausted` without it. It terminates on an input when enough fuel makes no
difference any more.
-/

namespace NeuroMerge

@[simp] theorem ok_bind {ε α β : Type} (value : α) (next : α → Except ε β) : (Except.ok value >>= next) = next value := rfl

/-- From some fuel on the computation ends in one way, and not for want of
fuel. -/
def Halts {ε α : Type} (exhausted : ε) (family : Nat → Except ε α) : Prop :=
  ∃ bound result, result ≠ .error exhausted ∧ ∀ fuel, bound ≤ fuel → family fuel = result

def Returns {ε α : Type} (family : Nat → Except ε α) (value : α) : Prop :=
  ∃ bound, ∀ fuel, bound ≤ fuel → family fuel = .ok value

namespace Halts

variable {ε α β : Type} {exhausted : ε} {family other : Nat → Except ε α}

theorem ok (value : α) : Halts exhausted (fun _ => .ok value) :=
  ⟨0, .ok value, nofun, fun _ _ => rfl⟩

theorem pure (value : α) : Halts exhausted (fun _ => Pure.pure value) := ok value

theorem error (fault : ε) (different : fault ≠ exhausted) : Halts exhausted (fun _ => (.error fault : Except ε α)) :=
  ⟨0, .error fault, fun same => different (Except.error.inj same), fun _ _ => rfl⟩

theorem congr (same : ∀ fuel, family fuel = other fuel) (halts : Halts exhausted other) : Halts exhausted family := by
  obtain rfl : family = other := funext same
  exact halts

theorem succ (halts : Halts exhausted fun fuel => family (fuel + 1)) : Halts exhausted family := by
  obtain ⟨bound, result, ends, settled⟩ := halts
  refine ⟨bound + 1, result, ends, ?_⟩
  intro fuel enough
  cases fuel with
  | zero => omega
  | succ fuel => exact settled fuel (by omega)

theorem bind {first : Nat → Except ε β} {next : Nat → β → Except ε α} (before : Halts exhausted first)
    (after : ∀ value, Returns first value → Halts exhausted fun fuel => next fuel value) :
    Halts exhausted fun fuel => first fuel >>= next fuel := by
  obtain ⟨bound, result, ends, settled⟩ := before
  cases result with
  | error fault =>
    refine ⟨bound, .error fault, fun same => ends (by cases same; rfl), ?_⟩
    intro fuel enough
    dsimp only
    rw [settled fuel enough]
    rfl
  | ok value =>
    obtain ⟨later, final, finalEnds, finalSettled⟩ := after value ⟨bound, settled⟩
    refine ⟨max bound later, final, finalEnds, ?_⟩
    intro fuel enough
    dsimp only
    rw [settled fuel (by omega)]
    exact finalSettled fuel (by omega)

theorem map {first : Nat → Except ε β} {apply : β → α} (before : Halts exhausted first) :
    Halts exhausted fun fuel => apply <$> first fuel := by
  exact before.bind fun value _ => pure (apply value)

theorem ite {condition : Prop} [Decidable condition] (holds : condition → Halts exhausted family)
    (fails : ¬ condition → Halts exhausted other) : Halts exhausted fun fuel => if condition then family fuel else other fuel := by
  by_cases decided : condition
  · simpa [decided] using holds decided
  · simpa [decided] using fails decided

theorem mapM {γ : Type} {items : List γ} {apply : Nat → γ → Except ε α}
    (each : ∀ item ∈ items, Halts exhausted fun fuel => apply fuel item) : Halts exhausted fun fuel => items.mapM (apply fuel) := by
  induction items with
  | nil => exact congr (fun _ => List.mapM_nil) (pure [])
  | cons item items ih =>
    apply congr fun _ => List.mapM_cons
    apply bind (each item (by simp))
    intro result _
    apply bind (ih fun other member => each other (by simp [member]))
    intro results _
    exact pure (result :: results)

theorem foldlM {γ : Type} {items : List γ} {body : Nat → α → γ → Except ε α}
    (invariant : List γ → α → Prop) {initial : α} (start : invariant [] initial)
    (step : ∀ seen item remaining state, items = seen ++ item :: remaining →
      invariant seen state → Halts exhausted fun fuel => body fuel state item)
    (preserved : ∀ seen item remaining state updated, items = seen ++ item :: remaining →
      invariant seen state → Returns (fun fuel => body fuel state item) updated →
      invariant (seen ++ [item]) updated) : Halts exhausted fun fuel => items.foldlM (body fuel) initial := by
  have loop : ∀ remaining seen state, items = seen ++ remaining → invariant seen state →
      Halts exhausted fun fuel => remaining.foldlM (body fuel) state := by
    intro remaining
    induction remaining with
    | nil =>
      intro seen state _ _
      exact pure state
    | cons item remaining ih =>
      intro seen state split valid
      apply bind (step seen item remaining state split valid)
      intro updated returned
      exact ih (seen ++ [item]) updated (by simpa using split) (preserved seen item remaining state updated split valid returned)
  exact loop items [] initial rfl start

theorem foldlM_const {γ : Type} {items : List γ} {body : Nat → α → γ → Except ε α} {initial : α}
    (each : ∀ state item, Halts exhausted fun fuel => body fuel state item) :
    Halts exhausted fun fuel => items.foldlM (body fuel) initial :=
  foldlM (fun _ _ => True) trivial (fun _ item _ state _ _ => each state item) fun _ _ _ _ _ _ _ _ => trivial

theorem returns {post : α → Prop} (halts : Halts exhausted family)
    (satisfies : ∀ fuel, Satisfies (· = exhausted) post (family fuel)) : ∃ value, post value ∧ Returns family value := by
  obtain ⟨bound, result, ends, settled⟩ := halts
  have final := satisfies bound
  rw [settled bound (Nat.le_refl bound)] at final
  cases result with
  | error fault => exact absurd (congrArg Except.error final) ends
  | ok value => exact ⟨value, final, bound, settled⟩

end Halts

namespace Returns

variable {ε α β : Type} {family : Nat → Except ε α} {value : α}

theorem of_eq (returned : ∀ fuel, family fuel = .ok value) : Returns family value :=
  ⟨0, fun fuel _ => returned fuel⟩

theorem congr {other : Nat → Except ε α} (same : ∀ fuel, family fuel = other fuel)
    (returns : Returns other value) : Returns family value := by
  obtain rfl : family = other := funext same
  exact returns

theorem succ (returns : Returns (fun fuel => family (fuel + 1)) value) : Returns family value := by
  obtain ⟨bound, settled⟩ := returns
  refine ⟨bound + 1, ?_⟩
  intro fuel enough
  cases fuel with
  | zero => omega
  | succ fuel => exact settled fuel (by omega)

theorem succ_iff : Returns (fun fuel => family (fuel + 1)) value ↔ Returns family value := by
  constructor
  · exact succ
  · rintro ⟨bound, settled⟩
    exact ⟨bound, fun fuel enough => settled (fuel + 1) (by omega)⟩

theorem bind {first : Nat → Except ε β} {next : Nat → β → Except ε α} {middle : β}
    (before : Returns first middle) (after : Returns (fun fuel => next fuel middle) value) :
    Returns (fun fuel => first fuel >>= next fuel) value := by
  obtain ⟨bound, settled⟩ := before
  obtain ⟨later, finalSettled⟩ := after
  refine ⟨max bound later, ?_⟩
  intro fuel enough
  dsimp only
  rw [settled fuel (by omega)]
  exact finalSettled fuel (by omega)

theorem map_pure {first : Nat → Except ε β} {middle : β} (apply : β → α) (before : Returns first middle) :
    Returns (fun fuel => first fuel >>= fun result => pure (apply result)) (apply middle) :=
  before.bind (of_eq fun _ => rfl)

theorem some_fuel (returns : Returns family value) : ∃ fuel, family fuel = .ok value := by
  obtain ⟨bound, settled⟩ := returns
  exact ⟨bound, settled bound (Nat.le_refl bound)⟩

theorem unique {other : α} (returns : Returns family value) (returnsOther : Returns family other) : value = other := by
  obtain ⟨bound, settled⟩ := returns
  obtain ⟨later, settledOther⟩ := returnsOther
  exact Except.ok.inj ((settled (max bound later) (by omega)).symm.trans (settledOther (max bound later) (by omega)))

theorem satisfies {tolerated : ε → Prop} {post : α → Prop} (returns : Returns family value)
    (always : ∀ fuel, Satisfies tolerated post (family fuel)) : post value := by
  obtain ⟨fuel, returned⟩ := returns.some_fuel
  exact (always fuel).elim returned

end Returns

end NeuroMerge
