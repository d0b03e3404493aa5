import NeuroMerge.Foundations.Fuel

/-!
# Memoised recursion

A recursive function on fuel may keep its earlier results in a table. The
computation that does so follows the one without: as long as every entry of the
table is a result of the plain function, both end in the same way.
-/

namespace NeuroMerge

/-- The stateful run ends like the plain computation, and a state it leaves is
valid. -/
def Follows {ε σ α : Type} (valid : σ → Prop) : Except ε α → Except ε (α × σ) → Prop
  | .ok value, run => ∃ state, valid state ∧ run = .ok (value, state)
  | .error fault, run => run = .error fault

/-- From some fuel on the plain computation has one outcome, which is not want of
fuel, and the stateful one follows it from every valid state. -/
def Tracks {ε σ α : Type} (exhausted : ε) (valid : σ → Prop) (plain : Nat → Except ε α)
    (stateful : Nat → StateT σ (Except ε) α) : Prop :=
  ∃ bound outcome, outcome ≠ .error exhausted ∧ ∀ fuel, bound ≤ fuel →
    plain fuel = outcome ∧ ∀ state, valid state → Follows valid outcome ((stateful fuel).run state)

/-- A table from which a value is taken if there is one, and to which it is added
otherwise. -/
def memo {ε κ α : Type} [DecidableEq κ] (key : κ) (compute : StateT (List (κ × α)) (Except ε) α) :
    StateT (List (κ × α)) (Except ε) α := do
  match (← get).lookup key with
  | some value => pure value
  | none =>
    let value ← compute
    modify (· ++ [(key, value)])
    pure value

def Cached {ε κ α : Type} (function : Nat → κ → Except ε α) (table : List (κ × α)) : Prop :=
  ∀ entry ∈ table, Returns (fun fuel => function fuel entry.1) entry.2

namespace Tracks

variable {ε σ α β : Type} {exhausted : ε} {valid : σ → Prop}
  {plain otherPlain : Nat → Except ε α} {stateful other : Nat → StateT σ (Except ε) α}

theorem congr (samePlain : ∀ fuel, plain fuel = otherPlain fuel) (same : ∀ fuel, stateful fuel = other fuel)
    (tracks : Tracks exhausted valid otherPlain other) : Tracks exhausted valid plain stateful := by
  obtain rfl : plain = otherPlain := funext samePlain
  obtain rfl : stateful = other := funext same
  exact tracks

theorem succ (tracks : Tracks exhausted valid (fun fuel => plain (fuel + 1))
    fun fuel => stateful (fuel + 1)) : Tracks exhausted valid plain stateful := by
  obtain ⟨bound, outcome, ends, settled⟩ := tracks
  refine ⟨bound + 1, outcome, ends, ?_⟩
  intro fuel enough
  cases fuel with
  | zero => omega
  | succ fuel => exact settled fuel (by omega)

theorem pure (value : α) : Tracks exhausted valid (fun _ => Pure.pure value) (fun _ => Pure.pure value) :=
  ⟨0, .ok value, nofun, fun _ _ => ⟨rfl, fun state isValid => ⟨state, isValid, rfl⟩⟩⟩

theorem lift (halts : Halts exhausted plain) : Tracks exhausted valid plain fun fuel => StateT.lift (plain fuel) := by
  obtain ⟨bound, outcome, ends, settled⟩ := halts
  refine ⟨bound, outcome, ends, fun fuel enough => ⟨settled fuel enough, ?_⟩⟩
  intro state isValid
  dsimp only
  rw [settled fuel enough]
  cases outcome with
  | ok value => exact ⟨state, isValid, rfl⟩
  | error fault => rfl

theorem bind {first : Nat → Except ε β} {next : Nat → β → Except ε α}
    {statefulFirst : Nat → StateT σ (Except ε) β} {statefulNext : Nat → β → StateT σ (Except ε) α}
    (before : Tracks exhausted valid first statefulFirst)
    (after : ∀ value, Returns first value →
      Tracks exhausted valid (fun fuel => next fuel value) fun fuel => statefulNext fuel value) :
    Tracks exhausted valid (fun fuel => first fuel >>= next fuel) fun fuel => statefulFirst fuel >>= statefulNext fuel := by
  obtain ⟨bound, outcome, ends, settled⟩ := before
  cases outcome with
  | error fault =>
    refine ⟨bound, .error fault, fun same => ends (by cases same; rfl), ?_⟩
    intro fuel enough
    obtain ⟨returned, follows⟩ := settled fuel enough
    constructor
    · dsimp only
      rw [returned]
      rfl
    · intro state isValid
      have run : (statefulFirst fuel).run state = .error fault := follows state isValid
      rw [StateT.run_bind, run]
      rfl
  | ok value =>
    obtain ⟨later, final, finalEnds, finalSettled⟩ := after value ⟨bound, fun fuel enough => (settled fuel enough).1⟩
    refine ⟨max bound later, final, finalEnds, ?_⟩
    intro fuel enough
    obtain ⟨returned, follows⟩ := settled fuel (by omega)
    obtain ⟨finalReturned, finalFollows⟩ := finalSettled fuel (by omega)
    constructor
    · dsimp only
      rw [returned]
      exact finalReturned
    · intro state isValid
      obtain ⟨middle, middleValid, run⟩ := follows state isValid
      rw [StateT.run_bind, run]
      exact finalFollows middle middleValid

theorem map {first : Nat → Except ε β} {statefulFirst : Nat → StateT σ (Except ε) β}
    {apply : β → α} (before : Tracks exhausted valid first statefulFirst) :
    Tracks exhausted valid (fun fuel => apply <$> first fuel) fun fuel => apply <$> statefulFirst fuel := by
  exact before.bind fun value _ => pure (apply value)

theorem ite {condition : Prop} [Decidable condition] (holds : condition → Tracks exhausted valid plain stateful)
    (fails : ¬ condition → Tracks exhausted valid otherPlain other) :
    Tracks exhausted valid (fun fuel => if condition then plain fuel else otherPlain fuel)
      fun fuel => if condition then stateful fuel else other fuel := by
  by_cases decided : condition
  · simpa [decided] using holds decided
  · simpa [decided] using fails decided

theorem mapM {γ : Type} {items : List γ} {apply : Nat → γ → Except ε α} {statefulApply : Nat → γ → StateT σ (Except ε) α}
    (each : ∀ item ∈ items, Tracks exhausted valid (fun fuel => apply fuel item)
      fun fuel => statefulApply fuel item) :
    Tracks exhausted valid (fun fuel => items.mapM (apply fuel)) fun fuel => items.mapM (statefulApply fuel) := by
  induction items with
  | nil => exact congr (fun _ => List.mapM_nil) (fun _ => List.mapM_nil) (pure [])
  | cons item items ih =>
    apply congr (fun _ => List.mapM_cons) fun _ => List.mapM_cons
    apply bind (each item (by simp))
    intro result _
    apply bind (ih fun other member => each other (by simp [member]))
    intro results _
    exact pure (result :: results)

/-- A table of results does not change how the computation of one of them ends. -/
theorem memo {κ : Type} [DecidableEq κ] {function : Nat → κ → Except ε α} {key : κ} {compute : Nat → StateT (List (κ × α)) (Except ε) α}
    (same : ∀ value, Returns plain value ↔ Returns (fun fuel => function fuel key) value)
    (tracks : Tracks exhausted (Cached function) plain compute) :
    Tracks exhausted (Cached function) plain fun fuel => memo key (compute fuel) := by
  obtain ⟨bound, outcome, ends, settled⟩ := tracks
  refine ⟨bound, outcome, ends, fun fuel enough => ⟨(settled fuel enough).1, ?_⟩⟩
  intro table cached
  have run : (NeuroMerge.memo key (compute fuel)).run table = (match table.lookup key with
      | some value => .ok (value, table)
      | none => (compute fuel).run table >>= fun result =>
        .ok (result.1, result.2 ++ [(key, result.1)])) := by
    change (match table.lookup key with | some value => _ | none => _ : StateT (List (κ × α)) (Except ε) α).run table = _
    cases table.lookup key <;> rfl
  rw [run]
  cases found : table.lookup key with
  | some value =>
    obtain ⟨before, after, split, -⟩ := List.lookup_eq_some_iff.mp found
    obtain ⟨later, returned⟩ := (same value).mpr (cached (key, value) (by simp [split]))
    have agree : outcome = .ok value := (settled (max bound later) (by omega)).1.symm.trans (returned _ (by omega))
    rw [agree]
    exact ⟨table, cached, rfl⟩
  | none =>
    have follows := (settled fuel enough).2 table cached
    cases outcome with
    | error fault =>
      have raised : (compute fuel).run table = .error fault := follows
      rw [raised]
      rfl
    | ok value =>
      obtain ⟨left, leftCached, returned⟩ := follows
      refine ⟨left ++ [(key, value)], ?_, by rw [returned]; rfl⟩
      intro entry member
      rw [List.mem_append, List.mem_singleton] at member
      cases member with
      | inl member => exact leftCached entry member
      | inr added =>
        subst added
        exact (same value).mp ⟨bound, fun fuel enough => (settled fuel enough).1⟩

theorem returns_iff (tracks : Tracks exhausted valid plain stateful) {state : σ} (isValid : valid state) (value : α) :
    Returns (fun fuel => (stateful fuel).run' state) value ↔ Returns plain value := by
  obtain ⟨bound, outcome, ends, settled⟩ := tracks
  have same (fuel) (enough : bound ≤ fuel) : (stateful fuel).run' state = plain fuel := by
    obtain ⟨returned, follows⟩ := settled fuel enough
    have followed := follows state isValid
    rw [returned, StateT.run']
    cases outcome with
    | ok value =>
      obtain ⟨left, -, run⟩ := followed
      rw [StateT.run] at run
      rw [run]
      rfl
    | error fault =>
      have run : (stateful fuel).run state = .error fault := followed
      rw [StateT.run] at run
      rw [run]
      rfl
  constructor
  · rintro ⟨later, returned⟩
    refine ⟨max bound later, fun fuel enough => ?_⟩
    rw [← same fuel (by omega)]
    exact returned fuel (by omega)
  · rintro ⟨later, returned⟩
    refine ⟨max bound later, fun fuel enough => ?_⟩
    dsimp only
    rw [same fuel (by omega)]
    exact returned fuel (by omega)

end Tracks

end NeuroMerge
