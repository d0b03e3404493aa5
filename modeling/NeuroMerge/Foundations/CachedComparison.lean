import Mathlib.Data.List.Basic

/-!
# Comparisons that remember equal pairs

Two linked structures are compared part by part, and pairs of addresses that were
found equal are remembered on the way. When each structure is written out as a
list, and only addresses with equal contents are remembered, the result is the
lexicographic comparison of the lists.
-/

namespace NeuroMerge

/-- The pairs of addresses that were found equal, the smaller address first. -/
abbrev EqualPairs (κ : Type) := List (κ × κ)

/-- A comparison that may consult and extend the remembered pairs. -/
abbrev CachedComparison (κ : Type) := EqualPairs κ → Ordering × EqualPairs κ

namespace CachedComparison

variable {κ : Type}

def equal : CachedComparison κ := fun equivs => (.eq, equivs)

/-- The second comparison counts when the first result is no difference. -/
def decidedBy (result : Ordering) (rest : CachedComparison κ) : CachedComparison κ :=
  fun equivs =>
    match result with
    | .eq => rest equivs
    | .lt => (.lt, equivs)
    | .gt => (.gt, equivs)

def andThen (first second : CachedComparison κ) : CachedComparison κ :=
  fun equivs => decidedBy (first equivs).1 second (first equivs).2

def forgetting (comparison : CachedComparison κ) : CachedComparison κ :=
  fun equivs => ((comparison equivs).1, [])

def orderedPair [LT κ] [DecidableLT κ] (this b : κ) : κ × κ :=
  if this < b then (this, b) else (b, this)

/-- One address is equal to itself, a remembered pair is equal, and a pair that the
comparison finds equal is remembered. -/
def remembering [DecidableEq κ] [LT κ] [DecidableLT κ] (cached : Bool) (this b : κ)
    (comparison : CachedComparison κ) : CachedComparison κ :=
  fun equivs =>
    if this = b then (.eq, equivs)
    else if cached ∧ orderedPair this b ∈ equivs then (.eq, equivs)
    else
      match comparison equivs with
      | (.eq, equivs) => (.eq, orderedPair this b :: equivs)
      | unequal => unequal

end CachedComparison

/-- The result is what decides between the lists whatever follows them. -/
def DecidesOrder {α : Type} [Ord α] (result : Ordering) (left right : List α) : Prop :=
  ∀ more more', compare (left ++ more) (right ++ more') = result.then (compare more more')

namespace DecidesOrder

variable {α : Type} [Ord α] {result : Ordering} {left right : List α}

theorem refl [Std.ReflOrd α] (same : List α) : DecidesOrder .eq same same := by
  intro more more'
  induction same with
  | nil => rfl
  | cons token same ih => simpa using ih

theorem cons {token token' : α} (equal : compare token token' = .eq)
    (decides : DecidesOrder result left right) : DecidesOrder result (token :: left) (token' :: right) := by
  intro more more'
  simpa [equal] using decides more more'

theorem head {token token' : α} (unequal : compare token token' ≠ .eq) (left right : List α) :
    DecidesOrder (compare token token') (token :: left) (token' :: right) := by
  intro more more'
  simp only [List.cons_append, List.compare_cons_cons]
  cases order : compare token token' with
  | eq => exact absurd order unequal
  | lt => rfl
  | gt => rfl

theorem append {result' : Ordering} {left' right' : List α} (decides : DecidesOrder .eq left right)
    (decides' : DecidesOrder result' left' right') : DecidesOrder result' (left ++ left') (right ++ right') := by
  intro more more'
  rw [List.append_assoc, List.append_assoc, decides, decides']
  rfl

theorem append_of_ne (decides : DecidesOrder result left right) (unequal : result ≠ .eq)
    (left' right' : List α) : DecidesOrder result (left ++ left') (right ++ right') := by
  intro more more'
  rw [List.append_assoc, List.append_assoc, decides]
  cases result with
  | eq => exact absurd rfl unequal
  | lt => rfl
  | gt => rfl

end DecidesOrder

def EqualPairs.Sound {κ β : Type} (contents : κ → β) (equivs : EqualPairs κ) : Prop :=
  ∀ pair ∈ equivs, contents pair.1 = contents pair.2

theorem EqualPairs.sound_nil {κ β : Type} (contents : κ → β) : EqualPairs.Sound contents ([] : EqualPairs κ) := by
  intro pair member
  cases member

/-- The result decides between the two lists, is no difference only if there is none,
and the pairs are sound. -/
structure ComparisonOutcome {κ β α : Type} [Ord α] (contents : κ → β) (outcome : Ordering × EqualPairs κ)
    (left right : List α) (same : Prop) : Prop where
  decides : DecidesOrder outcome.1 left right
  same_of_eq : outcome.1 = .eq → same
  sound : EqualPairs.Sound contents outcome.2

def Orders {κ β α : Type} [Ord α] (contents : κ → β) (comparison : CachedComparison κ)
    (left right : List α) (same : Prop) : Prop :=
  ∀ equivs, EqualPairs.Sound contents equivs →
    ComparisonOutcome contents (comparison equivs) left right same

namespace Orders

open CachedComparison

variable {κ β α : Type} [Ord α] {contents : κ → β} {comparison : CachedComparison κ} {left right : List α} {same : Prop}

theorem imp {same' : Prop} (orders : Orders contents comparison left right same)
    (implies : same → same') : Orders contents comparison left right same' := by
  intro equivs sound
  obtain ⟨decides, same_of_eq, kept⟩ := orders equivs sound
  exact ⟨decides, fun result => implies (same_of_eq result), kept⟩

theorem equal [Std.ReflOrd α] (list : List α) : Orders contents equal list list True :=
  fun _ sound => ⟨.refl list, fun _ => trivial, sound⟩

theorem token [Std.LawfulEqOrd α] {token token' : α} (rest : token = token' → Orders contents comparison left right same) :
    Orders contents (decidedBy (compare token token') comparison) (token :: left) (token' :: right) (token = token' ∧ same) := by
  intro equivs sound
  by_cases equal : compare token token' = .eq
  · have tokens := Std.LawfulEqOrd.eq_of_compare equal
    obtain ⟨decides, same_of_eq, kept⟩ := rest tokens equivs sound
    rw [equal]
    exact ⟨decides.cons equal, fun result => ⟨tokens, same_of_eq result⟩, kept⟩
  · have decides := DecidesOrder.head equal left right
    generalize compare token token' = result at equal decides ⊢
    cases result with
    | eq => exact absurd rfl equal
    | lt => exact ⟨decides, (nomatch ·), sound⟩
    | gt => exact ⟨decides, (nomatch ·), sound⟩

theorem andThen {second : CachedComparison κ} {left' right' : List α} {same' : Prop}
    (orders : Orders contents comparison left right same) (orders' : Orders contents second left' right' same') :
    Orders contents (comparison.andThen second) (left ++ left') (right ++ right') (same ∧ same') := by
  intro equivs sound
  have outcome := orders equivs sound
  unfold CachedComparison.andThen decidedBy
  generalize comparison equivs = first at outcome ⊢
  obtain ⟨result, equivs'⟩ := first
  obtain ⟨decides, same_of_eq, kept⟩ := outcome
  cases result with
  | eq =>
    obtain ⟨decides', same_of_eq', kept'⟩ := orders' equivs' kept
    exact ⟨DecidesOrder.append decides decides', fun result => ⟨same_of_eq rfl, same_of_eq' result⟩, kept'⟩
  | lt =>
    exact ⟨decides.append_of_ne (nomatch ·) left' right', (nomatch ·), kept⟩
  | gt =>
    exact ⟨decides.append_of_ne (nomatch ·) left' right', (nomatch ·), kept⟩

theorem forgetting (orders : Orders contents comparison left right same) : Orders contents comparison.forgetting left right same := by
  intro equivs sound
  obtain ⟨decides, same_of_eq, _⟩ := orders equivs sound
  exact ⟨decides, same_of_eq, EqualPairs.sound_nil contents⟩

/-- Remembering pairs, or ignoring them, keeps the order: only equal contents are
remembered. -/
theorem remembering [DecidableEq κ] [LT κ] [DecidableLT κ] [Std.ReflOrd α] (cached : Bool)
    {this b : κ} (contents_iff : contents this = contents b ↔ same)
    (lists : same → left = right) (orders : Orders contents comparison left right same) :
    Orders contents (comparison.remembering cached this b) left right same := by
  have pair_iff : contents (orderedPair this b).1 = contents (orderedPair this b).2 ↔ same := by
    rw [← contents_iff]
    unfold orderedPair
    split
    · rfl
    · exact eq_comm
  intro equivs sound
  have shortcut (found : same) : ComparisonOutcome contents (.eq, equivs) left right same :=
    ⟨lists found ▸ .refl left, fun _ => found, sound⟩
  unfold CachedComparison.remembering
  by_cases identical : this = b
  · rw [if_pos identical]
    exact shortcut (contents_iff.mp (congrArg contents identical))
  rw [if_neg identical]
  by_cases found : cached ∧ orderedPair this b ∈ equivs
  · rw [if_pos found]
    exact shortcut (pair_iff.mp (sound _ found.2))
  rw [if_neg found]
  have outcome := orders equivs sound
  generalize comparison equivs = compared at outcome ⊢
  obtain ⟨result, equivs'⟩ := compared
  cases result with
  | lt => exact outcome
  | gt => exact outcome
  | eq =>
    refine ⟨outcome.decides, outcome.same_of_eq, fun pair member => ?_⟩
    cases member with
    | head => exact pair_iff.mpr (outcome.same_of_eq rfl)
    | tail _ member => exact outcome.sound pair member

end Orders

end NeuroMerge
