import Mathlib.Data.List.Basic

/-!
# Outcomes of fallible computations

A judgment on `Except` computations that speaks about both exits: the
postcondition holds of every returned value and every fault that can be raised
is one of the tolerated faults. The rules follow the shape of `do` blocks.
-/

namespace NeuroMerge

/-- `computation` returns only values in `post` and raises only faults in
`tolerated`. -/
def Satisfies {ε α : Type} (tolerated : ε → Prop) (post : α → Prop) :
    Except ε α → Prop
  | .ok value => post value
  | .error fault => tolerated fault

namespace Satisfies

variable {ε α β : Type} {tolerated weaker : ε → Prop} {post stronger : α → Prop} {middle : β → Prop}

@[simp] theorem ok_iff {value : α} : Satisfies tolerated post (.ok value) ↔ post value := Iff.rfl

@[simp] theorem pure_iff {value : α} : Satisfies tolerated post (pure value) ↔ post value := Iff.rfl

@[simp] theorem error_iff {fault : ε} : Satisfies tolerated post (.error fault : Except ε α) ↔ tolerated fault := Iff.rfl

@[simp] theorem throw_iff {fault : ε} : Satisfies tolerated post (throw fault : Except ε α) ↔ tolerated fault := Iff.rfl

theorem elim {computation : Except ε α} {value : α} (satisfied : Satisfies tolerated post computation)
    (returned : computation = .ok value) : post value := by
  rw [returned] at satisfied
  exact satisfied

theorem fault {computation : Except ε α} {raised : ε} (satisfied : Satisfies tolerated post computation)
    (failed : computation = .error raised) : tolerated raised := by
  rw [failed] at satisfied
  exact satisfied

theorem of_forall {computation : Except ε α} (returns : ∀ value, computation = .ok value → post value)
    (fails : ∀ raised, computation = .error raised → tolerated raised) : Satisfies tolerated post computation := by
  cases computation with
  | ok value => exact returns value rfl
  | error raised => exact fails raised rfl

theorem mono {computation : Except ε α} (satisfied : Satisfies tolerated stronger computation)
    (implies : ∀ value, stronger value → post value) : Satisfies tolerated post computation := by
  cases computation with
  | ok value => exact implies value satisfied
  | error raised => exact satisfied

theorem weaken {computation : Except ε α} (satisfied : Satisfies tolerated post computation)
    (implies : ∀ raised, tolerated raised → weaker raised) : Satisfies weaker post computation := by
  cases computation with
  | ok value => exact satisfied
  | error raised => exact implies raised satisfied

theorem and {computation : Except ε α} (left : Satisfies tolerated post computation) (right : Satisfies weaker stronger computation) :
    Satisfies tolerated (fun value => post value ∧ stronger value) computation := by
  cases computation with
  | ok value => exact ⟨left, right⟩
  | error raised => exact left

theorem self {computation : Except ε α} : Satisfies (fun _ => True) (fun value => computation = .ok value) computation := by
  cases computation with
  | ok value => rfl
  | error raised => trivial

theorem bind {first : Except ε β} {next : β → Except ε α} (before : Satisfies tolerated middle first)
    (after : ∀ value, middle value → Satisfies tolerated post (next value)) : Satisfies tolerated post (first >>= next) := by
  cases first with
  | ok value => exact after value before
  | error raised => exact before

/-- A computation that raises only one kind of fault, before one that may raise another. -/
theorem bind_left {first : Except ε β} {next : β → Except ε α} (before : Satisfies tolerated middle first)
    (after : ∀ value, middle value →
      Satisfies (fun raised => tolerated raised ∨ weaker raised) post (next value)) :
    Satisfies (fun raised => tolerated raised ∨ weaker raised) post (first >>= next) :=
  bind (before.weaken fun _ => .inl) after

theorem ite {condition : Prop} [Decidable condition] {first second : Except ε α}
    (holds : Satisfies tolerated post first) (fails : Satisfies tolerated post second) :
    Satisfies tolerated post (if condition then first else second) := by
  split
  · exact holds
  · exact fails

theorem exists_ok {computation : Except ε α} (satisfied : Satisfies (fun _ => False) post computation) :
    ∃ value, computation = .ok value ∧ post value := by
  cases computation with
  | ok value => exact ⟨value, rfl, satisfied⟩
  | error raised => exact absurd satisfied id

/-- The loop rule: the invariant relates the items already processed to the
accumulated state. -/
theorem foldlM {γ : Type} {items : List γ} {body : α → γ → Except ε α}
    (invariant : List γ → α → Prop) {initial : α} (start : invariant [] initial)
    (next : ∀ seen item remaining state, items = seen ++ item :: remaining → invariant seen state →
      Satisfies tolerated (invariant (seen ++ [item])) (body state item)) :
    Satisfies tolerated (invariant items) (items.foldlM body initial) := by
  have loop : ∀ remaining seen state, items = seen ++ remaining → invariant seen state →
      Satisfies tolerated (invariant items) (remaining.foldlM body state) := by
    intro remaining
    induction remaining with
    | nil =>
      intro seen state split valid
      simpa [split] using valid
    | cons item remaining ih =>
      intro seen state split valid
      refine bind (next seen item remaining state split valid) ?_
      intro updated preserved
      exact ih (seen ++ [item]) updated (by simpa using split) preserved
  exact loop items [] initial rfl start

theorem foldlM_const {γ : Type} {items : List γ} {body : α → γ → Except ε α} {initial : α} (start : post initial)
    (next : ∀ item ∈ items, ∀ state, post state → Satisfies tolerated post (body state item)) :
    Satisfies tolerated post (items.foldlM body initial) := by
  refine foldlM (fun _ => post) start ?_
  intro seen item remaining state split valid
  exact next item (by simp [split]) state valid

theorem mapM {γ : Type} {items : List γ} {apply : γ → Except ε α} (related : γ → α → Prop)
    (each : ∀ item ∈ items, Satisfies tolerated (related item) (apply item)) :
    Satisfies tolerated (List.Forall₂ related items) (items.mapM apply) := by
  induction items with
  | nil => exact List.Forall₂.nil
  | cons item items ih =>
    rw [List.mapM_cons]
    apply bind (each item (by simp))
    intro result relatedResult
    apply bind (ih fun other member => each other (by simp [member]))
    intro results relatedResults
    exact List.Forall₂.cons relatedResult relatedResults

theorem mapM_all {γ : Type} {items : List γ} {apply : γ → Except ε α} (each : ∀ item ∈ items, Satisfies tolerated post (apply item)) :
    Satisfies tolerated (fun results => ∀ result ∈ results, post result) (items.mapM apply) := by
  apply (mapM (fun _ => post) each).mono
  clear each
  intro results related
  induction related with
  | nil => exact nofun
  | cons holds _ ih => exact List.forall_mem_cons.mpr ⟨holds, ih⟩

end Satisfies

theorem bind_eq_ok_iff {ε α β : Type} {first : Except ε α} {rest : α → Except ε β} {out : β} :
    first >>= rest = .ok out ↔ ∃ value, first = .ok value ∧ rest value = .ok out := by
  cases first <;> simp [bind, Except.bind]

theorem map_eq_ok_iff {ε α β : Type} {first : Except ε α} {apply : α → β} {out : β} :
    apply <$> first = .ok out ↔ ∃ value, first = .ok value ∧ apply value = out := by
  cases first <;> simp [Functor.map, Except.map]

end NeuroMerge
