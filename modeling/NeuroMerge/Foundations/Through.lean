/-!
# Steps through intermediate points

A transformation that splits one step into several goes through points which the original
system does not have. `Through` is a run of at least one step that meets only such points
on its way.
-/

namespace NeuroMerge

inductive Through {α : Type} (step : α → α → Prop) (skipped : α → Prop) : α → α → Prop where
  | direct {a b : α} (first : step a b) : Through step skipped a b
  | via {a m b : α} (first : step a m) (skips : skipped m) (rest : Through step skipped m b) :
      Through step skipped a b

namespace Through

variable {α β : Type} {step other : α → α → Prop} {skipped further : α → Prop} {a b m : α}

theorem mono (through : Through step skipped a b) (steps : ∀ a b, step a b → other a b)
    (skips : ∀ a, skipped a → further a) : Through other further a b := by
  induction through with
  | direct first => exact .direct (steps _ _ first)
  | via first skipsFirst _ ih => exact .via (steps _ _ first) (skips _ skipsFirst) ih

theorem append (before : Through step skipped a m) (skips : skipped m) (after : Through step skipped m b) : Through step skipped a b := by
  induction before with
  | direct first => exact .via first skips after
  | via first skipsFirst _ ih => exact .via first skipsFirst (ih skips after)

theorem simulate {step' : β → β → Prop} {skipped' : β → Prop} (related : α → β → Prop)
    (steps : ∀ a a' b, related a a' → step a b → ∃ b', Through step' skipped' a' b' ∧ related b b')
    (skips : ∀ a a', related a a' → skipped a → skipped' a') (through : Through step skipped a b) {a' : β} (start : related a a') :
    ∃ b', Through step' skipped' a' b' ∧ related b b' := by
  induction through generalizing a' with
  | direct first => exact steps _ _ _ start first
  | via first skipsFirst _ ih =>
    obtain ⟨m', toMiddle, middle⟩ := steps _ _ _ start first
    obtain ⟨b', toEnd, last⟩ := ih middle
    exact ⟨b', toMiddle.append (skips _ _ middle skipsFirst) toEnd, last⟩

theorem group {kept : α → Prop} (start : kept a) (last : kept b) (through : Through step skipped a b) :
    Through (fun x y => kept x ∧ kept y ∧ Through step (fun m => ¬ kept m) x y) skipped a b := by
  -- where the run first comes to a point that is kept
  have first {x : α} (run : Through step skipped x b) :
      ∃ y, kept y ∧ Through step (fun m => ¬ kept m) x y ∧ (y = b ∨ skipped y ∧
        Through (fun x y => kept x ∧ kept y ∧ Through step (fun m => ¬ kept m) x y) skipped y b) := by
    clear through start
    induction run with
    | direct first => exact ⟨_, last, .direct first, .inl rfl⟩
    | @via x m b first skips _ ih =>
      obtain ⟨y, isKept, segment, rest⟩ := ih last
      by_cases keptMiddle : kept m
      · refine ⟨m, keptMiddle, .direct first, .inr ⟨skips, ?_⟩⟩
        cases rest with
        | inl same =>
          subst same
          exact .direct ⟨keptMiddle, isKept, segment⟩
        | inr rest => exact .via ⟨keptMiddle, isKept, segment⟩ rest.1 rest.2
      · exact ⟨y, isKept, .via first keptMiddle segment, rest⟩
  obtain ⟨y, isKept, segment, rest⟩ := first through
  cases rest with
  | inl same =>
    subst same
    exact .direct ⟨start, isKept, segment⟩
  | inr rest => exact .via ⟨start, isKept, segment⟩ rest.1 rest.2

end Through

end NeuroMerge
